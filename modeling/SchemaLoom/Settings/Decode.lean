import SchemaLoom.Document.Decode
import SchemaLoom.Settings
import SchemaLoom.Spelled
import SchemaLoom.Yaml.Json

/-!
# Reading settings

Settings come from the environment, a file and defaults, in this order. Keys of
the file count regardless of case, unknown ones are ignored and null leaves a
setting as it is. Values are converted loosely: a number or a boolean is a text,
a text that spells a number or a boolean is one.
-/

namespace SchemaLoom

abbrev Environment := List (Text × Text)

namespace Settings

inductive Given where
  | null
  | bool (b : Bool)
  | int (n : Int)
  /-- A double; `none` stands for infinities and not-a-number. -/
  | float (x : Option Double) (infinite negative : Bool)
  | text (t : Text)
  /-- A list, a mapping or a moment, which no setting can be. -/
  | other
  deriving Repr, Inhabited

namespace Given

/-! ### Loose conversion -/

/-- The integer of 64 bits with the same low bits. -/
def wrap (n : Int) : Int := Int.bmod n (twoTo 64)

/-- The smallest integer of 64 bits stands for every double beyond them. -/
def truncated : Option Double → Int
  | none => leastSigned 64
  | some x =>
    let n := x.truncate
    if isSigned 64 n then n else leastSigned 64

def int? : Given → Option Int
  | int n => some (wrap n)
  | float x _ _ => some (truncated x)
  | bool b => some (if b then 1 else 0)
  | text [] => some 0
  | text t => (Spelled.int t).toOption
  | null | other => none

def bool? : Given → Option Bool
  | bool b => some b
  | int n => some (n != 0)
  | float none _ _ => some true
  | float (some x) _ _ => some (!x.isZero)
  | text [] => some false
  | text t => Spelled.bool? t
  | null | other => none

def text? : Given → Option Text
  | text t => some t
  | bool b => some (if b then "1" else "0")
  | int n => some (Text.ofInt n)
  | float (some x) _ _ => some (Text.ofString x.positional)
  | float none true true => some "-Inf"
  | float none true false => some "+Inf"
  | float none false _ => some "NaN"
  | null | other => none

end Given

/-! ### The file -/

def givenScalar (tag text : String) : Yaml.Decode Given := do
  match ← Yaml.Decode.scalarOf tag text with
  | .null => pure .null
  | .bool b => pure (.bool b)
  | .int n => pure (.int n)
  | .float x infinite negative => pure (.float x infinite negative)
  | .moment _ => pure .other
  | .string _ => return .text (← Yaml.Decode.scalarText tag text)

/-- The value of a setting. What stands below it is read for its faults only. -/
def given (fuel : Nat) : Yaml.Reader Given := Yaml.Decode.through fun scope n =>
  match n with
  | .scalar _ tag text => return some (← givenScalar tag text)
  | n => return (← Yaml.Decode.convertNode (Yaml.Decode.convert fuel) fuel scope n).map fun _ => .other

abbrev Table := List (String × Given)

/-- The settings of a root node; null holds none. -/
def tableReader (fuel : Nat) : Yaml.Reader Table := Yaml.Decode.through fun scope n =>
  match n with
  | .mapping _ _ entries => do
    let es ← Yaml.Decode.readMapping false (given fuel) (fuel + 1) scope entries none []
    pure (es.map fun (es, _) => es.filterMap fun (k, v) => k.map fun k => (k, v))
  | .scalar _ tag text => do
    match ← Yaml.Decode.scalarOf tag text with
    | .null => pure none
    | _ => Yaml.Decode.fatal .malformed
  | _ => Yaml.Decode.fatal .malformed

/-- The settings a text holds. Every fault of it is one of the file as a whole. -/
def readTable (t : Text) : Result Table :=
  let read : Result Table := do
    match ← Yaml.parse t with
    | none => .ok []
    | some d => return (← Yaml.Decode.run (tableReader d.depth ⟨d.anchors, false, []⟩ d.root)).getD []
  match read with
  | .ok table => .ok table
  | .error _ => Result.fail .malformed

/-- A key in small letters. -/
def foldKey (key : String) : String := key.map smallOf

/-- The value of a key, unless it is null. -/
def Table.value? (table : Table) (key : String) : Option Given :=
  match List.find? (fun e => foldKey e.1 == foldKey key) table with
  | some (_, .null) => none
  | some (_, v) => some v
  | none => none

/-! ### All sources -/

def overridingVariables : List (String × String) :=
  [("input", "ZODGEN_INPUT"), ("inputFormat", "ZODGEN_INPUT_FORMAT"),
   ("output", "ZODGEN_OUTPUT"), ("namingStyle", "ZODGEN_NAMING_STYLE"),
   ("emitInfer", "ZODGEN_EMIT_INFER")]

/-- The variable that overrides a key, if it is set and not empty. -/
def override? (env : Environment) (key : String) : Option Text := do
  let name ← overridingVariables.lookup key
  let value ← env.lookup (Text.ofString name)
  if value.isEmpty then none else some value

/-- The value of a setting: the environment comes before the file. -/
def lookup (env : Environment) (table : Table) (key : String) : Option Given :=
  match override? env key with
  | some t => some (.text t)
  | none => table.value? key

def convertOr {α : Type} (convert : Given → Option α) (default : α) : Option Given → Option α
  | some v => convert v
  | none => some default

/-- The settings that a file and the environment make together; nothing if a value does not
convert. -/
def ofTable? (env : Environment) (table : Table) : Option Settings := do
  let find := lookup env table
  let version ← convertOr Given.int? currentVersion (find "version")
  let input ← convertOr Given.text? [] (find "input")
  let inputFormat ← convertOr Given.text? [] (find "inputFormat")
  let output ← convertOr Given.text? [] (find "output")
  let namingStyle ← convertOr Given.text? (Text.ofString NamingStyle.plain.name) (find "namingStyle")
  let emitInfer ← convertOr Given.bool? false (find "emitInfer")
  some { version, input, inputFormat, output, namingStyle, emitInfer }

/-- Reads the settings file at a path that holds `t`. -/
def parse (env : Environment) (path : Text) (t : Text) : Result Settings := do
  let table ← Result.within ("read " ++ path.mentioned) (readTable t)
  match ofTable? env table with
  | some s => .ok s
  | none => Result.within ("decode " ++ path.mentioned) (Result.fail .malformed)

end Settings

end SchemaLoom

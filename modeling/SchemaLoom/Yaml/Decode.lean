import SchemaLoom.Error
import SchemaLoom.Yaml.Node

/-!
# Reading typed data from YAML nodes

Readers for strings, booleans, integers, lists and records. A node of the wrong
form is noted and reading goes on, so that one pass lists every such fault; a
fault of the stream itself (an alias inside its own anchor, a tag that does not
fit) ends the reading. Null leaves a field as it is.
-/

namespace SchemaLoom.Yaml

/-- What one reading has noted and counted so far. -/
structure Tally where
  faults : List Text := []
  steps : Nat := 0
  aliasSteps : Nat := 0
  deriving Inhabited

structure Scope where
  anchors : Anchors
  /-- Unknown keys of records are faults. -/
  strict : Bool
  /-- The aliases being expanded. -/
  expanding : List Nat := []

/-- A reading: noted faults as state, fatal ones as failures. -/
abbrev Decode := StateT Tally (Except Failure)

/-- The outcome of a reader at a node: nothing when the node does not count as given. -/
abbrev Reader (α : Type) := Scope → Node → Decode (Option α)

namespace Decode

def fatal {α : Type} (c : Cause) : Decode α := throw (Failure.of c)

def note (fault : Text) : Decode Unit :=
  modify fun t => { t with faults := t.faults ++ [fault] }

/-- Runs a reading of its own and hands out its result; noted faults become its failure. -/
def run {α : Type} (d : Decode α) : Result α :=
  match StateT.run d {} with
  | .error f => .error f
  | .ok (a, t) => if t.faults.isEmpty then .ok a else Result.fail (.illTyped t.faults)

/-- Takes over a reading that ran on its own: noted faults are noted here. -/
def adopt {α : Type} : Result α → Decode (Option α)
  | .ok a => pure (some a)
  | .error f =>
    match f.cause with
    | .illTyped lines => do
      lines.forM note
      pure none
    | _ => throw f

/-- Too large a part of the steps goes into aliases. -/
def excessive (t : Tally) : Bool :=
  decide (100 < t.aliasSteps) && decide (1000 < t.steps) &&
    if t.steps ≤ 400000 then decide (99 * t.steps < 100 * t.aliasSteps)
    else if 4000000 ≤ t.steps then decide (t.steps < 10 * t.aliasSteps)
    else decide (t.steps * (356400000 - 89 * (t.steps - 400000)) < t.aliasSteps * 360000000)

def tick (scope : Scope) : Decode Unit := do
  let t ← get
  let t := { t with
    steps := t.steps + 1
    aliasSteps := if scope.expanding.isEmpty then t.aliasSteps else t.aliasSteps + 1 }
  set t
  if excessive t then fatal .malformed

/-- Passes through an alias to the node it stands for. -/
def enter (scope : Scope) (n : Node) : Decode (Scope × Node) := do
  tick scope
  match n with
  | .aliasOf _ _ target occurrence =>
    if scope.expanding.contains occurrence then fatal .malformed
    let scope := { scope with expanding := occurrence :: scope.expanding }
    tick scope
    match scope.anchors[target]? with
    | some n => pure (scope, n)
    | none => fatal .malformed
  | _ => pure (scope, n)

/-- A reader for nodes behind aliases. -/
def through {α : Type} (r : Reader α) : Reader α := fun scope n => do
  let (scope, n) ← enter scope n
  r scope n

/-! ### Faults -/

/-- The text of a scalar as faults show it: past ten bytes, the first seven. -/
def excerpt (text : String) : Text :=
  let t := Text.ofString text
  if 10 < t.size then Text.ofBytes (t.bytes.take 7) ++ "..." else t

def illTypedLine (n : Node) (type : String) : Text :=
  let shown : Text :=
    if n.tag == "!!seq" || n.tag == "!!map" then [] else " \x60" ++ excerpt n.text ++ "\x60"
  "line " ++ Text.ofNat n.line ++ ": cannot unmarshal " ++ Text.ofString n.tag ++ shown ++
    " into " ++ Text.ofString type

/-- Pairs of entries with the same key, in the order of the first and then the second. -/
def repeatedKeys : List (Node × Node) → List (Node × Node)
  | [] => []
  | (k, _) :: rest =>
    (rest.filterMap fun (k', _) =>
      if k.sameForm k' && k.text == k'.text then some (k, k') else none) ++ repeatedKeys rest

def repeatedLine (first second : Node) : Text :=
  "line " ++ Text.ofNat second.line ++ ": mapping key " ++
    (Text.ofString second.text).quoteForMessage ++ " already defined at line " ++
    Text.ofNat first.line

/-- Notes repeated keys; whether there were none. -/
def keysDiffer (entries : List (Node × Node)) : Decode Bool := do
  let rs := repeatedKeys entries
  rs.forM fun (a, b) => note (repeatedLine a b)
  pure rs.isEmpty

/-- Notes that a node has the wrong form. A mapping with repeated keys is noted for those. -/
def refuse {α : Type} (n : Node) (type : String) : Decode (Option α) := do
  let ok ← keysDiffer n.entries
  if ok then note (illTypedLine n type)
  pure none

/-! ### Scalars -/

def base64Value? (c : Char) : Option Nat :=
  if c.isUpper then some (c.toNat - 65)
  else if c.isLower then some (c.toNat - 71)
  else if c.isDigit then some (c.toNat + 4)
  else if c == '+' then some 62
  else if c == '/' then some 63
  else none

/-- The bytes of groups of four digits, the last one padded. -/
def base64Bytes? : List Char → Option (List UInt8)
  | [] => some []
  | a :: b :: '=' :: '=' :: [] => do
    let n := (← base64Value? a) * 64 + (← base64Value? b)
    some [UInt8.ofNat (n / 16)]
  | a :: b :: c :: '=' :: [] => do
    let n := ((← base64Value? a) * 64 + (← base64Value? b)) * 64 + (← base64Value? c)
    some [UInt8.ofNat (n / 1024), UInt8.ofNat (n / 4)]
  | a :: b :: c :: d :: rest => do
    let n := (((← base64Value? a) * 64 + (← base64Value? b)) * 64 + (← base64Value? c)) * 64 +
      (← base64Value? d)
    let more ← base64Bytes? rest
    some (UInt8.ofNat (n / 65536) :: UInt8.ofNat (n / 256) :: UInt8.ofNat n :: more)
  | _ => none

/-- What a scalar denotes; a tag that does not fit is fatal. -/
def scalarOf (tag text : String) : Decode Scalar :=
  match resolve? tag text with
  | some s => pure s
  | none => fatal .malformed

/-- The characters of a scalar: as written, or decoded from base 64. -/
def scalarText (tag text : String) : Decode Text :=
  if tag == "!!binary" then
    match base64Bytes? (text.toList.filter fun c => c != '\n' && c != '\r') with
    | some bs => pure (Text.ofBytes bs)
    | none => fatal .malformed
  else pure (Text.ofString text)

/-- Any scalar is a string. -/
def text : Reader Text := fun _ n =>
  match n with
  | .scalar _ tag t => do
    match ← scalarOf tag t with
    | .null => pure none
    | _ => return some (← scalarText tag t)
  | _ => refuse n "string"

def trueWords : List String := ["y", "Y", "yes", "Yes", "YES", "on", "On", "ON"]

def falseWords : List String := ["n", "N", "no", "No", "NO", "off", "Off", "OFF"]

/-- A boolean, or one of the older words for it. -/
def bool : Reader Bool := fun _ n =>
  match n with
  | .scalar _ tag t => do
    match ← scalarOf tag t with
    | .null => pure none
    | .bool b => pure (some b)
    | .string s =>
      if trueWords.contains s then pure (some true)
      else if falseWords.contains s then pure (some false)
      else refuse n "bool"
    | _ => refuse n "bool"
  | _ => refuse n "bool"

/-- An integer of 64 bits; a double is cut to one. -/
def int64 : Reader Int := fun _ n =>
  match n with
  | .scalar _ tag t => do
    match ← scalarOf tag t with
    | .null => pure none
    | .int i => if i < twoTo 63 then pure (some i) else refuse n "int64"
    | .float (some x) _ _ =>
      let i := x.truncate
      -- the first integer past the words wraps around
      if twoTo 63 < i then refuse n "int64"
      else pure (some (if isSigned 64 i then i else leastSigned 64))
    | .float none true true => pure (some (leastSigned 64))
    | _ => refuse n "int64"
  | _ => refuse n "int64"

/-! ### Lists and records -/

/-- A list; items that do not count are left out, and null is the absent list. -/
def list {α : Type} (type : String) (item : Reader α) : Reader (List α) := fun scope n =>
  match n with
  | .sequence _ _ items => do
    let read ← items.mapM (through item scope)
    pure (some (read.filterMap id))
  | .scalar _ tag t => do
    match ← scalarOf tag t with
    | .null => pure none
    | _ => refuse n type
  | _ => refuse n type

/-- The fields of a record: under each key, how its node updates the record. -/
structure Fields (σ : Type) where
  type : String
  fields : List (String × (Scope → Node → σ → Decode σ))

/-- A field that sets part of a record when its node counts as given. -/
def field {σ α : Type} (key : String) (r : Reader α) (set : σ → α → σ) :
    String × (Scope → Node → σ → Decode σ) :=
  (key, fun scope n s => do
    match ← through r scope n with
    | some a => pure (set s a)
    | none => pure s)

def isMergeKey : Node → Bool
  | .scalar _ tag t => t == "<<" && tag == "!!merge"
  | _ => false

/-- Reads the entries of one mapping into a record. -/
def entriesInto {σ : Type} (fs : Fields σ) (scope : Scope) :
    List (Node × Node) → List String → Option (List String) → σ →
    Decode (σ × Option (List String))
  | [], _, merged, s => pure (s, merged)
  | (k, v) :: rest, done, merged, s => do
    if isMergeKey k then entriesInto fs scope rest done merged s
    else
      match ← through text scope k with
      | none => entriesInto fs scope rest done merged s
      | some key =>
        let key := key.toDisplay
        -- a merged mapping sets no key that was set before it
        if (merged.map (·.contains key)).getD false then
          entriesInto fs scope rest done merged s
        else
          let merged := merged.map (key :: ·)
          match fs.fields.lookup key with
          | some set =>
            if done.contains key then
              note ("line " ++ Text.ofNat k.line ++ ": field " ++ Text.ofString key ++
                " already set in type " ++ Text.ofString fs.type)
              entriesInto fs scope rest done merged s
            else
              let s ← set scope v s
              entriesInto fs scope rest (key :: done) merged s
          | none =>
            if scope.strict then
              note ("line " ++ Text.ofNat k.line ++ ": field " ++ Text.ofString key ++
                " not found in type " ++ Text.ofString fs.type)
            entriesInto fs scope rest done merged s

/-- The keys of a mapping, merge keys left out. -/
def ownKeys (scope : Scope) (entries : List (Node × Node)) : Decode (List String) := do
  let ks ← (entries.filter fun e => !isMergeKey e.1).mapM fun e => through text scope e.1
  pure (ks.filterMap fun k => k.map Text.toDisplay)

/-- The mappings a merge key names; anything else is fatal. -/
def mergeSources (scope : Scope) (n : Node) : Decode (List Node) := do
  let isMap (n : Node) : Bool :=
    match n with
    | .aliasOf _ _ target _ => (scope.anchors[target]?.map Node.isMapping).getD false
    | n => n.isMapping
  match n with
  | .sequence _ _ items => if items.all isMap then pure items else fatal .malformed
  | n => if isMap n then pure [n] else fatal .malformed

/-- Reads what a mapping merges behind its own entries. `merged` holds the keys that are set, if
the mapping is itself merged into another one. -/
def mergeInto {σ : Type}
    (into : Scope → List (Node × Node) → Option (List String) → σ →
      Decode (Option (σ × Option (List String))))
    (scope : Scope) (entries : List (Node × Node)) (merged : Option (List String)) (s : σ) :
    Decode (Option (σ × Option (List String))) := do
  -- of several merge keys the last one counts
  match (entries.filter fun e => isMergeKey e.1).getLast? with
  | none => pure (some (s, merged))
  | some (_, source) =>
    let start ← match merged with
      | some ks => pure ks
      | none => ownKeys scope entries
    let sources ← mergeSources scope source
    let (s, ks) ← sources.foldlM
      (fun (acc : σ × Option (List String)) n => do
        let (scope, n) ← enter scope n
        return (← into scope n.entries acc.2 acc.1).getD acc)
      (s, some start)
    pure (some (s, if merged.isSome then ks else none))

/-- Reads a mapping into a record, and then what it merges. -/
def mappingInto {σ : Type} (fs : Fields σ) :
    Nat → Scope → List (Node × Node) → Option (List String) → σ →
    Decode (Option (σ × Option (List String)))
  | 0, _, _, _, _ => fatal .diverges
  | fuel + 1, scope, entries, merged, s => do
    if !(← keysDiffer entries) then pure none
    else
      let (s, merged) ← entriesInto fs scope entries [] merged s
      mergeInto (mappingInto fs fuel) scope entries merged s

/-- Enough depth for every chain of merges from a node that enters no alias twice. -/
def mergeDepth (anchors : Anchors) (n : Node) : Nat :=
  let total := n.size + Node.sizeAll anchors.toList
  (total + 1) * (total + 1)

def record {σ : Type} (fs : Fields σ) (init : σ) : Reader σ := fun scope n =>
  match n with
  | .mapping _ _ entries => do
    return (← mappingInto fs (mergeDepth scope.anchors n) scope entries none init).map (·.1)
  | .scalar _ tag t => do
    match ← scalarOf tag t with
    | .null => pure none
    | _ => refuse n fs.type
  | .sequence .. => refuse n fs.type
  | .aliasOf .. => fatal .malformed

/-! ### Nodes with the tag of null -/

/-- A scalar with the tag of null does not count as given, and nothing else fits. -/
def absent {α : Type} (type : String) : Reader α := fun _ n =>
  match n with
  | .scalar _ tag t => do
    let _ ← scalarOf tag t
    pure none
  | _ => refuse n type

/-- Reads a node by `r`, unless it has the tag of null: those are for `null`, lists and mappings
included. -/
def unlessNull {α : Type} (null r : Reader α) : Reader α := fun scope n =>
  if n.tag == "!!null" then null scope n else r scope n

/-- A reader of what may be absent. -/
def optional {α : Type} (type : String) (r : Reader α) : Reader α :=
  unlessNull (absent ("*" ++ type)) r

/-- A reader with rules of its own. -/
def own {α : Type} (r : Anchors → Node → Result α) : Reader α := fun scope n =>
  adopt (r scope.anchors n)

end Decode

/-- Reads a node on its own, unknown keys being ignored. -/
def readNode {α : Type} (r : Reader α) (anchors : Anchors) (n : Node) : Result (Option α) :=
  Decode.run (Decode.through r ⟨anchors, false, []⟩ n)

end SchemaLoom.Yaml

import SchemaLoom.Duration
import SchemaLoom.Error
import SchemaLoom.Spelled

/-!
# Flags

The flags of a command and how a list of arguments sets them. A flag is written
`--name value`, `--name=value`, `-n value`, `-nvalue` or `-n=value`; letters of
flags without a value may stand together. Everything behind `--` is an argument.
-/

namespace SchemaLoom

inductive FlagValue where
  | switch (on : Bool)
  | count (n : Int)
  | text (t : Text)
  | span (nanoseconds : Int)
  deriving DecidableEq, Repr

structure Flag where
  name : String
  letter : Option Char := none
  default : FlagValue := .switch false
  usage : String
  deriving Repr

namespace Flag

/-- Whether the flag needs a value; switches and counts can stand alone. -/
def takesValue (f : Flag) : Bool :=
  match f.default with
  | .switch _ | .count _ => false
  | .text _ | .span _ => true

def title (f : Flag) : Text :=
  match f.letter with
  | some c => "-" ++ Text.ofChars [c] ++ ", --" ++ Text.ofString f.name
  | none => "--" ++ Text.ofString f.name

def named? (flags : List Flag) (name : Text) : Option Flag :=
  flags.find? fun f => Text.ofString f.name == name

def lettered? (flags : List Flag) (r : Rune) : Option Flag :=
  flags.find? fun f => f.letter.any fun c => Rune.char c == r

/-! ### Telling arguments from flags -/

def startsDash : Text → Bool
  | .char '-' :: _ => true
  | _ => false

def startsDashes : Text → Bool
  | .char '-' :: .char '-' :: _ => true
  | _ => false

/-- The argument behind which a flag's value stands. A flag that is not known counts as one
that takes a value. -/
def takesNext (flags : List Flag) (s : Text) : Bool :=
  let valued (f : Option Flag) : Bool := (f.map takesValue).getD true
  !s.hasChar '=' &&
    ((startsDashes s && valued (named? flags (s.drop 2))) ||
      (startsDash s && s.size == 2 && valued ((s.drop 1).head?.bind (lettered? flags))))

def dashes : Text := "--"

/-- The arguments that are no flags and no values of flags. -/
def positional (flags : List Flag) : List Text → List Text
  | [] => []
  | s :: rest =>
    if s == dashes then []
    else if takesNext flags s then
      match rest with
      | [] => []
      | [_] => []
      | _ :: rest => positional flags rest
    else if s.isEmpty || startsDash s then positional flags rest
    else s :: positional flags rest

/-- The arguments without the first `x` that is no flag and no value of a flag. -/
def without (flags : List Flag) (x : Text) : List Text → List Text
  | [] => []
  | s :: rest =>
    if s == dashes then s :: rest
    else if takesNext flags s then
      match rest with
      | [] => [s]
      | v :: rest => s :: v :: without flags x rest
    else if s == x then rest
    else s :: without flags x rest

/-! ### Setting flags -/

/-- Flags that were set, the latest first, and the arguments left over. -/
structure Given where
  values : List (String × FlagValue) := []
  args : List Text := []
  deriving Repr, Inhabited

namespace Given

def value? (g : Given) (name : String) : Option FlagValue := g.values.lookup name

def text? (g : Given) (name : String) : Option Text :=
  match g.value? name with
  | some (.text t) => some t
  | _ => none

def switch? (g : Given) (name : String) : Option Bool :=
  match g.value? name with
  | some (.switch b) => some b
  | _ => none

def isOn (g : Given) (name : String) : Bool := (g.switch? name).getD false

def count (g : Given) (name : String) : Int :=
  match g.value? name with
  | some (.count n) => n
  | _ => 0

def span? (g : Given) (name : String) : Option Int :=
  match g.value? name with
  | some (.span n) => some n
  | _ => none

end Given

def usageFault {α : Type} (t : Text) : Result α := Result.fail (.usage t)

def invalid {α : Type} (f : Flag) (value reason : Text) : Result α :=
  usageFault ("invalid argument " ++ value.quoteForMessage ++ " for " ++
    f.title.quoteForMessage ++ " flag: " ++ reason)

/-- The words for a text that a reader of numbers or truth values refuses. -/
def unreadable (reader value reason : Text) : Text :=
  "strconv." ++ reader ++ ": parsing " ++ value.quoteForMessage ++ ": " ++ reason

def valueOf (f : Flag) (g : Given) (t : Text) : Result FlagValue :=
  match f.default with
  | .text _ => .ok (.text t)
  | .switch _ =>
    match Spelled.bool? t with
    | some b => .ok (.switch b)
    | none => f.invalid t (unreadable "ParseBool" t "invalid syntax")
  | .count _ =>
    if t == Text.ofString "+1" then .ok (.count (g.count f.name + 1))
    else match Spelled.int t with
      | .ok n => .ok (.count n)
      | .error .malformed => f.invalid t (unreadable "ParseInt" t "invalid syntax")
      | .error .outOfRange => f.invalid t (unreadable "ParseInt" t "value out of range")
  | .span _ =>
    match Duration.parse t with
    | .ok n => .ok (.span n)
    | .error e => f.invalid t (e.message t)

/-- What a flag that stands alone is set to. -/
def impliedText (f : Flag) : Text :=
  match f.default with
  | .count _ => "+1"
  | _ => "true"

def set (f : Flag) (g : Given) (t : Text) : Result Given := do
  let v ← f.valueOf g t
  .ok { g with values := (f.name, v) :: g.values }

/-- A letter inside a diagnostic. A character past ASCII is named by the first byte of the
Latin letter its own first byte stands for. -/
def quoteLetter : Rune → Text
  | .char c =>
    if 0x80 ≤ c.toNat then "'\u00C3'"
    else if c == '\'' then "'\\''"
    else if c == '"' then "'\"'"
    else "'" ++ Text.ofChars (Text.quoteRune (.char c)) ++ "'"
  | .stray _ => "'\u00C3'"

/-- Reads letters that stand behind one dash; `next` is the argument behind them. Also tells
whether that argument was used up. -/
def readLetters (flags : List Flag) (next : Option Text) : Text → Given → Result (Given × Bool)
  | [], g => .ok (g, false)
  | r :: more, g =>
    if (Text.ofString "test.").isPrefixOf (r :: more) then .ok (g, false)
    else match lettered? flags r with
      | none => usageFault ("unknown shorthand flag: " ++ quoteLetter r ++ " in -" ++ (r :: more))
      | some f =>
        let alone : Result (Given × Bool) :=
          if more.isEmpty then
            match next with
            | some v => (f.set g v).map (·, true)
            | none => usageFault ("flag needs an argument: " ++ quoteLetter r ++ " in -" ++ [r])
          else (f.set g more).map (·, false)
        match more with
        | .char '=' :: v :: rest => (f.set g (v :: rest)).map (·, false)
        | _ =>
          if f.takesValue then alone
          else do
            let g ← f.set g f.impliedText
            readLetters flags next more g

/-- The part before the first `=` and, if there is one, the part behind it. -/
def splitEquals (t : Text) : Text × Option Text :=
  match t.span (· != .char '=') with
  | (name, _ :: value) => (name, some value)
  | (name, []) => (name, none)

/-- Reads a flag that stands behind two dashes. -/
def readNamed (flags : List Flag) (next : Option Text) (s : Text) (g : Given) :
    Result (Given × Bool) :=
  let body := s.drop 2
  match body.head? with
  | none | some (.char '-') | some (.char '=') => usageFault ("bad flag syntax: " ++ s)
  | _ =>
    let (name, value) := splitEquals body
    match named? flags name with
    | none => usageFault ("unknown flag: --" ++ name)
    | some f =>
      match value with
      | some v => (f.set g v).map (·, false)
      | none =>
        if !f.takesValue then (f.set g f.impliedText).map (·, false)
        else match next with
          | some v => (f.set g v).map (·, true)
          | none => usageFault ("flag needs an argument: --" ++ name)

/-- Reads one argument, perhaps together with the next. -/
def readOne (flags : List Flag) (s : Text) (next : Option Text) (g : Given) :
    Result (Given × Bool) :=
  if startsDashes s then readNamed flags next s g
  else if startsDash s && s.length != 1 then readLetters flags next (s.drop 1) g
  else .ok ({ g with args := g.args ++ [s] }, false)

/-- Reads arguments; the first fault ends the reading. -/
def readAll (flags : List Flag) : List Text → Given → Result Given
  | [], g => .ok g
  | [s], g => do
    if s == dashes then .ok g
    else return (← readOne flags s none g).1
  | s :: v :: rest, g => do
    if s == dashes then .ok { g with args := g.args ++ (v :: rest) }
    else
      let (g, used) ← readOne flags s (some v) g
      if used then readAll flags rest g else readAll flags (v :: rest) g

end Flag

end SchemaLoom

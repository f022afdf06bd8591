import SchemaLoom.Json.Write

/-!
# Log lines

Events of a run with a level and named values, and the two ways to write them:
a line for people, and the members of a JSON record.
-/

namespace SchemaLoom.Log

/-- How much an event matters. -/
inductive Level where
  | debug
  | info
  | warn
  | error
  deriving DecidableEq, Repr, Inhabited

namespace Level

def rank : Level → Nat
  | debug => 0
  | info => 1
  | warn => 2
  | error => 3

def name : Level → String
  | debug => "debug"
  | info => "info"
  | warn => "warn"
  | error => "error"

/-- The least level that is written at a verbosity. -/
def ofVerbosity (v : Int) : Level := if v ≤ 0 then warn else if v = 1 then info else debug

end Level

/-- A named value of an event. -/
inductive Value where
  | text (t : Text)
  | number (n : Nat)
  deriving DecidableEq, Repr

structure Event where
  level : Level
  message : Text
  fields : List (Text × Value) := []
  deriving DecidableEq, Repr

/-- An event is written at a level when it matters as much. -/
def Event.shownAt (e : Event) (least : Level) : Bool := decide (least.rank ≤ e.level.rank)

/-- One rune inside a quoted value. -/
def quoteRune : Rune → List Char
  | .stray _ => "\\ufffd".toList
  | .char c =>
    if c == '<' || c == '>' || c == '&' || c == '\u2028' || c == '\u2029' then [c]
    else Json.writeChar c

def quote (t : Text) : Text := Text.ofChars ('"' :: t.flatMap quoteRune ++ ['"'])

def Value.write : Value → Text
  | text t => quote t
  | number n => Text.ofNat n

/-- The named values between braces, with a blank behind colons and commas. -/
def writeFields (sep colon : Text) (fs : List (Text × Value)) : Text :=
  "\x7b" ++ Text.join sep (fs.map fun (k, v) => quote k ++ colon ++ v.write) ++ "\x7d"

/-- The line of an event: level, message and values between tabs. -/
def Event.line (e : Event) : Text :=
  Text.ofString (e.level.name.map Char.toUpper) ++ "\t" ++ e.message ++
    (if e.fields.isEmpty then [] else "\t" ++ writeFields ", " ": " e.fields) ++ "\n"

/-- The members of an event's record, in order. -/
def Event.members (e : Event) : List (Text × Value) :=
  ("level", .text (Text.ofString e.level.name)) :: ("msg", .text e.message) :: e.fields

/-- The record of an event on one line. -/
def Event.record (e : Event) : Text := writeFields "," ":" e.members ++ "\n"

end SchemaLoom.Log

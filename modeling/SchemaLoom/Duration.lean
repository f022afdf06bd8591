import SchemaLoom.Number.Power
import SchemaLoom.Text.Quoted

/-!
# Durations

Spans of time in nanoseconds and how they are spelled: numbers, perhaps with a
fraction, each followed by its unit.
-/

namespace SchemaLoom.Duration

/-- Nanoseconds of every unit; the micro sign has two code points. -/
def units : List (String × Nat) :=
  [("ns", 1), ("us", 1000), ("\u00B5s", 1000), ("\u03BCs", 1000), ("ms", 1000000),
   ("s", 1000000000), ("m", 60000000000), ("h", 3600000000000)]

/-- Spans are shorter than this many nanoseconds. -/
def limit : Nat := twoTo 63

/-- One rune of a quoted span: only printable ASCII stands for itself. -/
def quoteRune (r : Rune) : List Char :=
  match r with
  | .char c =>
    if c == '"' || c == '\\' then ['\\', c]
    else if decide (0x20 ≤ c.toNat) && decide (c.toNat < 0x80) then [c]
    else r.bytes.flatMap fun b => '\\' :: 'x' :: hexDigits 2 b.toNat
  | .stray b => '\\' :: 'x' :: hexDigits 2 b.toNat

def quote (t : Text) : Text := Text.ofChars ('"' :: t.flatMap quoteRune ++ ['"'])

/-- Why a text spells no span. -/
inductive Fault where
  | malformed
  | noUnit
  | unknownUnit (unit : List Char)
  deriving DecidableEq, Repr

def Fault.message (t : Text) : Fault → Text
  | malformed => "time: invalid duration " ++ quote t
  | noUnit => "time: missing unit in duration " ++ quote t
  | unknownUnit u =>
    "time: unknown unit " ++ quote (Text.ofChars u) ++ " in duration " ++ quote t

def digitsValue (ds : List Char) : Nat := ds.foldl (fun n c => n * 10 + (c.toNat - 48)) 0

def endsUnit (c : Char) : Bool := c == '.' || c.isDigit

/-- Reads one number and its unit. -/
def part (cs : List Char) : Except Fault (Nat × List Char) :=
  let whole := cs.takeWhile Char.isDigit
  let rest := cs.dropWhile Char.isDigit
  let (frac, rest) := match rest with
    | '.' :: r => (r.takeWhile Char.isDigit, r.dropWhile Char.isDigit)
    | r => ([], r)
  let unit := rest.takeWhile (! endsUnit ·)
  if (whole.isEmpty && frac.isEmpty) || decide (limit < digitsValue whole) then .error .malformed
  else if unit.isEmpty then .error .noUnit
  else match units.lookup (String.ofList unit) with
    | none => .error (.unknownUnit unit)
    | some u =>
      let n := digitsValue whole * u + digitsValue frac * u / tenTo frac.length
      if limit < n then .error .malformed else .ok (n, rest.dropWhile (! endsUnit ·))

/-- Reads numbers with units and adds them up, at most `fuel` of them. -/
def parts : Nat → Nat → List Char → Except Fault Nat
  | _, total, [] => .ok total
  | 0, _, _ => .error .malformed
  | fuel + 1, total, cs => do
    let (n, rest) ← part cs
    if limit < total + n then .error .malformed else parts fuel (total + n) rest

/-- The span a text spells; a lone zero needs no unit. -/
def parse (t : Text) : Except Fault Int :=
  let (neg, cs) := match t.toChars with
    | '-' :: cs => (true, cs)
    | '+' :: cs => (false, cs)
    | cs => (false, cs)
  if cs == ['0'] then .ok 0
  else if cs.isEmpty then .error .malformed
  else do
    let n ← parts cs.length 0 cs
    if neg then .ok (-(n : Int)) else if n < limit then .ok n else .error .malformed

/-- `n` units of `10 ^ places` parts each, without zeros at the end. -/
def decimal (n places : Nat) : String :=
  let frac := (toString (tenTo places + n % tenTo places)).toList.tail
  let frac := (frac.reverse.dropWhile (· == '0')).reverse
  toString (n / tenTo places) ++ (if frac.isEmpty then "" else String.ofList ('.' :: frac))

/-- The text of a span: below a second in one small unit, else in hours, minutes and seconds. -/
def text (span : Int) : String :=
  let n := span.natAbs
  let body :=
    if n = 0 then "0s"
    else if n < 1000 then toString n ++ "ns"
    else if n < 1000000 then decimal n 3 ++ "\u00B5s"
    else if n < 1000000000 then decimal n 6 ++ "ms"
    else
      let minutes := n / 60000000000
      let seconds := decimal (n % 60000000000) 9 ++ "s"
      if minutes = 0 then seconds
      else if minutes < 60 then toString minutes ++ "m" ++ seconds
      else toString (minutes / 60) ++ "h" ++ toString (minutes % 60) ++ "m" ++ seconds
  if span < 0 then "-" ++ body else body

end SchemaLoom.Duration

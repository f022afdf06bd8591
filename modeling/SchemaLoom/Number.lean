import SchemaLoom.Error
import SchemaLoom.Number.Double

/-!
# Exact numbers

A number is a rational together with the text it was written as: bounds are
compared by value and emitted by text. The written forms are decimal numbers
with an optional exponent, integers and fractions with a base marker, and
fractions `a/b`; an underscore may stand between two digits or after a marker.
-/

namespace SchemaLoom

/-- An exact value and its source text. -/
structure Number where
  value : Rat
  text : Text
  deriving DecidableEq, Repr

instance : Inhabited Number := ⟨⟨0, Text.ofString "0"⟩⟩

namespace Number

/-! ### Reading digits -/

/-- The value of a digit character in bases up to 36. -/
def digitValue? (c : Char) : Option Nat :=
  if c.isDigit then some (c.toNat - '0'.toNat)
  else if c.isLower then some (c.toNat - 'a'.toNat + 10)
  else if c.isUpper then some (c.toNat - 'A'.toNat + 10)
  else none

/-- What stood before the current character. -/
inductive Before where
  | digit
  | separator
  | other
  deriving DecidableEq, Repr

/-- A run of digits as far as it was read. -/
structure Digits where
  value : Nat := 0
  count : Nat := 0
  /-- Digits behind the point, once there is one. -/
  point : Option Nat := none
  before : Before := .other
  misplaced : Bool := false
  deriving DecidableEq, Repr

namespace Digits

def push (ds : Digits) (base d : Nat) : Digits :=
  { ds with value := ds.value * base + d, count := ds.count + 1, before := .digit,
            point := ds.point.map (· + 1) }

def separator (ds : Digits) : Digits :=
  { ds with before := .separator, misplaced := ds.misplaced || ds.before != .digit }

def mark (ds : Digits) : Digits :=
  { ds with before := .other, point := some 0,
            misplaced := ds.misplaced || ds.before == .separator }

/-- No separator stands at an end or next to anything but digits. -/
def separated (ds : Digits) : Bool := !ds.misplaced && ds.before != .separator

/-- Reads digits of a base, separators, and one point where `point` allows it. -/
def read (base : Nat) (point : Bool) : Digits → List Char → Digits × List Char
  | ds, [] => (ds, [])
  | ds, c :: rest =>
    if c = '.' && point && ds.point.isNone then read base point ds.mark rest
    else if c = '_' then read base point ds.separator rest
    else match digitValue? c with
      | some d => if d < base then read base point (ds.push base d) rest else (ds, c :: rest)
      | none => (ds, c :: rest)

end Digits

/-- The base a marker stands for. -/
def baseOf? (c : Char) : Option Nat :=
  match c.toLower with
  | 'b' => some 2
  | 'o' => some 8
  | 'x' => some 16
  | _ => none

/-- An unsigned run of digits with its base. -/
def unsigned? (point : Bool) (cs : List Char) : Option (Digits × Nat × List Char) :=
  let finish (base : Nat) (r : Digits × List Char) : Option (Digits × Nat × List Char) :=
    if r.1.count = 0 || !r.1.separated then none else some (r.1, base, r.2)
  match cs with
  | '0' :: c :: rest =>
    match baseOf? c with
    | some base => finish base (Digits.read base point { before := .digit } rest)
    | none =>
      if point then finish 10 (Digits.read 10 true { count := 1, before := .digit } (c :: rest))
      else
        -- where no point may follow, a leading zero marks octal
        let r := Digits.read 8 false { before := .digit } (c :: rest)
        if r.1.count = 0 then (if r.1.separated then some (r.1, 10, r.2) else none)
        else finish 8 r
  | _ => finish 10 (Digits.read 10 point {} cs)

def sign : List Char → Bool × List Char
  | '-' :: rest => (true, rest)
  | '+' :: rest => (false, rest)
  | cs => (false, cs)

def exponentBase? : List Char → Option (Nat × List Char)
  | c :: rest =>
    match c.toLower with
    | 'e' => some (10, rest)
    | 'p' => some (2, rest)
    | _ => none
  | [] => none

/-- `base ^ e` for a power of either sign. -/
def power (base : Nat) (e : Int) : Rat :=
  if e ≥ 0 then ((Nat.pow base e.toNat : Nat) : Rat) else mkRat 1 (Nat.pow base (-e).toNat)

/-- A number with an optional point and exponent. -/
def decimal? (cs : List Char) : Option Rat := do
  let (neg, cs) := sign cs
  let (ds, base, cs) ← unsigned? true cs
  let (exp, ebase) ← match exponentBase? cs with
    | none => if cs.isEmpty then some ((0 : Int), 10) else none
    | some (ebase, cs) =>
      let (eneg, cs) := sign cs
      let (es, rest) := Digits.read 10 false {} cs
      let e : Int := if eneg then -(es.value : Int) else es.value
      if es.count = 0 || !es.separated || !rest.isEmpty then none
      else if !isSigned 64 e then none
      else some (e, ebase)
  if ds.value = 0 then some 0
  else
    let places : Int := -((ds.point.getD 0 : Nat) : Int)
    let ten : Int := (if base = 10 then places else 0) + (if ebase = 10 then exp else 0)
    let two : Int := (if base = 10 then 0 else places * (Nat.log2 base : Int)) +
      (if ebase = 10 then 0 else exp)
    -- larger powers are refused and never computed
    if ten.natAbs > 1000000 || (ten + two).natAbs > 10000000 then none
    else
      let v := (ds.value : Rat) * power 10 ten * power 2 two
      some (if neg then -v else v)

/-- A fraction `a/b` of integers, `b` unsigned and not zero. -/
def fraction? (top bottom : List Char) : Option Rat := do
  let (neg, top) := sign top
  let (a, _, rest) ← unsigned? false top
  if !rest.isEmpty then none
  let (b, _, rest) ← unsigned? false bottom
  if !rest.isEmpty || b.value = 0 then none
  else some (mkRat (if neg then -(a.value : Int) else a.value) b.value)

/-- The value of a written number. -/
def valueOf? (cs : List Char) : Option Rat :=
  match cs.span (· != '/') with
  | (top, '/' :: bottom) => fraction? top bottom
  | _ => decimal? cs

def parse? (t : Text) : Option Number := do
  let cs ← t.chars?
  let v ← valueOf? cs
  some ⟨v, t⟩

def parse (t : Text) : Result Number :=
  match parse? t with
  | some n => .ok n
  | none => Result.fail (.invalidNumber t)

/-! ### Other sources -/

def ofInt (n : Int) : Number := ⟨n, Text.ofInt n⟩

/-- A double, as its text says. -/
def ofDouble (x : Double) : Number :=
  let t := Text.ofString x.text
  (parse? t).getD ⟨0, t⟩

/-! ### Order -/

def compare (a b : Number) : Ordering :=
  if a.value < b.value then .lt else if b.value < a.value then .gt else .eq

def lt (a b : Number) : Bool := a.value < b.value

def isZero (n : Number) : Bool := n.value == 0

def isInt (n : Number) : Bool := n.value.den == 1

/-- The canonical decimal text of an integer. -/
def intText? (n : Number) : Option Text :=
  if n.isInt then some (Text.ofInt n.value.num) else none

/-- The smaller of two optional numbers, the first on a tie. -/
def min? : Option Number → Option Number → Option Number
  | none, b => b
  | some a, none => some a
  | some a, some b => if b.lt a then some b else some a

/-- The larger of two optional numbers, the first on a tie. -/
def max? : Option Number → Option Number → Option Number
  | none, b => b
  | some a, none => some a
  | some a, some b => if a.lt b then some b else some a

end Number

end SchemaLoom

import SchemaLoom.Number.Power
import SchemaLoom.Text

/-!
# Binary floating point

A finite double as sign, mantissa and power of two, read from an exact decimal
by rounding to nearest (a tie goes to the even mantissa) and written with the
fewest digits that read back. All arithmetic is on natural numbers.

Infinities and not-a-number are not represented: reading past the range gives
nothing.
-/

namespace SchemaLoom

/-- The number `± mant * 2 ^ exp` with `mant < 2 ^ 53` and `exp ≥ -1074`. -/
structure Double where
  neg : Bool
  mant : Nat
  exp : Int
  deriving DecidableEq, Repr, Inhabited

namespace Double

def zero : Double := ⟨false, 0, -1074⟩

/-- `a / b` rounded to a natural number, a tie going to the even one. -/
def roundDiv (a b : Nat) : Nat :=
  let q := a / b
  let r := a % b
  if 2 * r < b then q
  else if 2 * r > b then q + 1
  else if q % 2 = 0 then q else q + 1

/-- `num / den` divided by `2 ^ e`, as a pair of natural numbers. -/
def scaled (num den : Nat) (e : Int) : Nat × Nat :=
  if e ≥ 0 then (num, den * twoTo e.toNat) else (num * twoTo (-e).toNat, den)

/-- The double nearest to `num / den`; nothing past the largest finite one. -/
def ofFraction? (neg : Bool) (num den : Nat) : Option Double :=
  if num = 0 || den = 0 then some ⟨neg, 0, -1074⟩
  else
    let guess : Int := (Nat.log2 num : Int) - (Nat.log2 den : Int) - 52
    let (a, b) := scaled num den guess
    let e := if a / b < twoTo 52 then guess - 1
      else if a / b ≥ twoTo 53 then guess + 1
      else guess
    let e := if e < -1074 then -1074 else e
    let (a, b) := scaled num den e
    let m := roundDiv a b
    let (m, e) := if m = twoTo 53 then (twoTo 52, e + 1) else (m, e)
    if e > 971 then none else some ⟨neg, m, e⟩

/-- The double nearest to `± mant * 10 ^ exp`. Exponents far outside the range are decided
without computing the power. -/
def ofDecimal? (neg : Bool) (mant : Nat) (exp : Int) : Option Double :=
  if mant = 0 then some ⟨neg, 0, -1074⟩
  else
    let top : Int := (Nat.log2 mant : Int) * 3 / 10 + exp
    if top > 400 then none
    else if top < -500 then some ⟨neg, 0, -1074⟩
    else if exp ≥ 0 then ofFraction? neg (mant * tenTo exp.toNat) 1
    else ofFraction? neg mant (tenTo (-exp).toNat)

/-- The absolute value as a fraction. -/
def fraction (x : Double) : Nat × Nat :=
  if x.exp ≥ 0 then (x.mant * twoTo x.exp.toNat, 1) else (x.mant, twoTo (-x.exp).toNat)

def isZero (x : Double) : Bool := x.mant == 0

/-! ### Shortest digits

`x` is the middle of the interval of reals that round to it. In units of
`2 ^ (exp - 2)` the interval goes from `4 * mant - below` to `4 * mant + 2`,
where `below` is 1 at a power of two and 2 elsewhere; the ends belong to it when
the mantissa is even.
-/

/-- Distance to the lower end of the rounding interval, in quarters of the last place. -/
def below (x : Double) : Nat :=
  if x.mant = twoTo 52 && decide (x.exp > -1074) then 1 else 2

/-- Whether `d * 10 ^ p` rounds to `x`. -/
def readsBack (x : Double) (d : Nat) (p : Int) : Bool :=
  let q := x.exp - 2
  let lhs := d * (if p ≥ 0 then tenTo p.toNat else 1) * (if q ≥ 0 then 1 else twoTo (-q).toNat)
  let unit := (if p ≥ 0 then 1 else tenTo (-p).toNat) * (if q ≥ 0 then twoTo q.toNat else 1)
  let lo := (4 * x.mant - x.below) * unit
  let hi := (4 * x.mant + 2) * unit
  if x.mant % 2 = 0 then decide (lo ≤ lhs) && decide (lhs ≤ hi)
  else decide (lo < lhs) && decide (lhs < hi)

/-- The largest `d` with `d * 10 ^ p ≤ |x|`, and whether the next one is nearer. -/
def floorAt (x : Double) (p : Int) : Nat × Bool :=
  let (a, b) := x.fraction
  let (a, b) := if p ≥ 0 then (a, b * tenTo p.toNat) else (a * tenTo (-p).toNat, b)
  (a / b, decide (2 * (a % b) > b))

/-- The power of ten of the leading digit of `|x|`. -/
def leading (x : Double) : Int :=
  let (a, b) := x.fraction
  let guess : Int := ((Nat.log2 a : Int) - (Nat.log2 b : Int)) * 30103 / 100000 - 1
  let fits (p : Int) : Bool := (x.floorAt p).1 ≥ 1
  if fits (guess + 2) then guess + 2
  else if fits (guess + 1) then guess + 1
  else if fits guess then guess
  else guess - 1

/-- A number of that many digits, if one reads back; the nearer of two. -/
def digitsAt? (x : Double) (count : Nat) : Option (Nat × Int) :=
  let p := x.leading - (count : Int) + 1
  let (d, up) := x.floorAt p
  let down := x.readsBack d p
  let above := x.readsBack (d + 1) p
  if down && above then some (if up then d + 1 else d, p)
  else if down then some (d, p)
  else if above then some (d + 1, p)
  else none

/-- The fewest digits that read back, as `d * 10 ^ p`. -/
def shortest (x : Double) : Nat × Int :=
  if x.isZero then (0, 0)
  else ((List.range 17).findSome? fun k => x.digitsAt? (k + 1)).getD (x.mant, x.exp)

/-- Digits without trailing zeros, and the power of ten of the last one. -/
def trimZeros : Nat → Nat → Int → Nat × Int
  | 0, d, p => (d, p)
  | fuel + 1, d, p => if d ≠ 0 && d % 10 == 0 then trimZeros fuel (d / 10) (p + 1) else (d, p)

/-- The shortest digits without trailing zeros, and the power of ten of the last one. -/
def digits (x : Double) : List Char × Int :=
  let (d, p) := x.shortest
  let (d, p) := trimZeros 20 d p
  ((toString d).toList, p)

/-- Digits with a point and zeros where they are needed, `p` being the power of the last. -/
def placePoint (ds : List Char) (p : Int) : List Char :=
  let lead : Int := p + ds.length - 1
  if p ≥ 0 then ds ++ List.replicate p.toNat '0'
  else if lead ≥ 0 then
    let (whole, frac) := ds.splitAt (lead.toNat + 1)
    whole ++ '.' :: frac
  else '0' :: '.' :: (List.replicate (-lead - 1).toNat '0' ++ ds)

def signText (x : Double) : String := if x.neg then "-" else ""

/-- The text of a double without an exponent. -/
def positional (x : Double) : String :=
  if x.isZero then x.signText ++ "0"
  else
    let (ds, p) := x.digits
    x.signText ++ String.ofList (placePoint ds p)

/-- The text of a double: positional from `10 ^ -6` up to `10 ^ 21`, otherwise with a signed
exponent of at least two digits. -/
def text (x : Double) : String :=
  let (ds, p) := x.digits
  let lead : Int := p + ds.length - 1
  if !x.isZero && (decide (lead ≥ 21) || decide (lead < -6)) then
    let mantissa := match ds with
      | [] => ""
      | [c] => String.ofList [c]
      | c :: rest => String.ofList (c :: '.' :: rest)
    let e := lead.natAbs
    x.signText ++ mantissa ++ "e" ++ (if lead < 0 then "-" else "+") ++
      (if e < 10 then "0" else "") ++ toString e
  else x.positional

/-- The integer part, towards zero. -/
def truncate (x : Double) : Int :=
  let (a, b) := x.fraction
  let n : Int := (a / b : Nat)
  if x.neg then -n else n

def isInteger (x : Double) : Bool :=
  let (a, b) := x.fraction
  a % b == 0

end Double

end SchemaLoom

import SchemaLoom.Number

/-!
# Spelled values

Truth values and integers as settings and flags spell them.
-/

namespace SchemaLoom.Spelled

def trueTexts : List Text := ["1", "t", "T", "TRUE", "true", "True"]

def falseTexts : List Text := ["0", "f", "F", "FALSE", "false", "False"]

/-- The truth value a text spells. -/
def bool? (t : Text) : Option Bool :=
  if trueTexts.contains t then some true
  else if falseTexts.contains t then some false
  else none

/-- Why a text spells no integer. -/
inductive IntFault where
  | malformed
  | outOfRange
  deriving DecidableEq, Repr

/-- The integer of 64 bits a text spells, with an optional sign and base marker. Digits past
every word count as out of range, whatever follows them. -/
def int (t : Text) : Except IntFault Int :=
  let (neg, cs) := Number.sign t.toChars
  match Number.unsigned? false cs with
  | none => .error .malformed
  | some (ds, _, rest) =>
    let n : Int := if neg then -(ds.value : Int) else ds.value
    if twoTo 64 ≤ ds.value then .error .outOfRange
    else if !rest.isEmpty then .error .malformed
    else if isSigned 64 n then .ok n
    else .error .outOfRange

end SchemaLoom.Spelled

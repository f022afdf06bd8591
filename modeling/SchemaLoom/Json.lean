import SchemaLoom.Number.Double

/-!
# JSON values

Values as they are written: numbers keep their text, objects keep every member
in order, and each member keeps the text its value was read from.
-/

namespace SchemaLoom

mutual
inductive Json where
  | null
  | bool (b : Bool)
  | number (text : String)
  | string (s : String)
  | array (items : List Json)
  | object (members : List Member)

structure Member where
  key : String
  /-- The text of the value, without blanks around it. -/
  source : String := ""
  value : Json
end

instance : Inhabited Json := ⟨.null⟩

namespace Json

mutual
def depth : Json → Nat
  | array items => depthAll items + 1
  | object ms => depthMembers ms + 1
  | _ => 1

def depthAll : List Json → Nat
  | [] => 0
  | j :: js => max j.depth (depthAll js)

def depthMembers : List Member → Nat
  | [] => 0
  | m :: ms => max (depthMember m) (depthMembers ms)

def depthMember : Member → Nat
  | ⟨_, _, v⟩ => v.depth
end

/-! ### Numbers -/

/-- A number as sign, digits and exponent of ten. -/
def decimal (text : String) : Bool × Nat × Int :=
  let cs := text.toList
  let (neg, cs) := match cs with
    | '-' :: r => (true, r)
    | cs => (false, cs)
  let whole := cs.takeWhile Char.isDigit
  let cs := cs.dropWhile Char.isDigit
  let (frac, cs) := match cs with
    | '.' :: r => (r.takeWhile Char.isDigit, r.dropWhile Char.isDigit)
    | cs => ([], cs)
  let digits (ds : List Char) : Nat := ds.foldl (fun n c => n * 10 + (c.toNat - 48)) 0
  let exp : Int := match cs with
    | _ :: '-' :: r => -(digits r : Int)
    | _ :: '+' :: r => digits r
    | _ :: r => digits r
    | [] => 0
  (neg, digits (whole ++ frac), exp - frac.length)

/-- The nearest double, unless it is out of range. -/
def double? (text : String) : Option Double :=
  let (neg, mant, exp) := decimal text
  Double.ofDecimal? neg mant exp

end Json

end SchemaLoom

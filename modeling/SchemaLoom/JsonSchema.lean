import SchemaLoom.Json

/-!
# JSON Schemas

A schema is a set of keywords with subschemas at locations. The subschemas are
kept in a fixed order of their locations, maps by key, which is also the order
they are visited in.

`null` stands where a subschema was written as null. Keywords that nothing here
depends on are not kept; `others` only tells that there are some.
-/

namespace SchemaLoom

/-- Where a subschema stands. -/
inductive Location where
  | property (key : String)
  | patternProperty (key : String)
  | additionalProperties
  | propertyNames
  | unevaluatedProperties
  | items
  | prefixItem (i : Nat)
  | additionalItems
  | contains
  | unevaluatedItems
  | allOf (i : Nat)
  | anyOf (i : Nat)
  | oneOf (i : Nat)
  | not
  | cond
  | thenBranch
  | elseBranch
  | dependentSchema (key : String)
  | contentSchema
  | def_ (key : String)
  | definition (key : String)
  deriving DecidableEq, Repr, Inhabited

namespace Location

/-- The place of a keyword among the keywords. -/
def rank : Location → Nat
  | property _ => 0
  | patternProperty _ => 1
  | additionalProperties => 2
  | propertyNames => 3
  | unevaluatedProperties => 4
  | items => 5
  | prefixItem _ => 6
  | additionalItems => 7
  | contains => 8
  | unevaluatedItems => 9
  | allOf _ => 10
  | anyOf _ => 11
  | oneOf _ => 12
  | not => 13
  | cond => 14
  | thenBranch => 15
  | elseBranch => 16
  | dependentSchema _ => 17
  | contentSchema => 18
  | def_ _ => 19
  | definition _ => 20

def index : Location → Nat
  | prefixItem i | allOf i | anyOf i | oneOf i => i
  | _ => 0

def key : Location → String
  | property k | patternProperty k | dependentSchema k | def_ k | definition k => k
  | _ => ""

/-- The order of locations: by keyword, then by index or key. -/
def before (a b : Location) : Bool :=
  decide (a.rank < b.rank) ||
    (a.rank == b.rank && (decide (a.index < b.index) ||
      (a.index == b.index && decide (a.key < b.key))))

def sameKeyword (a b : Location) : Bool := a.rank == b.rank

end Location

structure Keywords where
  ref : String := ""
  title : String := ""
  description : String := ""
  /-- The default value as it was written. -/
  default : Option String := none
  type : String := ""
  types : Option (List String) := none
  enum : Option (List Json) := none
  const : Option Json := none
  minimum : Option Double := none
  exclusiveMinimum : Option Double := none
  maximum : Option Double := none
  exclusiveMaximum : Option Double := none
  minLength : Option Int := none
  maxLength : Option Int := none
  minItems : Option Int := none
  maxItems : Option Int := none
  pattern : String := ""
  format : String := ""
  required : Option (List String) := none
  /-- Something else is given, be it an empty list or map. -/
  others : Bool := false
  /-- The property names in source order, where that is known. -/
  propertyOrder : Option (List String) := none
  /-- The names of definitions in source order, where that is known. -/
  defOrder : Option (List String) := none
  deriving Inhabited

def Keywords.isBlank (k : Keywords) : Bool :=
  k.ref.isEmpty && k.title.isEmpty && k.description.isEmpty && k.default.isNone &&
    k.type.isEmpty && k.types.isNone && k.enum.isNone && k.const.isNone &&
    k.minimum.isNone && k.exclusiveMinimum.isNone && k.maximum.isNone &&
    k.exclusiveMaximum.isNone && k.minLength.isNone && k.maxLength.isNone &&
    k.minItems.isNone && k.maxItems.isNone && k.pattern.isEmpty && k.format.isEmpty &&
    k.required.isNone && !k.others

/-- A schema, or null in its place. -/
inductive Schema where
  | null
  | node (keywords : Keywords) (children : List (Location × Schema))
  deriving Inhabited

namespace Schema

/-- The schema that accepts everything. -/
def blank : Schema := node {} []

/-- The schema that accepts nothing. -/
def never : Schema := node {} [(.not, blank)]

def isNull : Schema → Bool
  | null => true
  | node .. => false

def keywords : Schema → Keywords
  | null => {}
  | node k _ => k

def children : Schema → List (Location × Schema)
  | null => []
  | node _ cs => cs

def child? (s : Schema) (l : Location) : Option Schema := s.children.lookup l

/-- The subschemas under the keyword of a location, in order. -/
def under (s : Schema) (l : Location) : List (Location × Schema) :=
  s.children.filter fun c => c.1.sameKeyword l

mutual
def depth : Schema → Nat
  | null => 1
  | node _ cs => depthAll cs + 1

def depthAll : List (Location × Schema) → Nat
  | [] => 0
  | c :: cs => max (depthChild c) (depthAll cs)

def depthChild : Location × Schema → Nat
  | (_, s) => s.depth
end

mutual
/-- The number of schemas of a tree. -/
def size : Schema → Nat
  | null => 1
  | node _ cs => sizeAll cs + 1

def sizeAll : List (Location × Schema) → Nat
  | [] => 0
  | c :: cs => sizeChild c + sizeAll cs

def sizeChild : Location × Schema → Nat
  | (_, s) => s.size
end

/-! ### Changes -/

/-- Puts a subschema at its place, instead of one that is there. -/
def insertAt (l : Location) (s : Schema) : List (Location × Schema) → List (Location × Schema)
  | [] => [(l, s)]
  | c :: cs =>
    if c.1 = l then (l, s) :: cs
    else if l.before c.1 then (l, s) :: c :: cs
    else c :: insertAt l s cs

def setChild (s : Schema) (l : Location) (c : Schema) : Schema :=
  node s.keywords (insertAt l c s.children)

/-- Drops the subschemas a test accepts. -/
def dropChildren (s : Schema) (p : Location → Bool) : Schema :=
  node s.keywords (s.children.filter fun c => !p c.1)

def mapKeywords (s : Schema) (f : Keywords → Keywords) : Schema := node (f s.keywords) s.children

/-! ### Properties and definitions -/

/-- The property names in ascending order. -/
def propertyKeys (s : Schema) : List String :=
  s.children.filterMap fun c =>
    match c.1 with
    | .property k => some k
    | _ => none

def property? (s : Schema) (key : String) : Option Schema := s.child? (.property key)

/-- The definition with a name, under the newer keyword first. -/
def def? (s : Schema) (name : String) : Option Schema :=
  (s.child? (.def_ name)).or (s.child? (.definition name))

/-- Merges two ascending lists of names without repeating one. -/
def mergeKeys (as bs : List String) : List String :=
  ((as ++ bs.filter fun b => !as.contains b).mergeSort fun a b => decide (a ≤ b))

/-- The names of definitions in ascending order. -/
def defKeys (s : Schema) : List String :=
  mergeKeys
    (s.children.filterMap fun c =>
      match c.1 with
      | .def_ k => some k
      | _ => none)
    (s.children.filterMap fun c =>
      match c.1 with
      | .definition k => some k
      | _ => none)

/-! ### Shapes -/

def hasTypes (s : Schema) : Bool := !(s.keywords.types.getD []).isEmpty

/-- A schema for objects: by its type, or without one by its properties. -/
def isObject (s : Schema) : Bool :=
  s.keywords.type == "object" ||
    (s.keywords.type.isEmpty && !s.hasTypes && !s.propertyKeys.isEmpty)

/-- A schema for arrays: by its type, or without one by its items. -/
def isArray (s : Schema) : Bool :=
  s.keywords.type == "array" ||
    (s.keywords.type.isEmpty && !s.hasTypes &&
      ((s.child? .items).isSome || !(s.under (.prefixItem 0)).isEmpty))

/-- The schema that accepts nothing, written in whatever way. -/
def isNever : Schema → Bool
  | node k [(.not, node k' [])] => k.isBlank && k'.isBlank
  | _ => false

end Schema

end SchemaLoom

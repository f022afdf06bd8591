import SchemaLoom.JsonSchema
import SchemaLoom.Yaml.Node

/-!
# Key order

Generated declarations follow the order of keys in the source. The order is
recorded from the source text, read as YAML, along the keywords it is written
under; names it does not cover follow in ascending order.
-/

namespace SchemaLoom

/-- The first of equal names. -/
def firstOccurrences : List String → List String
  | [] => []
  | k :: ks => k :: (firstOccurrences ks).filter (· != k)

/-- The names of a map: those with a known order first, the others as they are. -/
def orderedKeys (known keys : List String) : List String :=
  firstOccurrences (known.filter keys.contains) ++ keys.filter fun k => !known.contains k

namespace Schema

/-- The property names in source order. -/
def orderedProperties (s : Schema) : List String :=
  orderedKeys (s.keywords.propertyOrder.getD []) s.propertyKeys

/-- The names of definitions in source order. -/
def orderedDefs (s : Schema) : List String :=
  orderedKeys (s.keywords.defOrder.getD []) s.defKeys

/-- The keys of a mapping, in order. -/
def keysOf (n : Yaml.Node) : List String := n.entries.map fun e => e.1.text

/-- Records the order below a node in a subschema. -/
abbrev Record := Yaml.Node → Schema → Schema

/-- Records in the subschema at a location, if there is one. -/
def recordAt (record : Record) (n : Yaml.Node) (s : Schema) (l : Location) : Schema :=
  match s.child? l with
  | some .null => s
  | some c => s.setChild l (record n c)
  | none => s

def recordMap (record : Record) (n : Yaml.Node) (s : Schema) (at_ : String → Location) :
    Schema :=
  n.entries.foldl (fun s e => recordAt record e.2 s (at_ e.1.text)) s

def recordList (record : Record) (n : Yaml.Node) (s : Schema) (at_ : Nat → Location) : Schema :=
  match n with
  | .sequence _ _ items =>
    (items.zip (List.range items.length)).foldl (fun s (n, i) => recordAt record n s (at_ i)) s
  | _ => s

/-- Adds names to the known order of definitions. -/
def addDefOrder (s : Schema) (keys : List String) : Schema :=
  s.mapKeywords fun k => { k with defOrder := some (k.defOrder.getD [] ++ keys) }

/-- Records under one key of a mapping. -/
def recordKey (record : Record) (s : Schema) (key : String) (n : Yaml.Node) : Schema :=
  match key with
  | "properties" =>
    recordMap record n (s.mapKeywords ({ · with propertyOrder := some (keysOf n) })) .property
  | "$defs" => recordMap record n (s.addDefOrder (keysOf n)) .def_
  | "definitions" => recordMap record n (s.addDefOrder (keysOf n)) .definition
  | "patternProperties" => recordMap record n s .patternProperty
  | "dependentSchemas" => recordMap record n s .dependentSchema
  | "items" => recordAt record n s .items
  | "additionalProperties" => recordAt record n s .additionalProperties
  | "additionalItems" => recordAt record n s .additionalItems
  | "not" => recordAt record n s .not
  | "if" => recordAt record n s .cond
  | "then" => recordAt record n s .thenBranch
  | "else" => recordAt record n s .elseBranch
  | "prefixItems" => recordList record n s .prefixItem
  | "allOf" => recordList record n s .allOf
  | "anyOf" => recordList record n s .anyOf
  | "oneOf" => recordList record n s .oneOf
  | _ => s

/-- The node an alias stands for. -/
def dereference (anchors : Yaml.Anchors) (n : Yaml.Node) : Yaml.Node :=
  match n with
  | .aliasOf _ _ target _ => anchors[target]?.getD n
  | n => n

/-- Records the order of keys of a node and everything below. -/
def recordOrder (anchors : Yaml.Anchors) : Nat → Record
  | 0, _, s => s
  | fuel + 1, n, s =>
    (dereference anchors n).entries.foldl (fun s e =>
      recordKey (recordOrder anchors fuel) s e.1.text e.2) s

/-- A schema with the order of keys of the document it was read from. -/
def withOrder (s : Schema) (d : Option Yaml.Document) : Schema :=
  match d with
  | none => s
  | some d => if s.isNull then s else recordOrder d.anchors s.depth d.root s

mutual
def withoutOrder : Schema → Schema
  | null => null
  | node k cs => node { k with propertyOrder := none, defOrder := none } (withoutOrderAll cs)

def withoutOrderAll : List (Location × Schema) → List (Location × Schema)
  | [] => []
  | c :: cs => withoutOrderChild c :: withoutOrderAll cs

def withoutOrderChild : Location × Schema → Location × Schema
  | (l, s) => (l, s.withoutOrder)
end

end Schema

end SchemaLoom

import SchemaLoom.Json.Write
import SchemaLoom.JsonSchema

/-!
# Schemas from JSON

How a JSON value becomes a schema. A keyword is known by its name, or by the
name in other capitals. A keyword given twice is read into what the first one
left: maps and subschemas grow together, everything else is replaced.
-/

namespace SchemaLoom

namespace Keywords

/-! ### Names -/

/-- Every keyword with a fixed type. -/
def names : List String :=
  ["$id", "$schema", "$ref", "$comment", "$defs", "definitions", "$anchor", "$dynamicAnchor",
   "$dynamicRef", "$vocabulary", "title", "description", "default", "deprecated", "readOnly",
   "writeOnly", "examples", "type", "enum", "const", "multipleOf", "minimum", "maximum",
   "exclusiveMinimum", "exclusiveMaximum", "minLength", "maxLength", "pattern", "prefixItems",
   "items", "minItems", "maxItems", "additionalItems", "uniqueItems", "contains", "minContains",
   "maxContains", "unevaluatedItems", "minProperties", "maxProperties", "required",
   "dependentRequired", "properties", "patternProperties", "additionalProperties",
   "propertyNames", "unevaluatedProperties", "allOf", "anyOf", "oneOf", "not", "if", "then",
   "else", "dependentSchemas", "contentEncoding", "contentMediaType", "contentSchema", "format"]

/-- A letter without its case; two signs fold to letters as well. -/
def foldChar (c : Char) : Char :=
  match c with
  | '\u212A' => 'k'
  | '\u017F' => 's'
  | c => c.toLower

def fold (s : String) : List Char := s.toList.map foldChar

/-- The keyword a key means. -/
def nameOf? (key : String) : Option String :=
  if names.contains key then some key else names.find? fun n => fold n == fold key

end Keywords

namespace Json

/-! ### Values of keywords -/

/-- A text; null leaves the old one. -/
def text? (old : String) : Json → Option String
  | string s => some s
  | null => some old
  | _ => none

/-- A truth value; null counts as false. -/
def flag? : Json → Option Bool
  | bool b => some b
  | null => some false
  | _ => none

/-- A list of texts; null leaves an old item. -/
def texts? (old : List String) : Json → Option (List String)
  | array items =>
    (items.zip (old.map some ++ List.replicate items.length none)).mapM fun (j, o) =>
      j.text? (o.getD "")
  | _ => none

/-- A double, or null for none. -/
def bound? : Json → Option (Option Double)
  | number t => (double? t).map some
  | null => some none
  | _ => none

/-- An integer: written with a point it must be whole, written without one it has no
exponent. -/
def wholeOf? (t : String) : Option Int :=
  if t.toList.contains '.' then do
    let x ← double? t
    if x.isInteger then some x.truncate else none
  else if t.toList.all fun c => c.isDigit || c == '-' then
    let (neg, n, _) := decimal t
    some (if neg then -(n : Int) else n)
  else none

/-- An integer of 32 bits, or null for none. -/
def count? : Json → Option (Option Int)
  | number t => do
    let n ← wholeOf? t
    if isSigned 32 n then some (some n) else none
  | null => some none
  | _ => none

def isNull : Json → Bool
  | null => true
  | _ => false

end Json

namespace Schema

/-- Reads a value into a schema that is already there. -/
abbrev ReadInto := Schema → Json → Option Schema

/-- A subschema of its own, where null is kept. -/
def readChild (read : ReadInto) (old : Schema) (j : Json) : Option Schema :=
  if j.isNull then some .null else read (if old.isNull then blank else old) j

/-- One subschema under a keyword; null takes it away. -/
def readOne (read : ReadInto) (s : Schema) (l : Location) (j : Json) : Option Schema :=
  if j.isNull then some (s.dropChildren (· = l))
  else (readChild read ((s.child? l).getD .null) j).map (s.setChild l)

/-- A list of subschemas under a keyword. -/
def readList (read : ReadInto) (s : Schema) (at_ : Nat → Location) : Json → Option Schema
  | .null => some (s.dropChildren (·.sameKeyword (at_ 0)))
  | .array items => do
    -- of an earlier list, what is longer than this one goes
    let kept := s.dropChildren fun l =>
      l.sameKeyword (at_ 0) && decide (items.length ≤ l.index)
    let kept := if items.isEmpty then kept.mapKeywords ({ · with others := true }) else kept
    (items.zip (List.range items.length)).foldlM (fun s (j, i) =>
      (readChild read ((s.child? (at_ i)).getD .null) j).map (s.setChild (at_ i))) kept
  | _ => none

/-- A map of subschemas under a keyword. -/
def readMap (read : ReadInto) (s : Schema) (at_ : String → Location) : Json → Option Schema
  | .null => some (s.dropChildren (·.sameKeyword (at_ "")))
  | .object ms => do
    let s := if ms.isEmpty then s.mapKeywords ({ · with others := true }) else s
    ms.foldlM (fun s m => (readChild read .null m.value).map (s.setChild (at_ m.key))) s
  | _ => none

/-- A keyword without meaning here, of which only the type is checked. -/
def readOther (s : Schema) (given : Option Bool) : Option Schema :=
  given.map fun g => if g then s.mapKeywords ({ · with others := true }) else s

/-- A map whose values pass a check, or null. -/
def checkMap (p : Json → Bool) : Json → Option Bool
  | .null => some false
  | .object ms => if ms.all fun m => p m.value then some true else none
  | _ => none

def readText (s : Schema) (j : Json) (get : Keywords → String)
    (set : Keywords → String → Keywords) : Option Schema :=
  (j.text? (get s.keywords)).map fun t => s.mapKeywords (set · t)

def readBound (s : Schema) (j : Json) (set : Keywords → Option Double → Keywords) :
    Option Schema :=
  j.bound?.map fun x => s.mapKeywords (set · x)

def readCount (s : Schema) (j : Json) (set : Keywords → Option Int → Keywords) : Option Schema :=
  j.count?.map fun n => s.mapKeywords (set · n)

def readKeyword (read : ReadInto) (s : Schema) (name source : String) (j : Json) :
    Option Schema :=
  match name with
  | "$ref" => s.readText j (·.ref) fun k t => { k with ref := t }
  | "title" => s.readText j (·.title) fun k t => { k with title := t }
  | "description" => s.readText j (·.description) fun k t => { k with description := t }
  | "pattern" => s.readText j (·.pattern) fun k t => { k with pattern := t }
  | "format" => s.readText j (·.format) fun k t => { k with format := t }
  | "default" => some (s.mapKeywords ({ · with default := some source }))
  -- read behind all others, see `readMembers`
  | "type" | "const" => some s
  | "enum" =>
    match j with
    | .null => some (s.mapKeywords ({ · with enum := none }))
    | .array items => (Json.dataAll? items).map fun vs => s.mapKeywords ({ · with enum := some vs })
    | _ => none
  | "minimum" => s.readBound j fun k x => { k with minimum := x }
  | "maximum" => s.readBound j fun k x => { k with maximum := x }
  | "exclusiveMinimum" => s.readBound j fun k x => { k with exclusiveMinimum := x }
  | "exclusiveMaximum" => s.readBound j fun k x => { k with exclusiveMaximum := x }
  | "minLength" => s.readCount j fun k n => { k with minLength := n }
  | "maxLength" => s.readCount j fun k n => { k with maxLength := n }
  | "minItems" => s.readCount j fun k n => { k with minItems := n }
  | "maxItems" => s.readCount j fun k n => { k with maxItems := n }
  | "required" =>
    if j.isNull then some (s.mapKeywords ({ · with required := none }))
    else (j.texts? (s.keywords.required.getD [])).map fun ts =>
      s.mapKeywords ({ · with required := some ts })
  | "properties" => readMap read s .property j
  | "patternProperties" => readMap read s .patternProperty j
  | "dependentSchemas" => readMap read s .dependentSchema j
  | "$defs" => readMap read s .def_ j
  | "definitions" => readMap read s .definition j
  | "prefixItems" => readList read s .prefixItem j
  | "allOf" => readList read s .allOf j
  | "anyOf" => readList read s .anyOf j
  | "oneOf" => readList read s .oneOf j
  | "items" => readOne read s .items j
  | "additionalItems" => readOne read s .additionalItems j
  | "contains" => readOne read s .contains j
  | "unevaluatedItems" => readOne read s .unevaluatedItems j
  | "additionalProperties" => readOne read s .additionalProperties j
  | "propertyNames" => readOne read s .propertyNames j
  | "unevaluatedProperties" => readOne read s .unevaluatedProperties j
  | "not" => readOne read s .not j
  | "if" => readOne read s .cond j
  | "then" => readOne read s .thenBranch j
  | "else" => readOne read s .elseBranch j
  | "contentSchema" => readOne read s .contentSchema j
  | "deprecated" | "readOnly" | "writeOnly" | "uniqueItems" => s.readOther j.flag?
  | "examples" =>
    match j with
    | .null => some s
    | .array _ => s.readOther (some true)
    | _ => none
  | "multipleOf" => s.readOther (j.bound?.map Option.isSome)
  | "minContains" | "maxContains" | "minProperties" | "maxProperties" =>
    s.readOther (j.count?.map Option.isSome)
  | "$vocabulary" => s.readOther (checkMap (fun v => v.flag?.isSome) j)
  | "dependentRequired" =>
    s.readOther (checkMap (fun v => v.isNull || (v.texts? []).isSome) j)
  | _ => s.readOther ((j.text? "").map fun t => !t.isEmpty)

/-- One type or a list of them. -/
def readType (s : Schema) : Json → Option Schema
  | .string t => some (s.mapKeywords ({ · with type := t }))
  | .array items =>
    ((Json.array items).texts? (s.keywords.types.getD [])).map fun ts =>
      s.mapKeywords ({ · with types := some ts })
  | _ => none

/-- The last value given for a keyword. -/
def lastOf? (name : String) (ms : List Member) : Option Json :=
  (ms.filter fun m => Keywords.nameOf? m.key == some name).getLast?.map (·.value)

def readConst (s : Schema) (j : Json) : Option Schema :=
  j.data?.map fun v => s.mapKeywords ({ · with const := some v })

/-- Reads the keywords of an object. -/
def readMembers (read : ReadInto) (s : Schema) (ms : List Member) : Option Schema := do
  let s ← ms.foldlM (fun s m =>
    match Keywords.nameOf? m.key with
    | some name => readKeyword read s name m.source m.value
    | none => some s) s
  -- of these two only the last member counts, the others add up
  let s ← match lastOf? "type" ms with
    | some j => readType s j
    | none => some s
  let s ← match lastOf? "const" ms with
    | some j => readConst s j
    | none => some s
  some (if ms.all fun m => Keywords.names.contains m.key then s
    else s.mapKeywords ({ · with others := true }))

/-- Reads a value into a schema: booleans and null replace it. -/
def readInto : Nat → ReadInto
  | 0, _, _ => none
  | fuel + 1, s, j =>
    match j with
    | .bool true => some blank
    | .bool false => some never
    | .null => some never
    | .object ms => readMembers (readInto fuel) s ms
    | _ => none

/-- The schema of a JSON value. Numbers have to be in the range of doubles wherever they
stand. -/
def ofJson? (j : Json) : Option Schema := do
  let _ ← j.data?
  readInto (j.depth + 1) blank j

end Schema

end SchemaLoom

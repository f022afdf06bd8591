import SchemaLoom.Document.Decode
import SchemaLoom.Json.Write
import SchemaLoom.JsonSchema.KeyOrder
import SchemaLoom.JsonSchema.Reference
import SchemaLoom.Path
import SchemaLoom.Text.Casing

/-!
# Importing schemas

A JSON Schema becomes a schema document: one declaration for each definition,
in source order, then a model for the root if that describes an object.
Subschemas that need a name of their own are declared under a name made from
the place they stand at.
-/

namespace SchemaLoom

/-! ### Parts without state -/

/-- The name of a root model, from its file. -/
def rootName (path : Text) : Text := (Path.stem path).pascalCase

namespace Schema

def builtInType (s : Schema) : Text :=
  let k := s.keywords
  match k.type with
  | "string" => "string"
  | "boolean" => "boolean"
  | "null" => "null"
  | "integer" =>
    match k.format with
    | "int8" | "int16" | "int32" | "int64" | "uint8" | "uint16" | "uint32" | "uint64" =>
      Text.ofString k.format
    | _ => "safeint"
  | "number" => if k.format == "float" then "float32" else "float64"
  | _ => "unknown"

/-- A scalar can extend the built-in type of the schema. -/
def hasBuiltInType (s : Schema) : Bool := s.builtInType != Text.ofString "unknown"

/-- The validation keywords as decorators. -/
def decorators (s : Schema) : Decorators :=
  let k := s.keywords
  { minLength := k.minLength, maxLength := k.maxLength
    minItems := k.minItems, maxItems := k.maxItems
    minValue := k.minimum.map Number.ofDouble
    minValueExclusive := k.exclusiveMinimum.map Number.ofDouble
    maxValue := k.maximum.map Number.ofDouble
    maxValueExclusive := k.exclusiveMaximum.map Number.ofDouble
    pattern := k.pattern
    format := if k.type == "string" then k.format else "" }

/-- Reads a written JSON value. -/
def valueOf (cs : List Char) : Result Value := do
  match ← Value.parse (Text.ofChars cs) with
  | some v => .ok v
  | none => Result.fail .emptyValue

/-- A constant or a list of values is given. -/
def isEnumerated (s : Schema) : Bool :=
  s.keywords.const.isSome || !(s.keywords.enum.getD []).isEmpty

/-- The values a schema enumerates; a constant comes before a list. -/
def enumerated (s : Schema) : Result (List Value) :=
  let raw := match s.keywords.const with
    | some j => [j]
    | none => s.keywords.enum.getD []
  raw.mapM fun j => valueOf j.write

def hasVariants (s : Schema) : Bool :=
  !(s.under (.anyOf 0)).isEmpty || !(s.under (.oneOf 0)).isEmpty || s.hasTypes

def parts (s : Schema) : List Schema := (s.under (.allOf 0)).map (·.2)

/-- What other properties must satisfy, unless there are none. -/
def extraProperties? (s : Schema) : Option Schema :=
  (s.child? .additionalProperties).filter fun a => !a.isNever

/-- The schema for one of its types. The copy has no recorded order of keys. -/
def ofType (s : Schema) (type : String) : Schema :=
  s.mapKeywords fun k =>
    { k with types := none, type, description := "", propertyOrder := none, defOrder := none }

end Schema

/-! ### Enumerations -/

def literalRef (v : Value) : TypeRef := { literal := some v }

def unionOf (name : Text) (doc : String) (types : List TypeRef) : UnionDecl :=
  { name, doc, variants := types.map fun type => { type } }

/-- A member: strings name themselves, numbers are values. -/
def memberOf : Value → MemberDecl
  | .string s => { name := Text.ofString s }
  | .numeric n => { name := "v" ++ n.text, value := some (.numeric n) }
  | v => { value := some v }

/-- All values are strings, or all are numbers. -/
def areUniform (vs : List Value) : Bool := vs.all Value.isString || vs.all Value.isNumeric

/-! ### The importer -/

/-- The document so far and the names that are taken. -/
structure Importing where
  document : Document := {}
  used : List Text := []
  deriving Inhabited

abbrev Import := StateT Importing (Except Failure)

namespace Import

def fail {α : Type} (c : Cause) : Import α := throw (Failure.of c)

/-- Adds a position to whatever fails inside. -/
def within {α : Type} (position : Text) (m : Import α) : Import α := fun s =>
  Result.within position (m.run s)

def lift {α : Type} (r : Result α) : Import α := fun s => r.map (·, s)

def addScalar (d : ScalarDecl) : Import Unit :=
  modify fun s => { s with document.scalars := s.document.scalars ++ [d] }

def addModel (d : ModelDecl) : Import Unit :=
  modify fun s => { s with document.models := s.document.models ++ [d] }

def addEnum (d : EnumDecl) : Import Unit :=
  modify fun s => { s with document.enums := s.document.enums ++ [d] }

def addUnion (d : UnionDecl) : Import Unit :=
  modify fun s => { s with document.unions := s.document.unions ++ [d] }

/-- `name` with the first number from `i` on that makes it new. -/
def numbered (name : Text) (used : List Text) : Nat → Nat → Text
  | 0, i => name ++ Text.ofNat i
  | fuel + 1, i =>
    if used.contains (name ++ Text.ofNat i) then numbered name used fuel (i + 1)
    else name ++ Text.ofNat i

/-- A name nothing has yet: `name` itself or with a number. -/
def freshName (name : Text) (used : List Text) : Text :=
  if used.contains name then numbered name used used.length 2 else name

/-- Takes a new name. -/
def unique (name : Text) : Import Text := do
  let s ← get
  let fresh := freshName name s.used
  set { s with used := fresh :: s.used }
  pure fresh

/-- Declares enumerated values: an enum of strings or of numbers, else a union. -/
def declareEnum (name : Text) (s : Schema) : Import Unit := do
  let values ← lift s.enumerated
  let doc := s.keywords.description
  if areUniform values then addEnum { name, doc, members := values.map memberOf }
  else addUnion (unionOf name doc (values.map literalRef))

/-- The type a reference to a definition names. -/
def refType (defs : Schema) (s : Schema) : Import TypeRef := do
  let ref := Text.ofString s.keywords.ref
  match Reference.defName? ref with
  | none => fail (.unsupportedRef ref)
  | some name =>
    if (defs.def? name.toDisplay).isSome then pure (TypeRef.named name)
    else fail (.undefinedRef ref)

/-- Declares a name for another definition. -/
def declareAlias (defs : Schema) (name : Text) (s : Schema) : Import Unit := do
  let target ← refType defs s
  let doc := s.keywords.description
  match defs.def? target.name.toDisplay with
  | none => fail .absent
  | some .null => fail .absent
  | some t =>
    -- objects are copied, primitive types extended, all else is a union of one
    if t.isObject && t.keywords.ref.isEmpty then
      addModel { name, source := some target, decorators := { doc } }
    else if t.keywords.ref.isEmpty && t.hasBuiltInType && !t.isArray then
      addScalar { name, base := target.name, decorators := { s.decorators with doc } }
    else addUnion (unionOf name doc [target])

def declareScalar (name : Text) (s : Schema) : Import Unit :=
  if s.hasBuiltInType then
    addScalar { name, base := s.builtInType,
                decorators := { s.decorators with doc := s.keywords.description } }
  else fail .untypedSchema

/-- Collects results in order, each with its position. -/
def eachIndexed {α : Type} (f : Nat → Schema → Import α) : Nat → List Schema → Import (List α)
  | _, [] => pure []
  | i, s :: ss => do
    let x ← f i s
    let xs ← eachIndexed f (i + 1) ss
    pure (x :: xs)

mutual
def declare (defs : Schema) : Nat → Text → Schema → Import Unit
  | 0, _, _ => fail .diverges
  | _ + 1, _, .null => fail .absent
  | fuel + 1, name, s => do
    let doc := s.keywords.description
    if !s.keywords.ref.isEmpty then declareAlias defs name s
    else if s.isEnumerated then declareEnum name s
    else if s.hasVariants then
      let types ← variants defs fuel name s
      addUnion (unionOf name doc types)
    else if s.isArray then
      let (t, d) ← typeRef defs fuel name s
      -- no model is a copy of a tuple
      if t.tuple.isSome then addUnion (unionOf name doc [t])
      else addModel { name, source := some t, decorators := { d with doc } }
    else if s.isObject || !s.parts.isEmpty then
      let m ← model defs fuel name s
      addModel m
    else declareScalar name s

def model (defs : Schema) : Nat → Text → Schema → Import ModelDecl
  | 0, _, _ => fail .diverges
  | fuel + 1, name, s => do
    let (base, inherited) ← allParts defs fuel name s.parts none []
    let own ← properties defs fuel name s
    let source ← match s.extraProperties? with
      | none => pure none
      | some a => do
        let value ← inlineRef defs fuel (name ++ "Value") a
        pure (some { record := some value : TypeRef })
    pure { name, base, source, properties := inherited ++ own,
           decorators := { doc := s.keywords.description } }

/-- The base and the properties that the parts of a conjunction give; one may be a reference. -/
def allParts (defs : Schema) : Nat → Text → List Schema → Option TypeRef → List Property →
    Import (Option TypeRef × List Property)
  | 0, _, _, _, _ => fail .diverges
  | _ + 1, _, [], base, props => pure (base, props)
  | fuel + 1, name, part :: rest, base, props => do
    if part.isNull then fail .absent
    else if !part.keywords.ref.isEmpty then
      if base.isSome then fail .severalBases
      else
        let b ← refType defs part
        allParts defs fuel name rest (some b) props
    else if part.isObject then
      let own ← properties defs fuel name part
      allParts defs fuel name rest base (props ++ own)
    else fail .foreignPart

/-- The properties of an object schema, in source order. -/
def properties (defs : Schema) : Nat → Text → Schema → Import (List Property)
  | 0, _, _ => fail .diverges
  | fuel + 1, owner, s => s.orderedProperties.mapM fun key =>
    property defs fuel owner ((s.keywords.required.getD []).contains key) key
      ((s.property? key).getD .null)

def property (defs : Schema) : Nat → Text → Bool → String → Schema → Import Property
  | 0, _, _, _, _ => fail .diverges
  | fuel + 1, owner, required, key, s => do
    let name := Text.ofString key
    let (type, d) ← within ("property " ++ name.mentioned)
      (typeRef defs fuel (owner ++ name.pascalCase) s)
    let default ← match s.keywords.default with
      | none => pure none
      | some source => do
        let v ← within ("property " ++ name.mentioned ++ " default")
          (lift (Schema.valueOf source.toList))
        pure (some v)
    pure { name, type, optional := !required, default,
           decorators := { d with doc := s.keywords.description } }

/-- A reference where no decorators can stand: a schema with constraints is declared. -/
def inlineRef (defs : Schema) : Nat → Text → Schema → Import TypeRef
  | 0, _, _ => fail .diverges
  | fuel + 1, hint, s => do
    let (t, d) ← typeRef defs fuel hint s
    if d.isEmpty then pure t else hoist defs fuel hint s

/-- Declares a schema under a new name. -/
def hoist (defs : Schema) : Nat → Text → Schema → Import TypeRef
  | 0, _, _ => fail .diverges
  | fuel + 1, hint, s => do
    let name ← unique hint
    declare defs fuel name s
    pure (TypeRef.named name)

/-- A reference to the type of a schema, and the constraints it leaves out. -/
def typeRef (defs : Schema) : Nat → Text → Schema → Import (TypeRef × Decorators)
  | 0, _, _ => fail .diverges
  | _ + 1, _, .null => fail .absent
  | fuel + 1, hint, s => do
    if !s.keywords.ref.isEmpty then
      let t ← refType defs s
      pure (t, s.decorators)
    else if s.isEnumerated then
      match ← lift s.enumerated with
      | [v] => pure (literalRef v, {})
      | vs => pure ({ union := some (vs.map literalRef) }, {})
    else if s.hasVariants then
      match ← variants defs fuel hint s with
      | [t] => pure (t, {})
      | ts => pure ({ union := some ts }, {})
    else match s.parts with
      | [part] =>
        -- with properties of its own the schema is more than its part
        if s.isObject then
          let t ← hoist defs fuel hint s
          pure (t, {})
        else typeRef defs fuel hint part
      | _ :: _ :: _ => do
        let t ← hoist defs fuel hint s
        pure (t, {})
      | [] =>
        if s.isArray then arrayRef defs fuel hint s
        else if s.isObject then objectRef defs fuel hint s
        else pure (TypeRef.named s.builtInType, s.decorators)

def arrayRef (defs : Schema) : Nat → Text → Schema → Import (TypeRef × Decorators)
  | 0, _, _ => fail .diverges
  | fuel + 1, hint, s => do
    match s.under (.prefixItem 0) with
    | [] =>
      let elem ← match s.child? .items with
        | none => pure (TypeRef.named "unknown")
        | some item => inlineRef defs fuel (hint ++ "Item") item
      pure ({ array := some elem },
        { minItems := s.keywords.minItems, maxItems := s.keywords.maxItems })
    | items =>
      let elems ← eachIndexed (fun i item =>
        inlineRef defs fuel (hint ++ "Item" ++ Text.ofNat i) item) 0 (items.map (·.2))
      pure ({ tuple := some elems }, {})

/-- A map, an object, or a declared model that is both. -/
def objectRef (defs : Schema) : Nat → Text → Schema → Import (TypeRef × Decorators)
  | 0, _, _ => fail .diverges
  | fuel + 1, hint, s => do
    match s.extraProperties? with
    | some a =>
      if s.propertyKeys.isEmpty then
        let value ← inlineRef defs fuel (hint ++ "Value") a
        pure ({ record := some value }, {})
      else
        let t ← hoist defs fuel hint s
        pure (t, {})
    | none =>
      let props ← properties defs fuel hint s
      pure ({ object := some props }, {})

/-- The alternatives of a schema: those written out, then its types. -/
def variants (defs : Schema) : Nat → Text → Schema → Import (List TypeRef)
  | 0, _, _ => fail .diverges
  | fuel + 1, hint, s => do
    let written := (s.under (.anyOf 0) ++ s.under (.oneOf 0)).map (·.2)
    let ts ← eachIndexed (fun i v =>
      inlineRef defs fuel (hint ++ "Variant" ++ Text.ofNat i) v) 0 written
    let us ← (s.keywords.types.getD []).mapM fun type =>
      if type == "null" then pure (TypeRef.named "null")
      else inlineRef defs fuel (hint ++ (Text.ofString type).pascalCase) (s.ofType type)
    pure (ts ++ us)
end

/-- Enough depth for an import that ends: a bounded number of steps for each level of the
schema and each part of a conjunction. -/
def fuelFor (root : Schema) : Nat := 16 * (root.size + 1)

def document (root : Schema) (name : Text) : Import Unit := do
  if root.isNull then fail .absent
  let fuel := fuelFor root
  let names := root.orderedDefs
  -- no name made on the way may be that of a later definition
  modify fun s => { s with used := names.map Text.ofString }
  names.forM fun n =>
    within ("$defs/" ++ (Text.ofString n).mentioned)
      (declare root fuel (Text.ofString n) ((root.def? n).getD .null))
  if root.isObject then
    let name : Text := if name.isEmpty then "Root" else name
    let fresh ← unique name
    within name.mentioned (declare root fuel fresh root)

end Import

/-- The schema document of a JSON Schema; the root model takes the given name. -/
def Schema.toDocument (root : Schema) (name : Text) : Result Document := do
  let (_, s) ← (Import.document root name).run {}
  .ok s.document

end SchemaLoom

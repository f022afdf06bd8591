import SchemaLoom.Document
import SchemaLoom.Yaml.Decode

/-!
# Reading schema documents

How YAML nodes become values, type references and declarations. Declarations
refuse unknown keys through the reader; properties, type references and
discriminators check their keys themselves, because their parts are read anew at
every level. A mapping with the tag of null comes past that check: where it fits at
all, it is read like a declaration.

Values follow aliases without keeping track of them, so on a node that contains
itself they end only by running out of depth.
-/

namespace SchemaLoom

open Yaml Yaml.Decode

namespace Value

/-- A scalar by its tag. -/
def ofScalar (line : Nat) (tag text : String) : Result Value :=
  if tag == "!!null" then .ok .null
  else if tag == "!!bool" then do
    match ← readNode Decode.bool #[] (.scalar line tag text) with
    | some b => .ok (.boolean b)
    | none => .ok (.boolean false)
  else if tag == "!!int" || tag == "!!float" then
    Result.within ("line " ++ Text.ofNat line)
      ((Number.parse (Text.ofString text)).map Value.numeric)
  else .ok (.string text)

/-- The parts of a constructor call. -/
structure Call where
  fromISO : Option Text := none
  scalar : Text := []
  constructor : Text := []
  args : List Value := []

/-- The value a mapping denotes. -/
def Call.value (c : Call) : Value :=
  match c.fromISO with
  | some s => .scalar c.scalar.toDisplay "fromISO" [.string s.toDisplay]
  | none =>
    if c.constructor.isEmpty then .object
    else .scalar c.scalar.toDisplay c.constructor.toDisplay c.args

/-- Reads an argument with the tag of null: one without content. -/
def plain : Reader Value := Decode.record { type := "graph.Value", fields := [] } (.string "")

/-- The value of a node. Mappings are constructor calls; their other keys are ignored. -/
def ofNode : Nat → Anchors → Yaml.Node → Result Value
  | 0, _, _ => Result.fail .diverges
  | depth + 1, anchors, n =>
    match n with
    | .scalar line tag text => ofScalar line tag text
    | .sequence _ _ items => do
      let vs ← items.mapM (ofNode depth anchors)
      .ok (.array vs)
    | .mapping .. => do
      let fields : Fields Call := {
        type := "struct"
        fields := [
          field "fromISO" (Decode.optional "string" Decode.text)
            fun c t => { c with fromISO := some t },
          field "scalar" Decode.text fun c t => { c with scalar := t },
          field "constructor" Decode.text fun c t => { c with constructor := t },
          field "args" (Decode.list "[]graph.Value" (unlessNull plain (own (ofNode depth))))
            fun c vs => { c with args := vs }] }
      match ← readNode (Decode.record fields {}) anchors n with
      | some c => .ok c.value
      | none => .ok .object
    | .aliasOf _ _ target _ =>
      match anchors[target]? with
      | some n => ofNode depth anchors n
      | none => Result.fail .malformed

end Value

def Number.ofNode (n : Yaml.Node) : Result Number :=
  match n with
  | .scalar line _ text =>
    Result.within ("line " ++ Text.ofNat line) (Number.parse (Text.ofString text))
  | _ => Result.fail (.expectedNumber n.line)

def checkKeys (known : List String) (owner : String) (n : Yaml.Node) : Result Unit :=
  match n.entries.find? fun e => !known.contains e.1.text with
  | some (k, _) => Result.fail (.unknownField k.line k.text owner)
  | none => .ok ()

/-! ### Fields -/

def textField {σ : Type} (key : String) (set : σ → Text → σ) := field key Decode.text set

def stringField {σ : Type} (key : String) (set : σ → String → σ) :=
  field key Decode.text fun s t => set s t.toDisplay

def numberReader : Reader Number := Decode.optional "graph.Number" (own fun _ n => Number.ofNode n)

def countReader : Reader Int := Decode.optional "int64" Decode.int64

def valueReader (depth : Nat) : Reader Value :=
  Decode.optional "graph.Value" (own (Value.ofNode depth))

def decoratorKeys : List String :=
  ["doc", "minLength", "maxLength", "minItems", "maxItems", "minValue", "minValueExclusive",
   "maxValue", "maxValueExclusive", "pattern", "format"]

/-- The fields of decorators, inside the record that carries them. -/
def decoratorFields {σ : Type} (on : σ → (Decorators → Decorators) → σ) :
    List (String × (Scope → Yaml.Node → σ → Decode σ)) :=
  [stringField "doc" fun s t => on s fun d => { d with doc := t },
   field "minLength" countReader fun s n => on s fun d => { d with minLength := some n },
   field "maxLength" countReader fun s n => on s fun d => { d with maxLength := some n },
   field "minItems" countReader fun s n => on s fun d => { d with minItems := some n },
   field "maxItems" countReader fun s n => on s fun d => { d with maxItems := some n },
   field "minValue" numberReader fun s n => on s fun d => { d with minValue := some n },
   field "minValueExclusive" numberReader fun s n =>
     on s fun d => { d with minValueExclusive := some n },
   field "maxValue" numberReader fun s n => on s fun d => { d with maxValue := some n },
   field "maxValueExclusive" numberReader fun s n =>
     on s fun d => { d with maxValueExclusive := some n },
   stringField "pattern" fun s t => on s fun d => { d with pattern := t },
   stringField "format" fun s t => on s fun d => { d with format := t }]

/-! ### Type references and properties -/

def typeRefKeys : List String :=
  ["array", "record", "literal", "union", "tuple", "object", "member"]

def propertyKeys : List String := ["name", "type", "optional", "default"] ++ decoratorKeys

/-- The last value under the key `default`, null included. -/
def explicitDefault (depth : Nat) (anchors : Anchors) (n : Yaml.Node) : Result (Option Value) :=
  n.entries.foldlM (fun acc (k, v) =>
    if k.text == "default" then (Value.ofNode depth anchors v).map some else .ok acc) none

/-- The parts of a type reference, by the readers for what stands below it. -/
def TypeRef.fields (ref : Reader TypeRef) (property : Reader Property) (value : Reader Value)
    (type : String) : Fields TypeRef where
  type
  fields := [
    field "array" (Decode.optional "graph.TypeRef" ref) fun t a => { t with array := some a },
    field "record" (Decode.optional "graph.TypeRef" ref) fun t a => { t with record := some a },
    field "literal" value fun t v => { t with literal := some v },
    field "union" (Decode.list "[]graph.TypeRef" ref) fun t us => { t with union := some us },
    field "tuple" (Decode.list "[]graph.TypeRef" ref) fun t us => { t with tuple := some us },
    field "object" (Decode.list "[]graph.PropertyDecl" property)
      fun t ps => { t with object := some ps },
    textField "member" fun t m => { t with member := m }]

/-- A type reference: a name, or a mapping of parts. -/
def TypeRef.ofNode (fields : String → Fields TypeRef) (anchors : Anchors) (n : Yaml.Node) :
    Result TypeRef :=
  match n with
  | .scalar _ _ text => .ok (TypeRef.named (Text.ofString text))
  | _ => do
    checkKeys typeRefKeys "graph.TypeRef" n
    return (← readNode (Decode.record (fields "graph.plain") {}) anchors n).getD {}

def Property.fields (ref : Reader TypeRef) (value : Reader Value) (type : String) :
    Fields Property where
  type
  fields := [
    textField "name" fun p t => { p with name := t },
    field "type" ref fun p t => { p with type := t },
    field "optional" Decode.bool fun p b => { p with optional := b },
    field "default" value fun p v => { p with default := some v }] ++
    decoratorFields fun p f => { p with decorators := f p.decorators }

/-- A property. A default of null is a default. -/
def Property.ofNode (fields : String → Fields Property) (depth : Nat) (anchors : Anchors)
    (n : Yaml.Node) : Result Property := do
  checkKeys propertyKeys "graph.PropertyDecl" n
  let blank : Property := { type := {} }
  let p := (← readNode (Decode.record (fields "graph.plain") blank) anchors n).getD blank
  let d ← explicitDefault depth anchors n
  .ok { p with default := d }

mutual
/-- Reads a type reference. One with the tag of null is nothing but its parts. -/
def TypeRef.reader : Nat → Reader TypeRef
  | 0 => fun _ _ => fatal .diverges
  | depth + 1 =>
    let fields := TypeRef.fields (TypeRef.reader depth) (Property.reader depth) (valueReader depth)
    unlessNull (Decode.record (fields "graph.TypeRef") {}) (own (TypeRef.ofNode fields))

/-- Reads a property. One with the tag of null is nothing but its parts. -/
def Property.reader : Nat → Reader Property
  | 0 => fun _ _ => fatal .diverges
  | depth + 1 =>
    let fields := Property.fields (TypeRef.reader depth) (valueReader depth)
    unlessNull (Decode.record (fields "graph.PropertyDecl") { type := {} })
      (own (Property.ofNode fields depth))
end

/-! ### Declarations -/

def DiscriminatorDecl.fields : Fields DiscriminatorDecl where
  type := "graph.plain"
  fields := [
    textField "property" fun d t => { d with property := t },
    textField "envelope" fun d t => { d with envelope := t },
    textField "envelopeProperty" fun d t => { d with envelopeProperty := t }]

/-- `true`, `false` or a mapping of settings. -/
def DiscriminatorDecl.ofNode (anchors : Anchors) (n : Yaml.Node) : Result DiscriminatorDecl :=
  match n with
  | .scalar .. => do
    let on ← readNode Decode.bool anchors n
    .ok { disabled := !on.getD false }
  | _ => do
    checkKeys ["property", "envelope", "envelopeProperty"] "graph.DiscriminatorDecl" n
    return (← readNode (Decode.record fields {}) anchors n).getD {}

def encodingReader : Reader EncodingDecl := Decode.record {
  type := "graph.EncodingDecl"
  fields := [
    textField "encoding" fun e t => { e with encoding := t },
    textField "type" fun e t => { e with type := t }] } {}

def scalarReader : Reader ScalarDecl := Decode.record {
  type := "graph.ScalarDecl"
  fields := [
    textField "name" fun s t => { s with name := t },
    textField "extends" fun s t => { s with base := t },
    field "encode" (Decode.optional "graph.EncodingDecl" encodingReader)
      fun s e => { s with encode := some e }] ++
    decoratorFields fun s f => { s with decorators := f s.decorators } } {}

def modelReader (depth : Nat) : Reader ModelDecl := Decode.record {
  type := "graph.ModelDecl"
  fields := [
    textField "name" fun m t => { m with name := t },
    field "extends" (Decode.optional "graph.TypeRef" (TypeRef.reader depth))
      fun m t => { m with base := some t },
    field "is" (Decode.optional "graph.TypeRef" (TypeRef.reader depth))
      fun m t => { m with source := some t },
    field "properties" (Decode.list "[]graph.PropertyDecl" (Property.reader depth))
      fun m ps => { m with properties := ps }] ++
    decoratorFields fun m f => { m with decorators := f m.decorators } } {}

def memberReader (depth : Nat) : Reader MemberDecl := Decode.record {
  type := "graph.EnumMemberDecl"
  fields := [
    textField "name" fun m t => { m with name := t },
    field "value" (valueReader depth) fun m v => { m with value := some v }] } {}

def enumReader (depth : Nat) : Reader EnumDecl := Decode.record {
  type := "graph.EnumDecl"
  fields := [
    textField "name" fun e t => { e with name := t },
    stringField "doc" fun e t => { e with doc := t },
    field "members" (Decode.list "[]graph.EnumMemberDecl" (memberReader depth))
      fun e ms => { e with members := ms }] } {}

def variantReader (depth : Nat) : Reader VariantDecl := Decode.record {
  type := "graph.VariantDecl"
  fields := [
    textField "name" fun v t => { v with name := t },
    field "type" (TypeRef.reader depth) fun v t => { v with type := t }] } {}

def unionReader (depth : Nat) : Reader UnionDecl := Decode.record {
  type := "graph.UnionDecl"
  fields := [
    textField "name" fun u t => { u with name := t },
    stringField "doc" fun u t => { u with doc := t },
    field "discriminated" (Decode.optional "graph.DiscriminatorDecl" (own DiscriminatorDecl.ofNode))
      fun u d => { u with discriminated := some d },
    field "variants" (Decode.list "[]graph.VariantDecl" (variantReader depth))
      fun u vs => { u with variants := vs }] } {}

def documentReader (depth : Nat) : Reader Document := Decode.record {
  type := "graph.Document"
  fields := [
    field "scalars" (Decode.list "[]graph.ScalarDecl" scalarReader)
      fun d xs => { d with scalars := xs },
    field "models" (Decode.list "[]graph.ModelDecl" (modelReader depth))
      fun d xs => { d with models := xs },
    field "enums" (Decode.list "[]graph.EnumDecl" (enumReader depth))
      fun d xs => { d with enums := xs },
    field "unions" (Decode.list "[]graph.UnionDecl" (unionReader depth))
      fun d xs => { d with unions := xs }] } {}

/-! ### Texts -/

/-- The first YAML document of a text, if there is one. -/
def Yaml.parse (t : Text) : Result (Option Yaml.Document) :=
  match Yaml.parse? t with
  | some d => .ok d
  | none => Result.fail .malformed

/-- Reads the root of a YAML document. -/
def Document.ofYaml (y : Yaml.Document) : Result Document := do
  let d ← Decode.run (through (documentReader y.depth) ⟨y.anchors, true, []⟩ y.root)
  .ok (d.getD {})

/-- Reads a schema document; a stream without document declares nothing. -/
def Document.parse (t : Text) : Result Document :=
  Result.within "decode graph document" do
    match ← Yaml.parse t with
    | none => .ok {}
    | some y => Document.ofYaml y

/-- The value a text denotes; none for a text without node. -/
def Value.parse (t : Text) : Result (Option Value) := do
  match ← Yaml.parse t with
  | none => .ok none
  | some y => (Value.ofNode y.depth y.anchors y.root).map some

/-- The number a text denotes as a YAML node; none for a text without node. -/
def Number.parseNode (t : Text) : Result (Option Number) := do
  match ← Yaml.parse t with
  | none => .ok none
  | some y => (Number.ofNode y.root).map some

end SchemaLoom

import SchemaLoom.Value

/-!
# Schema documents

The declarations of a schema as they are written: scalars, models, enums and
unions, with references by name. Nothing is resolved here.
-/

namespace SchemaLoom

/-- Documentation and constraints attached to a declaration or property. -/
structure Decorators where
  doc : String := ""
  minLength : Option Int := none
  maxLength : Option Int := none
  minItems : Option Int := none
  maxItems : Option Int := none
  minValue : Option Number := none
  minValueExclusive : Option Number := none
  maxValue : Option Number := none
  maxValueExclusive : Option Number := none
  pattern : String := ""
  format : String := ""
  deriving DecidableEq, Repr, Inhabited

def Decorators.isEmpty (d : Decorators) : Bool := d == {}

mutual
/-- A reference to a type: a name, or the parts of an anonymous type. At most one part is
meant to be given; the first one counts. -/
structure TypeRef where
  name : Text := []
  array : Option TypeRef := none
  record : Option TypeRef := none
  literal : Option Value := none
  union : Option (List TypeRef) := none
  tuple : Option (List TypeRef) := none
  object : Option (List Property) := none
  member : Text := []

structure Property where
  name : Text := []
  type : TypeRef
  optional : Bool := false
  default : Option Value := none
  decorators : Decorators := {}
end

instance : Inhabited TypeRef := ⟨{}⟩

instance : Inhabited Property := ⟨{ type := {} }⟩

def TypeRef.named (name : Text) : TypeRef := { name }

/-- The wire encoding of a scalar; without a type the encoding chooses one. -/
structure EncodingDecl where
  encoding : Text := []
  type : Text := []
  deriving Repr, Inhabited

structure ScalarDecl where
  name : Text := []
  /-- The scalar it extends; empty for none. -/
  base : Text := []
  encode : Option EncodingDecl := none
  decorators : Decorators := {}
  deriving Inhabited

structure ModelDecl where
  name : Text := []
  base : Option TypeRef := none
  /-- The model it is a copy of. -/
  source : Option TypeRef := none
  properties : List Property := []
  decorators : Decorators := {}
  deriving Inhabited

structure MemberDecl where
  name : Text := []
  value : Option Value := none
  deriving Inhabited

structure EnumDecl where
  name : Text := []
  doc : String := ""
  members : List MemberDecl := []
  deriving Inhabited

/-- Settings of a discriminated union as written; empty ones take their default. -/
structure DiscriminatorDecl where
  property : Text := []
  envelope : Text := []
  envelopeProperty : Text := []
  disabled : Bool := false
  deriving Repr, Inhabited

structure VariantDecl where
  name : Text := []
  type : TypeRef := {}
  deriving Inhabited

structure UnionDecl where
  name : Text := []
  doc : String := ""
  discriminated : Option DiscriminatorDecl := none
  variants : List VariantDecl := []
  deriving Inhabited

/-- A schema document, its declarations in source order. -/
structure Document where
  scalars : List ScalarDecl := []
  models : List ModelDecl := []
  enums : List EnumDecl := []
  unions : List UnionDecl := []
  deriving Inhabited

/-- The names a document declares, in the order they are linked. -/
def Document.names (d : Document) : List Text :=
  d.scalars.map (·.name) ++ d.models.map (·.name) ++ d.enums.map (·.name) ++
    d.unions.map (·.name)

end SchemaLoom

import SchemaLoom.Proofs.HoistedNames
import SchemaLoom.Proofs.Mirrors

/-!
# Primitive schemas in a document

The constraints of a primitive schema come along wherever an import meets the schema: on a
property they are attached to that, and elsewhere they make it a scalar with a name of its
own. It makes no difference how deep the schema is, or whether the name had to be changed.

A schema that an import comes to has a spot in the document. The one exception is a part of
a conjunction that is read in two ways: as an array where it is referred to, and for its
properties in the model that is declared in place of the reference. The items are met, and
what is made of them is not used.
-/

namespace SchemaLoom

set_option autoImplicit false

/-! ### Spots that are come to -/

/-- A document stands for a definition in what has its name, for the root in its own model, and for
what is below one of these in a spot below. -/
inductive Document.Shows (d : Document) (root : Schema) (name : Text) : Schema → Spot → Prop
  | definition {k : String} {s : Schema} : root.def? k = some s →
      Shows d root name s (.declaration (Text.ofString k))
  | own {x : Text} : root.ownName? name = some x → Shows d root name root (.declaration x)
  | inside {s c : Schema} {spot inner : Spot} {cs : List (Schema × Spot)} :
      Shows d root name s spot → d.below s spot = some cs → (c, inner) ∈ cs →
      Shows d root name c inner

namespace Import

end Import

/-! ### Tasks and spots -/

namespace Spot

end Spot

namespace Document

section Covers
variable {d : Document} {root : Schema} {name : Text} {s c : Schema}

variable (hshape : ∀ s spot, d.Shows root name s spot → d.Mirrors s spot)
include hshape

end Covers

end Document

/-- A word with at least one letter. -/
def word : Schema := .node { type := "string", minLength := some 1 } []

end SchemaLoom

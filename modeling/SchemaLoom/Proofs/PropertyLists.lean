import SchemaLoom.Document

/-!
# Where properties stand

Properties stand in the lists of models and of inline objects, and types of properties,
variants, bases and copies may hold more of them, at any depth. `Lists` finds the lists
and `Holds` the properties.
-/

namespace SchemaLoom

set_option autoImplicit false

/-- A list of properties stands somewhere in a type reference. -/
inductive TypeRef.Lists (ps : List Property) : TypeRef → Prop
  | own {t : TypeRef} : t.object = some ps → Lists ps t
  | array {t u : TypeRef} : t.array = some u → Lists ps u → Lists ps t
  | record {t u : TypeRef} : t.record = some u → Lists ps u → Lists ps t
  | union {t u : TypeRef} {ts : List TypeRef} : t.union = some ts → u ∈ ts → Lists ps u →
      Lists ps t
  | tuple {t u : TypeRef} {ts : List TypeRef} : t.tuple = some ts → u ∈ ts → Lists ps u →
      Lists ps t
  | object {t : TypeRef} {p : Property} {qs : List Property} : t.object = some qs → p ∈ qs →
      Lists ps p.type → Lists ps t

/-- A list of properties stands somewhere in a document: as that of a model, or in a type. -/
inductive Document.Lists (d : Document) (ps : List Property) : Prop
  | model {m : ModelDecl} : m ∈ d.models → m.properties = ps → Lists d ps
  | base {m : ModelDecl} {t : TypeRef} : m ∈ d.models → m.base = some t → t.Lists ps → Lists d ps
  | source {m : ModelDecl} {t : TypeRef} : m ∈ d.models → m.source = some t → t.Lists ps →
      Lists d ps
  | property {m : ModelDecl} {p : Property} : m ∈ d.models → p ∈ m.properties →
      p.type.Lists ps → Lists d ps
  | variant {u : UnionDecl} {v : VariantDecl} : u ∈ d.unions → v ∈ u.variants →
      v.type.Lists ps → Lists d ps

/-- A property stands somewhere in a type reference. -/
inductive TypeRef.Holds (p : Property) : TypeRef → Prop
  | array {t u : TypeRef} : t.array = some u → Holds p u → Holds p t
  | record {t u : TypeRef} : t.record = some u → Holds p u → Holds p t
  | union {t u : TypeRef} {ts : List TypeRef} : t.union = some ts → u ∈ ts → Holds p u → Holds p t
  | tuple {t u : TypeRef} {ts : List TypeRef} : t.tuple = some ts → u ∈ ts → Holds p u → Holds p t
  | own {t : TypeRef} {ps : List Property} : t.object = some ps → p ∈ ps → Holds p t
  | object {t : TypeRef} {q : Property} {ps : List Property} : t.object = some ps → q ∈ ps →
      Holds p q.type → Holds p t

/-- A property stands somewhere in a document. -/
inductive Document.Holds (d : Document) (p : Property) : Prop
  | own {m : ModelDecl} : m ∈ d.models → p ∈ m.properties → Holds d p
  | property {m : ModelDecl} {q : Property} : m ∈ d.models → q ∈ m.properties →
      q.type.Holds p → Holds d p
  | base {m : ModelDecl} {t : TypeRef} : m ∈ d.models → m.base = some t → t.Holds p → Holds d p
  | source {m : ModelDecl} {t : TypeRef} : m ∈ d.models → m.source = some t → t.Holds p →
      Holds d p
  | variant {u : UnionDecl} {v : VariantDecl} : u ∈ d.unions → v ∈ u.variants →
      v.type.Holds p → Holds d p

section Types
variable {name : Text} {t : TypeRef} {p : Property} {ps : List Property}

theorem TypeRef.not_lists_named : ¬ (TypeRef.named name).Lists ps := by
  intro h
  cases h <;> contradiction

theorem TypeRef.not_holds_named : ¬ (TypeRef.named name).Holds p := by
  intro h
  cases h <;> contradiction

theorem TypeRef.Holds.of_array (h : ({ array := some t } : TypeRef).Holds p) : t.Holds p := by
  cases h with
  | array ht h =>
    cases ht
    exact h
  | _ => contradiction

theorem TypeRef.Lists.holds (h : t.Lists ps) (hp : p ∈ ps) : t.Holds p := by
  induction h with
  | own ht => exact .own ht hp
  | array ht _ ih => exact .array ht ih
  | record ht _ ih => exact .record ht ih
  | union ht hu _ ih => exact .union ht hu ih
  | tuple ht hu _ ih => exact .tuple ht hu ih
  | object ht hq _ ih => exact .object ht hq ih

end Types

theorem Document.Lists.holds {d : Document} {p : Property} {ps : List Property} (h : d.Lists ps)
    (hp : p ∈ ps) : d.Holds p := by
  cases h with
  | model hm heq =>
    subst heq
    exact .own hm hp
  | base hm ht h => exact .base hm ht (h.holds hp)
  | source hm ht h => exact .source hm ht (h.holds hp)
  | property hm hq h => exact .property hm hq (h.holds hp)
  | variant hu hv h => exact .variant hu hv (h.holds hp)

end SchemaLoom

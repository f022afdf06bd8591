import Mathlib.Logic.Relation
import SchemaLoom.Proofs.Growth
import SchemaLoom.Proofs.Materials

/-!
# Required properties

A model has its properties from several pieces: the parts of a conjunction that give
properties, then the schema itself. A piece lists the properties it requires, and an import
asks only the piece that gives a property whether it is required. So what one piece requires
of another one is lost, and the property can be left out.

Properties that a model inherits from its base are not looked at; there, nothing is
required by what extends it.
-/

namespace SchemaLoom

set_option autoImplicit false

namespace Schema

def RequiresTogether (s : Schema) (key : String) : Prop := ∃ c ∈ s.pieces, c.requires key = true

/-- Properties that can be left out exactly if no piece requires them. -/
def OptionalTogether (s : Schema) (ps : List Property) : Prop :=
  ∀ p ∈ ps, p.optional = true ↔ ∀ key, s.RequiresTogether key → p.name ≠ Text.ofString key

/-- What any piece requires is required by each piece that gives it. -/
def RequiresInPlace (s : Schema) : Prop :=
  ∀ c ∈ s.pieces, ∀ key ∈ c.propertyKeys, s.RequiresTogether key → c.requires key = true

/-- An import comes to do a task. -/
def ComesTo (root : Schema) (t : Task) : Prop :=
  ∃ u ∈ root.tasks, Relation.ReflTransGen Task.Needs u t

/-! ### Slots -/

section Slots
variable {s c : Schema} {x : Text × Bool} {ps : List Property}

theorem mem_slots : x ∈ c.slots ↔
    ∃ key ∈ c.propertyKeys, (Text.ofString key, !c.requires key) = x := by
  simp only [slots, List.mem_map, orderedProperties, mem_orderedKeys]

theorem optionalTogether_iff (h : ps.map Property.slot = s.pieces.flatMap slots) :
    s.OptionalTogether ps ↔ s.RequiresInPlace := by
  have hslot : ∀ x, (∃ p ∈ ps, p.slot = x) ↔
      ∃ c ∈ s.pieces, ∃ key ∈ c.propertyKeys, (Text.ofString key, !c.requires key) = x := by
    intro x
    rw [← List.mem_map, h, List.mem_flatMap]
    simp only [mem_slots]
  constructor
  · intro hall c hc key hkey hrequired
    obtain ⟨p, hp, heq⟩ := (hslot _).mpr ⟨c, hc, key, hkey, rfl⟩
    obtain ⟨hname, hoptional⟩ := Prod.mk.inj heq
    by_contra hnot
    refine (hall p hp).mp ?_ key hrequired hname
    rw [hoptional, Bool.eq_false_iff.mpr hnot]
    rfl
  · intro hplace p hp
    obtain ⟨c, hc, key, hkey, heq⟩ := (hslot _).mp ⟨p, hp, rfl⟩
    obtain ⟨hname, hoptional⟩ := Prod.mk.inj heq
    rw [← hname, ← hoptional, Bool.not_eq_true']
    constructor
    · intro hnot other hrequired heq
      obtain rfl := Text.ofString_injective heq
      rw [hplace c hc _ hkey hrequired] at hnot
      cases hnot
    · intro hnone
      by_contra hrequired
      exact hnone key ⟨c, hc, Bool.eq_true_of_not_eq_false hrequired⟩ rfl

end Slots

end Schema

/-! ### Models -/

namespace Import
variable {root s : Schema} {name : Text}

theorem declare_of_isModelled (hs : s.isModelled = true) (fuel : Nat) :
    declare root (fuel + 1) name s = model root fuel name s >>= addModel := by
  cases s with
  | null => cases hs
  | node k cs =>
    unfold Schema.isModelled at hs
    rw [declare]
    · simp_all
    · simp

theorem DeclaredAs.model {d : Document} (h : DeclaredAs root d name s)
    (hs : s.isModelled = true) : ∃ m ∈ d.models, m.name = name ∧
      m.properties.map Property.slot = s.pieces.flatMap Schema.slots := by
  obtain ⟨t, u, _, hu, hunder⟩ := h
  rw [fuelFor, Nat.mul_add, declare_of_isModelled hs] at hu
  obtain ⟨⟨m, v⟩, hm, hu⟩ := Result.bind_eq_ok.mp hu
  cases hu
  have hname : m.name = name := model_named name s t m v hm
  have hmem : m ∈ (d.under name).models := by
    rw [hunder]
    exact List.mem_filter.mpr ⟨List.mem_append_right _ List.mem_cons_self, by simpa using hname⟩
  exact ⟨m, (List.mem_filter.mp hmem).1, hname, model_slots name s t m v hm⟩

end Import

namespace Schema

theorem materials_of_slots (root : Schema) :
    Import.Materials root root.ComesTo (fun _ => True) (fun _ => True)
      (fun ps => ps ≠ [] → ∃ s, root.ComesTo (.declare s) ∧ s.isModelled = true ∧
        ps.map Property.slot = s.pieces.flatMap slots)
      (fun _ => True) where
  needs := by
    rintro t u ⟨start, hstart, hpath⟩ hneeds
    exact ⟨start, hstart, hpath.tail hneeds⟩
  definition := fun _ => trivial
  builtIn := fun _ => trivial
  fresh := fun _ _ => ⟨trivial, trivial⟩
  none := fun h => absurd rfl h
  model := fun hs hmodelled hslots _ => ⟨_, hs, hmodelled, hslots⟩
  object := fun _ _ => trivial

/-- A model with properties has them from the pieces of one schema, each optional unless its own
piece requires it. That agrees with what the pieces require together exactly if nothing is
required away from its place. -/
theorem toDocument_optional_iff {root : Schema} {name : Text} {d : Document}
    (h : root.toDocument name = .ok d) {m : ModelDecl} (hm : m ∈ d.models)
    (hsome : m.properties ≠ []) :
    ∃ s, root.ComesTo (.declare s) ∧ s.isModelled = true ∧
      m.properties.map Property.slot = s.pieces.flatMap slots ∧
      (s.OptionalTogether m.properties ↔ s.RequiresInPlace) := by
  obtain ⟨⟨_, last⟩, hlast, h⟩ := Result.bind_eq_ok.mp h
  cases h
  have hsound := Import.sound_document (materials_of_slots root)
    (fun t ht => ⟨t, ht, .refl⟩) trivial hlast
  obtain ⟨s, hs, hmodelled, hslots⟩ := (hsound.2.models m hm).listed hsome
  exact ⟨s, hs, hmodelled, hslots, optionalTogether_iff hslots⟩

/-- A definition with properties is declared as a model with exactly those. -/
theorem toDocument_def_optional_iff {root : Schema} (hroot : root.Distinct) {name : Text}
    {d : Document} (h : root.toDocument name = .ok d) {k : String} {s : Schema}
    (hk : root.def? k = some s) (hs : s.isModelled = true) :
    ∃ m ∈ d.models, m.name = Text.ofString k ∧
      m.properties.map Property.slot = s.pieces.flatMap slots ∧
      (s.OptionalTogether m.properties ↔ s.RequiresInPlace) := by
  obtain ⟨m, hm, hname, hslots⟩ := (Import.declaredAs_of_def? hroot h hk).model hs
  exact ⟨m, hm, hname, hslots, optionalTogether_iff hslots⟩

/-- A parcel has an address, and a width from a part; the two have lists of what is required. -/
def parcel (part own : List String) : Schema :=
  .node { required := some own } [(.property "address", .node { type := "string" } []),
    (.allOf 0, .node { required := some part } [(.property "width", .node { type := "number" } [])])]

def parcels (part own : List String) : Schema := .node {} [(.def_ "Parcel", parcel part own)]

def parcelModel (part own : List String) : ModelDecl where
  name := "Parcel"
  properties := [
    { name := "width", type := { name := "float64" }, optional := !part.contains "width" },
    { name := "address", type := { name := "string" }, optional := !own.contains "address" }]

theorem orderedDefs_parcels (part own : List String) :
    (parcels part own).orderedDefs = ["Parcel"] := by cbv

theorem toDocument_parcels (part own : List String) :
    (parcels part own).toDocument [] = .ok { models := [parcelModel part own] } := by
  simp only [Schema.toDocument, Import.document, orderedDefs_parcels]
  rfl

/-- Each of the two requires what it gives. -/
theorem toDocument_optional_iff_parcel : ∃ d, (parcels ["width"] ["address"]).toDocument [] = .ok d ∧
    ∃ m ∈ d.models, m.properties ≠ [] ∧ ∃ s, (parcels ["width"] ["address"]).ComesTo (.declare s) ∧
      s.isModelled = true ∧ m.properties.map Property.slot = s.pieces.flatMap slots ∧
      (s.OptionalTogether m.properties ↔ s.RequiresInPlace) := by
  have hd := toDocument_parcels ["width"] ["address"]
  refine ⟨_, hd, parcelModel ["width"] ["address"], List.mem_cons_self, List.cons_ne_nil _ _, ?_⟩
  exact toDocument_optional_iff hd List.mem_cons_self (List.cons_ne_nil _ _)

/-- The parcel requires a width, which its part gives, and the width can be left out. -/
theorem parcel_not_optionalTogether :
    (parcels [] ["width"]).toDocument [] = .ok { models := [parcelModel [] ["width"]] } ∧
    (parcels [] ["width"]).ComesTo (.declare (parcel [] ["width"])) ∧
    (parcel [] ["width"]).isModelled = true ∧
    (parcelModel [] ["width"]).properties.map Property.slot =
      (parcel [] ["width"]).pieces.flatMap slots ∧
    ¬ (parcel [] ["width"]).OptionalTogether (parcelModel [] ["width"]).properties := by
  refine ⟨toDocument_parcels _ _, ⟨.declare (parcel [] ["width"]), ?_, .refl⟩, by decide, by decide,
    fun hall => ?_⟩
  · rw [Schema.tasks, orderedDefs_parcels]
    exact List.mem_append_left _ List.mem_cons_self
  · have hwidth : (parcel [] ["width"]).RequiresTogether "width" :=
      ⟨parcel [] ["width"], List.mem_append_right _ List.mem_cons_self, by decide⟩
    exact (hall _ List.mem_cons_self).mp rfl "width" hwidth rfl

end Schema

end SchemaLoom

import SchemaLoom.Proofs.Materials
import SchemaLoom.Proofs.PropertyLists
import SchemaLoom.Proofs.Recording

/-!
# Properties in source order

Every list of properties of an imported document consists of stretches, one for each schema
whose properties are in it. A stretch that stands for a schema as it is written has the order
of the mapping it was written with. A stretch that stands for the copy of a schema for one of
its types has ascending order, whatever the source says: the copy has no recorded order.

Properties of a mapping that does not stand in its place itself, but behind an alias or under
a key that is repeated further down, have no place in this order.
-/

namespace SchemaLoom

set_option autoImplicit false

/-! ### Lists of properties -/

section Lists
variable {N : Text → Prop} {Q : List Property → Prop} {ps : List Property}

theorem TypeRef.MadeOf.of_lists {t : TypeRef} (h : t.MadeOf N Q) (hps : t.Lists ps) : Q ps := by
  induction hps with
  | own heq =>
    cases h <;> cases heq
    assumption
  | array heq _ ih =>
    cases h <;> cases heq
    exact ih (by assumption)
  | record heq _ ih =>
    cases h <;> cases heq
    exact ih (by assumption)
  | union heq hmem _ ih =>
    cases h <;> cases heq
    rename_i hall
    exact ih (hall _ hmem)
  | tuple heq hmem _ ih =>
    cases h <;> cases heq
    rename_i hall
    exact ih (hall _ hmem)
  | object heq hmem _ ih =>
    cases h <;> cases heq
    rename_i hall
    exact ih (hall _ hmem)

theorem Document.MadeOf.of_lists {d : Document} (h : d.MadeOf N Q Q) (hps : d.Lists ps) :
    Q ps := by
  cases hps with
  | model hm heq => exact heq ▸ (h.models _ hm).listed
  | base hm ht hps => exact ((h.models _ hm).base _ ht).of_lists hps
  | source hm ht hps => exact ((h.models _ hm).source _ ht).of_lists hps
  | property hm hp hps => exact ((h.models _ hm).properties _ hp).of_lists hps
  | variant hu hv hps => exact (h.unions _ hu _ hv).of_lists hps

end Lists

/-! ### Orders of keys -/

theorem firstOccurrences_sublist (ks : List String) : (firstOccurrences ks).Sublist ks := by
  induction ks with
  | nil => exact .slnil
  | cons k ks ih => exact (List.filter_sublist.trans ih).cons_cons k

/-- Of the keys in the list known first, the order is that of the list. -/
theorem filter_orderedKeys_sublist (known keys : List String) :
    ((orderedKeys known keys).filter known.contains).Sublist known := by
  have hrest : (keys.filter fun k => !known.contains k).filter known.contains = [] := by
    simp [List.filter_filter]
  rw [orderedKeys, List.filter_append, hrest, List.append_nil]
  exact List.filter_sublist.trans ((firstOccurrences_sublist _).trans List.filter_sublist)

namespace Schema

theorem orderedKeys_nil (keys : List String) : orderedKeys [] keys = keys := by
  simp [orderedKeys, firstOccurrences]

/-- The property names of a schema with its subschemas in order are in order. -/
theorem Sorted.pairwise_propertyKeys {s : Schema} (h : s.Sorted) :
    s.propertyKeys.Pairwise (· < ·) := by
  refine List.Pairwise.filterMap _ ?_ h
  rintro ⟨l, c⟩ ⟨l', c'⟩ hbefore k hk k' hk'
  cases l <;> cases hk
  cases l' <;> cases hk'
  simpa [Location.rank, Location.index, Location.key] using Location.before_iff.mp hbefore

theorem Sorted.perm_orderedProperties {s : Schema} (h : s.Sorted) :
    s.orderedProperties.Perm s.propertyKeys := by
  have hnodup : s.propertyKeys.Nodup := h.pairwise_propertyKeys.nodup
  exact (List.perm_ext_iff_of_nodup (nodup_orderedKeys hnodup) hnodup).mpr fun _ => mem_orderedKeys

/-! ### Schemas that are come to -/

/-- A schema stands in a root: at some position, or as a copy of what stands there for one of its
types. -/
inductive StandsIn (root : Schema) : Schema → Prop
  | written {p : Position} {s : Schema} : root.at? p = some s → StandsIn root s
  | typed {p : Position} {s : Schema} {type : String} : root.at? p = some s →
      type ∈ s.keywords.types.getD [] → StandsIn root (s.ofType type)

theorem Tidy.at? {root s : Schema} {p : Position} (h : root.Tidy) (hs : root.at? p = some s) :
    s.Tidy := by
  induction p generalizing root with
  | nil =>
    cases hs
    exact h
  | cons l p ih =>
    obtain ⟨c, hc, hs⟩ := Option.bind_eq_some_iff.mp hs
    exact ih (h.child hc) hs

variable {root s c : Schema}

theorem StandsIn.tidy (hroot : root.Tidy) (h : root.StandsIn s) : s.Tidy := by
  cases h with
  | written hs => exact hroot.at? hs
  | typed hs => exact (hroot.at? hs).mapKeywords _

theorem StandsIn.child (hroot : root.Tidy) (h : root.StandsIn s) {l : Location}
    (hc : (l, c) ∈ s.children) : root.StandsIn c := by
  have hat : ∀ {p : Position} {s : Schema}, root.at? p = some s → (l, c) ∈ s.children →
      root.StandsIn c := by
    intro p s hs hc
    refine .written (p := p ++ [l]) ?_
    rw [at?_append, hs]
    simp [Schema.at?, child?_of_mem (hroot.at? hs).sorted.distinct hc]
  cases h with
  | written hs => exact hat hs hc
  | typed hs => exact hat hs hc

/-- A copy for a type has no types itself. -/
theorem StandsIn.ofType (h : root.StandsIn s) {type : String}
    (htype : type ∈ s.keywords.types.getD []) : root.StandsIn (s.ofType type) := by
  cases h with
  | written hs => exact .typed hs htype
  | typed => cases htype

end Schema

namespace Task
variable {s : Schema} {t u : Task}

theorem schema_of_mem_fields (h : u ∈ fields s) : ∃ l, (l, u.schema) ∈ s.children := by
  obtain ⟨key, hkey, rfl⟩ := List.mem_map.mp h
  have hsome := Schema.mem_propertyKeys.mp (mem_orderedKeys.mp hkey)
  obtain ⟨c, hc⟩ := Option.isSome_iff_exists.mp hsome
  rw [hc]
  exact ⟨_, Schema.mem_of_child? hc⟩

/-- What holds of a schema holds of its subschemas and of its copies for a type. -/
structure Inherited (P : Schema → Prop) : Prop where
  child : ∀ {s : Schema} {l : Location} {c : Schema}, P s → (l, c) ∈ s.children → P c
  ofType : ∀ {s : Schema} {type : String}, P s → type ∈ s.keywords.types.getD [] →
    P (s.ofType type)

namespace Inherited
variable {P : Schema → Prop}

theorem under (hP : Inherited P) {l : Location} {c : Schema} (hs : P s)
    (hc : c ∈ (s.under l).map (·.2)) : P c := by
  obtain ⟨⟨_, c⟩, hmem, rfl⟩ := List.mem_map.mp hc
  exact hP.child hs (List.mem_filter.mp hmem).1

theorem extra (hP : Inherited P) {a : Schema} (hs : P s) (ha : s.extraProperties? = some a) :
    P a :=
  hP.child hs (Schema.mem_of_child? (Option.filter_eq_some_iff.mp ha).1)

theorem elements (hP : Inherited P) {c : Schema} (hs : P s) (hc : c ∈ s.elements) : P c := by
  unfold Schema.elements at hc
  split at hc
  · exact hP.child hs (Schema.mem_of_child? (Option.mem_toList.mp hc))
  · exact hP.under hs hc

theorem alternatives (hP : Inherited P) {c : Schema} (hs : P s) (hc : c ∈ s.alternatives) :
    P c := by
  unfold Schema.alternatives at hc
  rcases List.mem_append.mp hc with hc | hc
  · rw [List.map_append] at hc
    exact (List.mem_append.mp hc).elim (hP.under hs) (hP.under hs)
  · obtain ⟨type, hmem, rfl⟩ := List.mem_map.mp hc
    exact hP.ofType hs (List.mem_filter.mp hmem).1

theorem fields (hP : Inherited P) (hs : P s) (hu : u ∈ fields s) : P u.schema := by
  obtain ⟨l, hl⟩ := schema_of_mem_fields hu
  exact hP.child hs hl

theorem inline {cs : List Schema} (h : ∀ c ∈ cs, P c) (hu : u ∈ cs.flatMap inline) :
    P u.schema := by
  obtain ⟨c, hc, hu⟩ := List.mem_flatMap.mp hu
  rw [schema_of_mem_inline hu]
  exact h c hc

theorem object (hP : Inherited P) (hs : P s) (hu : u ∈ object s) : P u.schema := by
  unfold Task.object at hu
  split at hu
  · rename_i a ha
    split at hu
    · rw [schema_of_mem_inline hu]
      exact hP.extra hs ha
    · rw [List.mem_singleton.mp hu]
      exact hs
  · exact hP.fields hs hu

/-- What is inherited holds of the schemas of all the tasks that a task needs. -/
theorem needs (hP : Inherited P) (ht : P t.schema) (h : t.Needs u) : P u.schema := by
  unfold Needs at h
  cases t with
  | declare s =>
    change P s at ht
    rw [Task.needs] at h
    split at h
    · cases h
    split at h
    · exact inline (fun _ => hP.alternatives ht) h
    split at h
    · rw [List.mem_singleton.mp h]
      exact ht
    split at h
    · rcases List.mem_append.mp h with h | h
      · rcases List.mem_append.mp h with h | h
        · obtain ⟨part, hpart, h⟩ := List.mem_flatMap.mp h
          exact hP.fields (hP.under ht (List.mem_filter.mp hpart).1) h
        · exact hP.fields ht h
      · exact inline (fun a ha => hP.extra ht (Option.mem_toList.mp ha)) h
    · cases h
  | refer s =>
    change P s at ht
    rw [Task.needs] at h
    split at h
    · cases h
    split at h
    · exact inline (fun _ => hP.alternatives ht) h
    split at h
    · rename_i part hparts
      split at h
      · rw [List.mem_singleton.mp h]
        exact ht
      · rw [List.mem_singleton.mp h]
        refine hP.under (l := .allOf 0) ht ?_
        change part ∈ s.parts
        simp [hparts]
    · rw [List.mem_singleton.mp h]
      exact ht
    · split at h
      · exact inline (fun _ => hP.elements ht) h
      · split at h
        · exact hP.object ht h
        · cases h

end Inherited

end Task

/-! ### Stretches -/

namespace Schema

/-- The properties of one schema, in order. For a schema as it is written, those that the mapping of
the source has (the last one, if several stand in its place) are in the order of that mapping. A
copy for a type has all of them in ascending order. -/
def Stretch (root : Schema) (source : Option Yaml.Document) (keys : List String) : Prop :=
  ∃ p s, root.at? p = some s ∧ keys.Perm s.propertyKeys ∧
    ((∀ m, (propertiesAt source p).getLast? = some m →
        (keys.filter (keysOf m).contains).Sublist (keysOf m)) ∨
      s.hasTypes = true ∧ keys.Pairwise (· < ·))

theorem stretch_of_standsIn {s root : Schema} {source : Option Yaml.Document}
    (hroot : (root.withOrder source).Tidy) (h : (root.withOrder source).StandsIn s) :
    (root.withOrder source).Stretch source s.orderedProperties := by
  cases h with
  | @written p s hs =>
    refine ⟨p, s, hs, (hroot.at? hs).sorted.perm_orderedProperties, .inl fun m hm => ?_⟩
    -- nothing is recorded at `null`, which has no properties either
    cases hnull : s.isNull with
    | true =>
      cases s with
      | null => exact List.nil_sublist _
      | node => cases hnull
    | false =>
      rw [orderedProperties, propertyOrder_withOrder hs hnull hm]
      exact filter_orderedKeys_sublist _ _
  | @typed p s type hs htype =>
    have hcopy : (s.ofType type).orderedProperties = s.propertyKeys := orderedKeys_nil _
    rw [hcopy]
    refine ⟨p, s, hs, .refl _, .inr ⟨?_, (hroot.at? hs).sorted.pairwise_propertyKeys⟩⟩
    unfold hasTypes
    cases htypes : s.keywords.types.getD [] with
    | nil =>
      rw [htypes] at htype
      cases htype
    | cons => rfl

/-- A list of properties that consists of stretches. -/
def InStretches (root : Schema) (source : Option Yaml.Document) (ps : List Property) : Prop :=
  ∃ stretches : List (List String), ps.map (·.name) = stretches.flatten.map Text.ofString ∧
    ∀ keys ∈ stretches, root.Stretch source keys

theorem standsIn_inherited {root : Schema} (hroot : root.Tidy) :
    Task.Inherited root.StandsIn where
  child := fun hs hc => hs.child hroot hc
  ofType := fun hs htype => hs.ofType htype

theorem materials_of_order {root : Schema} {source : Option Yaml.Document}
    (hroot : (root.withOrder source).Tidy) :
    Import.Materials (root.withOrder source) (fun t => (root.withOrder source).StandsIn t.schema)
      (fun _ => True) (fun _ => True) ((root.withOrder source).InStretches source)
      ((root.withOrder source).InStretches source) where
  needs := (standsIn_inherited hroot).needs
  definition := fun _ => trivial
  builtIn := fun _ => trivial
  fresh := fun _ _ => ⟨trivial, trivial⟩
  none := ⟨[], rfl, nofun⟩
  model := by
    intro s ps hs _ hps
    refine ⟨s.pieces.map orderedProperties, ?_, ?_⟩
    · rw [names_of_slots hps, ← List.flatMap_def]
    · intro keys hkeys
      obtain ⟨c, hc, rfl⟩ := List.mem_map.mp hkeys
      apply stretch_of_standsIn hroot
      rcases List.mem_append.mp hc with hc | hc
      · obtain ⟨⟨l, c⟩, hmem, rfl⟩ := List.mem_map.mp (List.mem_filter.mp hc).1
        exact StandsIn.child hroot hs (List.mem_filter.mp hmem).1
      · exact List.mem_singleton.mp hc ▸ hs
  object := by
    intro s ps hs hps
    have hslots : ps.map Property.slot = [s].flatMap slots := by rwa [List.flatMap_singleton]
    refine ⟨[s.orderedProperties], ?_, List.forall_mem_singleton.mpr (stretch_of_standsIn hroot hs)⟩
    rw [names_of_slots hslots, List.flatMap_singleton, List.flatten_singleton]

theorem standsIn_of_tasks {root : Schema} {t : Task} (ht : t ∈ root.tasks) :
    root.StandsIn t.schema := by
  rcases List.mem_append.mp ht with ht | ht
  · obtain ⟨n, hn, rfl⟩ := List.mem_map.mp ht
    obtain ⟨c, hc⟩ := Option.isSome_iff_exists.mp (mem_orderedDefs.mp hn)
    rw [Task.schema, hc, Option.getD_some]
    rcases Option.or_eq_some_iff.mp hc with hc | ⟨_, hc⟩
    · exact .written (p := [.def_ n]) (by simp [at?, hc])
    · exact .written (p := [.definition n]) (by simp [at?, hc])
  · split at ht
    · rw [List.mem_singleton.mp ht]
      exact .written (p := []) rfl
    · cases ht

/-- Every list of properties in the document of a loaded schema consists of stretches, each the
properties of one schema: in the order of the source, unless it is a copy for one of the types of
the schema. -/
theorem toDocument_order {read : ReadFile} {path name : Text} {root : Schema} {d : Document}
    (hload : load read path = .ok root) (h : root.toDocument name = .ok d) :
    ∃ t source, read path = .ok t ∧ Yaml.parse t = .ok source ∧
      ∀ ps, d.Lists ps → root.InStretches source ps := by
  obtain ⟨t, ht, hparse⟩ := Result.bind_eq_ok.mp hload
  have hparse := Result.within_eq_ok.mp hparse
  have hroot := tidy_of_parse hparse
  obtain ⟨u, _, hparse⟩ := Result.bind_eq_ok.mp hparse
  obtain ⟨source, hsource, hparse⟩ := Result.bind_eq_ok.mp hparse
  cases hparse
  refine ⟨t, source, ht, hsource, fun ps hps => ?_⟩
  obtain ⟨⟨_, last⟩, hlast, h⟩ := Result.bind_eq_ok.mp h
  cases h
  have hsound := Import.sound_document (materials_of_order hroot)
    (fun _ ht => standsIn_of_tasks ht) trivial hlast
  exact hsound.2.of_lists hps

/-- Properties of the root, of an item below it, of a definition and of a part of that. -/
def shelf : Files where
  entries := [("shelf.json",
    "\x7b\"properties\":\x7b\"rows\":\x7b\"items\":\x7b\"properties\":\x7b\"y\":\x7b" ++
    "\x7d,\"b\":\x7b\x7d\x7d\x7d\x7d,\"label\":\x7b\x7d\x7d,\"$defs\":\x7b\"Box\":\x7b" ++
    "\"allOf\":[\x7b\"properties\":\x7b\"w\":\x7b\x7d,\"h\":\x7b\x7d\x7d\x7d],\"propert" ++
    "ies\":\x7b\"name\":\x7b\x7d,\"id\":\x7b\x7d\x7d\x7d\x7d\x7d")]

set_option maxRecDepth 100000 in
theorem shelf_runs :
    ((load shelf.read "shelf.json").toOption.bind fun root => do
      let d ← (root.toDocument "Shelf").toOption
      pure (d.models.map fun m => m.properties.map (·.name))) =
      some ([["w", "h", "name", "id"], ["rows", "label"]] : List (List Text)) := by
  decide +kernel

/-- Where no schema has a list of types, the document has the order of the source. -/
theorem toDocument_order_shelf : ∃ root d t source, load shelf.read "shelf.json" = .ok root ∧
    root.toDocument "Shelf" = .ok d ∧ shelf.read "shelf.json" = .ok t ∧
    Yaml.parse t = .ok source ∧
    d.models.map (fun m => m.properties.map (·.name)) =
      ([["w", "h", "name", "id"], ["rows", "label"]] : List (List Text)) ∧
    ∀ ps, d.Lists ps → root.InStretches source ps := by
  obtain ⟨root, hroot, h⟩ := Option.bind_eq_some_iff.mp shelf_runs
  obtain ⟨d, hd, hnames⟩ := Option.bind_eq_some_iff.mp h
  have hload := Result.ok_of_toOption hroot
  have himport := Result.ok_of_toOption hd
  obtain ⟨t, source, ht, hsource, hall⟩ := toDocument_order hload himport
  exact ⟨root, d, t, source, hload, himport, ht, hsource, Option.some.inj hnames, hall⟩

/-- A definition with two types, one of them for objects. -/
def typedPair : Files where
  entries := [("pair.json",
    "\x7b\"$defs\":\x7b\"Pair\":\x7b\"type\":[\"object\",\"null\"],\"properties\":\x7b" ++
    "\"z\":\x7b\x7d,\"a\":\x7b\x7d\x7d\x7d\x7d\x7d")]

set_option maxRecDepth 100000 in
theorem typedPair_runs :
    ((load typedPair.read "pair.json").toOption.bind fun root => do
      let d ← (root.toDocument []).toOption
      let t ← (typedPair.read "pair.json").toOption
      let source ← (Yaml.parse t).toOption
      pure ((d.unions.flatMap (·.variants)).map fun v => v.type.object.map (·.map (·.name)),
        (propertiesAt source [.def_ "Pair"]).map keysOf)) =
      some ([some (["a", "z"] : List Text), none], [["z", "a"]]) := by
  decide +kernel

/-- The one mapping of the source has `z` before `a`, and the document has them the other way. -/
theorem typedPair_not_source_order : ∃ root d t source ps,
    load typedPair.read "pair.json" = .ok root ∧ root.toDocument [] = .ok d ∧
    typedPair.read "pair.json" = .ok t ∧ Yaml.parse t = .ok source ∧
    (propertiesAt source [.def_ "Pair"]).map keysOf = [["z", "a"]] ∧
    d.Lists ps ∧ ps.map (·.name) = ["a", "z"] := by
  obtain ⟨root, hroot, h⟩ := Option.bind_eq_some_iff.mp typedPair_runs
  obtain ⟨d, hd, h⟩ := Option.bind_eq_some_iff.mp h
  obtain ⟨t, ht, h⟩ := Option.bind_eq_some_iff.mp h
  obtain ⟨source, hsource, h⟩ := Option.bind_eq_some_iff.mp h
  obtain ⟨hnames, hkeys⟩ := Prod.mk.inj (Option.some.inj h)
  have hfirst : some (["a", "z"] : List Text) ∈
      (d.unions.flatMap (·.variants)).map fun v => v.type.object.map (·.map (·.name)) := by
    rw [hnames]
    exact List.mem_cons_self
  obtain ⟨v, hv, hobject⟩ := List.mem_map.mp hfirst
  obtain ⟨u, hu, hv⟩ := List.mem_flatMap.mp hv
  obtain ⟨ps, hps, hlist⟩ := Option.map_eq_some_iff.mp hobject
  exact ⟨root, d, t, source, ps, Result.ok_of_toOption hroot, Result.ok_of_toOption hd,
    Result.ok_of_toOption ht, Result.ok_of_toOption hsource, hkeys, .variant hu hv (.own hps),
    hlist⟩

end Schema

end SchemaLoom

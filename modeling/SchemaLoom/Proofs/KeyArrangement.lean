import SchemaLoom.Input
import SchemaLoom.Proofs.FileReferences
import SchemaLoom.Proofs.SourceOrder

/-!
# Arrangements of keys

The order that is recorded for the keys of a map can be at odds with the map in every way: it
may repeat keys, miss some and have others, and the schema a reference to a file stood for
leaves its order to the one that takes its place. Names are neither lost nor added nor
repeated by that. Only where they stand depends on it.
-/

namespace SchemaLoom

set_option autoImplicit false

/-- One key stands before another by a list of known keys and, among those it does not have, in
ascending order. -/
inductive Precedes (known : List String) (a b : String) : Prop
  | occurrence : a ∈ known → b ∈ known → known.idxOf a < known.idxOf b → Precedes known a b
  | unknown : a ∈ known → b ∉ known → Precedes known a b
  | ascending : a ∉ known → b ∉ known → a < b → Precedes known a b

theorem Precedes.asymm {known : List String} {a b : String} (hab : Precedes known a b) :
    ¬ Precedes known b a := by
  intro hba
  cases hab with
  | occurrence ha hb hlt =>
    cases hba with
    | occurrence _ _ hlt' => omega
    | unknown _ hnot => exact hnot ha
    | ascending hnot _ _ => exact hnot hb
  | unknown ha hb =>
    cases hba with
    | occurrence hb' _ _ => exact hb hb'
    | unknown hb' _ => exact hb hb'
    | ascending _ hnot _ => exact hnot ha
  | ascending ha hb hlt =>
    cases hba with
    | occurrence hb' _ _ => exact hb hb'
    | unknown hb' _ => exact hb hb'
    | ascending _ _ hlt' => exact String.lt_asymm hlt hlt'

/-- A list has every key that is present once, no other key, and each where it belongs. -/
structure Arranges (known : List String) (present : String → Prop) (out : List String) :
    Prop where
  once : ∀ k, present k → out.count k = 1
  only : ∀ k ∈ out, present k
  ordered : out.Pairwise (Precedes known)

namespace Arranges
variable {known out out' : List String} {present present' : String → Prop}

theorem mem_iff (h : Arranges known present out) {k : String} : k ∈ out ↔ present k := by
  refine ⟨h.only k, fun hk => List.count_pos_iff.mp ?_⟩
  rw [h.once k hk]
  exact Nat.one_pos

theorem nodup (h : Arranges known present out) : out.Nodup :=
  h.ordered.imp fun hab heq => (heq ▸ hab).asymm (heq ▸ hab)

theorem congr (h : Arranges known present out) (hpresent : ∀ k, present k ↔ present' k) :
    Arranges known present' out where
  once k hk := h.once k ((hpresent k).mpr hk)
  only k hk := (hpresent k).mp (h.only k hk)
  ordered := h.ordered

/-- There is one way to arrange the keys of a map. -/
theorem unique (h : Arranges known present out) (h' : Arranges known present out') :
    out = out' := by
  have hperm : out.Perm out' :=
    (List.perm_ext_iff_of_nodup h.nodup h'.nodup).mpr fun _ => h.mem_iff.trans h'.mem_iff.symm
  refine hperm.eq_of_pairwise ?_ h.ordered h'.ordered
  intro a b _ _ hab hba
  exact absurd hba hab.asymm

end Arranges

/-! ### Ordered keys -/

/-- A key at the head moves all others by one place. -/
theorem pairwise_idxOf_cons {a : String} {ks out : List String} (hne : ∀ k ∈ out, k ≠ a)
    (h : out.Pairwise fun b c => ks.idxOf b < ks.idxOf c) :
    out.Pairwise fun b c => (a :: ks).idxOf b < (a :: ks).idxOf c := by
  refine h.imp_of_mem fun {b c} hb hc hlt => ?_
  rw [List.idxOf_cons_ne ks (hne b hb).symm, List.idxOf_cons_ne ks (hne c hc).symm]
  exact Nat.succ_lt_succ hlt

theorem pairwise_firstOccurrences (ks : List String) (p : String → Bool) :
    (firstOccurrences (ks.filter p)).Pairwise fun b c => ks.idxOf b < ks.idxOf c := by
  induction ks with
  | nil => exact .nil
  | cons a ks ih =>
    by_cases hp : p a = true
    · rw [List.filter_cons_of_pos hp, firstOccurrences]
      have hne : ∀ k ∈ (firstOccurrences (ks.filter p)).filter (· != a), k ≠ a := by
        intro k hk
        exact bne_iff_ne.mp (List.mem_filter.mp hk).2
      refine List.pairwise_cons.mpr ⟨?_, pairwise_idxOf_cons hne (ih.filter _)⟩
      intro k hk
      rw [List.idxOf_cons_self, List.idxOf_cons_ne ks (hne k hk).symm]
      exact Nat.succ_pos _
    · -- what is left out is not among the keys that are kept
      rw [List.filter_cons_of_neg hp]
      refine pairwise_idxOf_cons ?_ ih
      rintro k hk rfl
      exact hp (List.mem_filter.mp (((firstOccurrences_spec _).2 k).mp hk)).2

theorem pairwise_orderedKeys (known : List String) {keys : List String}
    (h : keys.Pairwise (· < ·)) : (orderedKeys known keys).Pairwise (Precedes known) := by
  have hfirst : ∀ k ∈ firstOccurrences (known.filter keys.contains), k ∈ known := by
    intro k hk
    exact (List.mem_filter.mp (((firstOccurrences_spec _).2 k).mp hk)).1
  have hrest : ∀ k ∈ keys.filter (fun k => !known.contains k), k ∉ known := by
    intro k hk
    simpa using (List.mem_filter.mp hk).2
  refine List.pairwise_append.mpr ⟨?_, ?_, ?_⟩
  · exact (pairwise_firstOccurrences known _).imp_of_mem fun ha hb hlt =>
      .occurrence (hfirst _ ha) (hfirst _ hb) hlt
  · exact (h.filter _).imp_of_mem fun ha hb hlt => .ascending (hrest _ ha) (hrest _ hb) hlt
  · exact fun a ha b hb => .unknown (hfirst a ha) (hrest b hb)

theorem arranges_orderedKeys (known : List String) {keys : List String}
    (h : keys.Pairwise (· < ·)) : Arranges known (· ∈ keys) (orderedKeys known keys) where
  once _ hk := List.count_eq_one_of_mem (nodup_orderedKeys h.nodup) (mem_orderedKeys.mpr hk)
  only _ := mem_orderedKeys.mp
  ordered := pairwise_orderedKeys known h

namespace Schema

/-! ### Properties and definitions -/

/-- The names of definitions of a schema with its subschemas in order are in order. -/
theorem Sorted.pairwise_defKeys {s : Schema} (h : s.Sorted) : s.defKeys.Pairwise (· < ·) := by
  have hle : s.defKeys.Pairwise fun a b => decide (a ≤ b) = true := by
    refine List.pairwise_mergeSort ?_ ?_ _
    · intro a b c hab hbc
      exact decide_eq_true (String.le_trans (of_decide_eq_true hab) (of_decide_eq_true hbc))
    · intro a b
      simpa using String.le_total a b
  refine (hle.and h.distinct.nodup_defKeys).imp ?_
  rintro a b ⟨hab, hne⟩
  exact Std.lt_of_le_of_ne (of_decide_eq_true hab) hne

/-- The properties and the definitions of a schema are arranged by the order recorded for it. -/
structure Arranged (s : Schema) : Prop where
  properties : Arranges (s.keywords.propertyOrder.getD [])
    (fun k => (s.property? k).isSome = true) s.orderedProperties
  defs : Arranges (s.keywords.defOrder.getD []) (fun k => (s.def? k).isSome = true)
    s.orderedDefs

theorem Sorted.arranged {s : Schema} (h : s.Sorted) : s.Arranged where
  properties := (arranges_orderedKeys _ h.pairwise_propertyKeys).congr fun _ => mem_propertyKeys
  defs := (arranges_orderedKeys _ h.pairwise_defKeys).congr fun _ => mem_defKeys

/-! ### Files in place -/

/-- Files that take the place of references leave a schema with its subschemas in order. -/
theorem Inlined.tidy {read : ReadFile} {folder : Text} {s s' : Schema}
    (h : Inlined read folder s s') (hs : s.Tidy) : s'.Tidy := by
  induction h with
  | null => exact hs
  | @kept folder k cs ds _ hlocations _ ih =>
    obtain ⟨hsorted, hchildren⟩ := tidy_iff.mp hs
    refine .node ?_ ?_
    · -- the order is one of locations, which are the same
      have hbefore : (cs.map (·.1)).Pairwise fun a b => a.before b = true :=
        List.pairwise_map.mpr hsorted
      rw [← hlocations] at hbefore
      exact List.pairwise_map.mp hbefore
    · intro d hd
      obtain ⟨i, hi⟩ := List.mem_iff_getElem?.mp hd
      have hlen : ds.length = cs.length := by simpa using congrArg List.length hlocations
      obtain ⟨c, hc⟩ : ∃ c, cs[i]? = some c := by
        have hlt : i < ds.length := (List.getElem?_eq_some_iff.mp hi).1
        exact ⟨_, List.getElem?_eq_getElem (hlen ▸ hlt)⟩
      exact ih i c d hc hi (hchildren c (List.mem_of_getElem? hc))
  | file _ hload _ ih => exact (ih (tidy_of_load hload)).mapKeywords _

theorem tidy_of_loadResolved {read : ReadFile} {fuel : Nat} {path : Text} {root : Schema}
    (h : loadResolved read fuel path = .ok root) : root.Tidy := by
  obtain ⟨s, hs, h⟩ := Result.bind_eq_ok.mp h
  exact (inlined_of_resolveFiles h).tidy (tidy_of_load hs)

/-- Whatever the list of known keys is, the keys of a map, given in ascending order, come out
arranged by it, and no other list is that. So the properties and definitions of every schema are
arranged: by an order recorded for it, by one that the reference it has taken the place of has
left to it, and wherever an import can come to once the files are in place. -/
theorem keys_arranged :
    (∀ known keys out : List String, keys.Pairwise (· < ·) →
      (orderedKeys known keys = out ↔ Arranges known (· ∈ keys) out)) ∧
    (∀ s : Schema, s.Sorted → s.Arranged) ∧
    (∀ s loaded : Schema, loaded.Sorted →
      Arranges ((loaded.keywords.propertyOrder.or s.keywords.propertyOrder).getD [])
        (fun k => (loaded.property? k).isSome = true) (s.replaceBy loaded).orderedProperties ∧
      Arranges ((loaded.keywords.defOrder.or s.keywords.defOrder).getD [])
        (fun k => (loaded.def? k).isSome = true) (s.replaceBy loaded).orderedDefs) ∧
    ∀ (read : ReadFile) (fuel : Nat) (path : Text) (root s : Schema),
      loadResolved read fuel path = .ok root → root.StandsIn s → s.Arranged := by
  refine ⟨?_, fun s => Sorted.arranged, ?_, ?_⟩
  · intro known keys out h
    have harranged := arranges_orderedKeys known h
    exact ⟨fun heq => heq ▸ harranged, harranged.unique⟩
  · intro s loaded h
    have harranged : (s.replaceBy loaded).Arranged := Sorted.arranged h
    exact ⟨harranged.properties, harranged.defs⟩
  · intro read fuel path root s hroot hs
    exact (hs.tidy (tidy_of_loadResolved hroot)).sorted.arranged

/-- Properties without a recorded order. -/
def unordered : Schema :=
  node {} [(.property "a", .blank), (.property "b", .blank), (.property "c", .blank)]

/-- They have an order that repeats one of them and has one that is not there. -/
def repeatedOrder : Schema :=
  unordered.mapKeywords ({ · with propertyOrder := some ["b", "x", "b"] })

/-- A reference with properties beside it, to a file whose own properties are under a keyword that
no order is recorded for. -/
def staleOrder : Files where
  entries :=
    [("main.json",
      "\x7b\"$ref\":\"other.json\",\"properties\":\x7b\"q\":\x7b\x7d,\"x\":\x7b\x7d\x7d\x7d"),
     ("other.json",
      "\x7b\"Properties\":\x7b\"x\":\x7b\x7d,\"b\":\x7b\x7d,\"a\":\x7b\x7d\x7d\x7d")]

set_option maxRecDepth 100000 in
theorem staleOrder_runs :
    (loadResolved staleOrder.read 2 "main.json").toOption.map (fun root =>
      (root.keywords.propertyOrder, root.orderedProperties)) =
      some (some ["q", "x"], ["x", "a", "b"]) := by
  decide +kernel

/-- The property that is known comes first: of keys alone, of a schema with such an order, where
a reference has left the order behind, and after loading. -/
theorem keys_arranged_staleOrder :
    (["a", "b", "c"].Pairwise (· < ·) ∧
      Arranges ["b", "x", "b"] (· ∈ ["a", "b", "c"]) ["b", "a", "c"]) ∧
    (repeatedOrder.Sorted ∧ repeatedOrder.Arranged) ∧
    (unordered.Sorted ∧
      (repeatedOrder.replaceBy unordered).orderedProperties = ["b", "a", "c"] ∧
      Arranges ["b", "x", "b"] (fun k => (unordered.property? k).isSome = true)
        (repeatedOrder.replaceBy unordered).orderedProperties) ∧
    ∃ root, loadResolved staleOrder.read 2 "main.json" = .ok root ∧ root.StandsIn root ∧
      root.keywords.propertyOrder = some ["q", "x"] ∧
      root.orderedProperties = ["x", "a", "b"] ∧ root.Arranged := by
  obtain ⟨hlists, hschemas, hreplaced, hloaded⟩ := keys_arranged
  have hascending : ["a", "b", "c"].Pairwise (· < ·) := by decide
  have hunordered : unordered.Sorted := by
    unfold Schema.Sorted
    decide
  have hrepeated : repeatedOrder.Sorted := hunordered
  obtain ⟨root, hroot, hruns⟩ := Option.map_eq_some_iff.mp staleOrder_runs
  obtain ⟨horder, hkeys⟩ := Prod.mk.inj hruns
  have hload := Result.ok_of_toOption hroot
  have hstands : root.StandsIn root := .written (p := []) rfl
  exact ⟨⟨hascending, (hlists _ _ _ hascending).mp (by decide)⟩,
    ⟨hrepeated, hschemas _ hrepeated⟩,
    ⟨hunordered, by decide, (hreplaced repeatedOrder _ hunordered).1⟩,
    root, hload, hstands, horder, hkeys, hloaded _ _ _ _ _ hload hstands⟩

end Schema

end SchemaLoom

import Mathlib.Data.Finset.Card
import Mathlib.Data.Finset.SDiff
import SchemaLoom.Yaml.Decode

/-!
# The nodes that a reading can come to

The nodes of a tree, and with those of the anchored trees the region of a node:
whatever a reading reaches from the node, through items, entries and aliases, lies
there. A region has as many nodes as its trees have together, which is what depth
is counted in.

An alias can be entered once at most while its node is read, so a chain of merged
mappings ends: from one of them to the next either an alias is used up, or the
mapping becomes smaller.
-/

namespace SchemaLoom.Yaml

set_option autoImplicit false

namespace Node

mutual
/-- The nodes of a tree, its root first. -/
def parts : Node → List Node
  | scalar line tag text => [scalar line tag text]
  | aliasOf line name target occurrence => [aliasOf line name target occurrence]
  | sequence line tag items => sequence line tag items :: partsAll items
  | mapping line tag entries => mapping line tag entries :: partsEntries entries

def partsAll : List Node → List Node
  | [] => []
  | n :: ns => n.parts ++ partsAll ns

def partsEntries : List (Node × Node) → List Node
  | [] => []
  | e :: es => partsEntry e ++ partsEntries es

def partsEntry : Node × Node → List Node
  | (k, v) => k.parts ++ v.parts
end

mutual
theorem length_parts (n : Node) : n.parts.length = n.size := by
  cases n with
  | scalar | aliasOf => simp [parts, size]
  | sequence line tag items => simp [parts, size, length_partsAll items, Nat.add_comm]
  | mapping line tag entries => simp [parts, size, length_partsEntries entries, Nat.add_comm]

theorem length_partsAll (ns : List Node) : (partsAll ns).length = sizeAll ns := by
  cases ns with
  | nil => simp [partsAll, sizeAll]
  | cons n ns => simp [partsAll, sizeAll, length_parts n, length_partsAll ns]

theorem length_partsEntries (es : List (Node × Node)) :
    (partsEntries es).length = sizeEntries es := by
  cases es with
  | nil => simp [partsEntries, sizeEntries]
  | cons e es => simp [partsEntries, sizeEntries, length_partsEntry e, length_partsEntries es]

theorem length_partsEntry (e : Node × Node) : (partsEntry e).length = sizeEntry e := by
  cases e with
  | mk k v => simp [partsEntry, sizeEntry, length_parts k, length_parts v]
end

theorem mem_parts_self (n : Node) : n ∈ n.parts := by
  cases n <;> simp [parts]

theorem mem_partsAll {ns : List Node} {m : Node} :
    m ∈ partsAll ns ↔ ∃ n ∈ ns, m ∈ n.parts := by
  induction ns with
  | nil => simp [partsAll]
  | cons n ns ih => simp [partsAll, ih]

theorem mem_partsEntries {es : List (Node × Node)} {m : Node} :
    m ∈ partsEntries es ↔ ∃ e ∈ es, m ∈ e.1.parts ∨ m ∈ e.2.parts := by
  induction es with
  | nil => simp [partsEntries]
  | cons e es ih =>
    obtain ⟨k, v⟩ := e
    simp only [partsEntries, partsEntry, List.mem_append, ih, List.exists_mem_cons_iff]

mutual
/-- The tree of a node of a tree is a part of it as a whole. -/
theorem parts_sublist {m : Node} : (n : Node) → m ∈ n.parts → m.parts.Sublist n.parts
  | scalar .., h | aliasOf .., h => by
    simp only [parts, List.mem_singleton] at h
    exact h ▸ .refl _
  | sequence line tag items, h => by
    rcases List.mem_cons.mp h with rfl | h
    · exact .refl _
    · exact .cons _ (parts_sublist_all items h)
  | mapping line tag entries, h => by
    rcases List.mem_cons.mp h with rfl | h
    · exact .refl _
    · exact .cons _ (parts_sublist_entries entries h)

theorem parts_sublist_all {m : Node} :
    (ns : List Node) → m ∈ partsAll ns → m.parts.Sublist (partsAll ns)
  | n :: ns, h => by
    rcases List.mem_append.mp h with h | h
    · exact (parts_sublist n h).trans (List.sublist_append_left ..)
    · exact (parts_sublist_all ns h).trans (List.sublist_append_right ..)

theorem parts_sublist_entries {m : Node} :
    (es : List (Node × Node)) → m ∈ partsEntries es → m.parts.Sublist (partsEntries es)
  | e :: es, h => by
    rcases List.mem_append.mp h with h | h
    · exact (parts_sublist_entry e h).trans (List.sublist_append_left ..)
    · exact (parts_sublist_entries es h).trans (List.sublist_append_right ..)

theorem parts_sublist_entry {m : Node} :
    (e : Node × Node) → m ∈ partsEntry e → m.parts.Sublist (partsEntry e)
  | (k, v), h => by
    rcases List.mem_append.mp h with h | h
    · exact (parts_sublist k h).trans (List.sublist_append_left ..)
    · exact (parts_sublist v h).trans (List.sublist_append_right ..)
end

/-- The nodes of a tree and of the anchored trees. -/
def region (anchors : Anchors) (n : Node) : List Node := n.parts ++ partsAll anchors.toList

/-- How many nodes a region has. -/
def extent (anchors : Anchors) (n : Node) : Nat := n.size + sizeAll anchors.toList

end Node

open Yaml.Node

variable {anchors : Anchors} {m n : Node}

theorem length_region (anchors : Anchors) (n : Node) :
    (region anchors n).length = extent anchors n := by
  simp [region, extent, length_parts, length_partsAll]

theorem mem_region_self (anchors : Anchors) (n : Node) : n ∈ region anchors n :=
  List.mem_append_left _ (mem_parts_self n)

/-- The tree of a node of a region lies in one of the trees of the region. -/
theorem parts_sublist_region (h : m ∈ region anchors n) :
    m.parts.Sublist n.parts ∨ m.parts.Sublist (partsAll anchors.toList) :=
  (List.mem_append.mp h).imp (parts_sublist n) (parts_sublist_all _)

theorem region_subset (h : m ∈ region anchors n) : region anchors m ⊆ region anchors n := by
  refine List.append_subset.mpr ⟨?_, List.subset_append_right ..⟩
  rcases parts_sublist_region h with h | h
  · exact fun l hl => List.mem_append_left _ (h.subset hl)
  · exact fun l hl => List.mem_append_right _ (h.subset hl)

theorem size_le_extent (h : m ∈ region anchors n) : m.size ≤ extent anchors n := by
  have hsize := length_parts m
  have hn := length_parts n
  have hall := length_partsAll anchors.toList
  unfold extent
  rcases parts_sublist_region h with h | h
  all_goals
    have := h.length_le
    omega

theorem mem_region_of_parts {l : Node} (hm : m ∈ region anchors n) (hl : l ∈ m.parts) :
    l ∈ region anchors n :=
  region_subset hm (List.mem_append_left _ hl)

theorem mem_region_item {line : Nat} {tag : String} {items : List Node} {item : Node}
    (h : sequence line tag items ∈ region anchors n) (hitem : item ∈ items) :
    item ∈ region anchors n :=
  mem_region_of_parts h
    (List.mem_cons_of_mem _ (mem_partsAll.mpr ⟨item, hitem, mem_parts_self item⟩))

theorem mem_region_entry {e : Node × Node} (h : m ∈ region anchors n) (he : e ∈ m.entries) :
    e.1 ∈ region anchors n ∧ e.2 ∈ region anchors n := by
  cases m with
  | mapping line tag entries =>
    refine ⟨mem_region_of_parts h ?_, mem_region_of_parts h ?_⟩
    · exact List.mem_cons_of_mem _ (mem_partsEntries.mpr ⟨e, he, .inl (mem_parts_self e.1)⟩)
    · exact List.mem_cons_of_mem _ (mem_partsEntries.mpr ⟨e, he, .inr (mem_parts_self e.2)⟩)
  | scalar | sequence | aliasOf => cases he

theorem mem_region_target {target : Nat} (h : anchors[target]? = some m) :
    m ∈ region anchors n := by
  have hmem : m ∈ anchors.toList := Array.mem_toList_iff.mpr (Array.mem_of_getElem? h)
  exact List.mem_append_right _ (mem_partsAll.mpr ⟨m, hmem, mem_parts_self m⟩)

theorem size_item {item : Node} {items : List Node} (h : item ∈ items) :
    item.size ≤ sizeAll items := by
  have hsub := parts_sublist_all items (mem_partsAll.mpr ⟨item, h, mem_parts_self item⟩)
  have hlen := hsub.length_le
  rwa [length_parts, length_partsAll] at hlen

theorem size_value {e : Node × Node} {entries : List (Node × Node)} (h : e ∈ entries) :
    e.2.size ≤ sizeEntries entries := by
  have hmem := mem_partsEntries.mpr ⟨e, h, .inr (mem_parts_self e.2)⟩
  have hsub := parts_sublist_entries entries hmem
  have hlen := hsub.length_le
  rwa [length_parts, length_partsEntries] at hlen

theorem sizeEntries_entries (m : Node) : sizeEntries m.entries < m.size := by
  cases m with
  | mapping => simp [entries, size]
  | scalar | sequence | aliasOf =>
    simp only [entries, size, sizeEntries]
    omega

/-! ### Aliases that are left -/

/-- Which alias of the document a node is. -/
def Node.occurrence? : Node → Option Nat
  | aliasOf _ _ _ occurrence => some occurrence
  | _ => none

/-- How many aliases of some nodes are not being expanded. -/
def unused (nodes : List Node) (expanding : List Nat) : Nat :=
  ((nodes.filterMap occurrence?).toFinset \ expanding.toFinset).card

theorem unused_le (nodes : List Node) (expanding : List Nat) :
    unused nodes expanding ≤ nodes.length := by
  have hsub := Finset.card_le_card
    (Finset.sdiff_subset : (nodes.filterMap occurrence?).toFinset \ expanding.toFinset ⊆ _)
  exact hsub.trans ((List.toFinset_card_le _).trans (List.length_filterMap_le ..))

/-- Entering an alias uses it up. -/
theorem unused_lt {nodes : List Node} {expanding : List Nat} {occurrence : Nat}
    (hmem : ∃ a ∈ nodes, a.occurrence? = some occurrence) (hfresh : occurrence ∉ expanding) :
    unused nodes (occurrence :: expanding) < unused nodes expanding := by
  apply Finset.card_lt_card
  refine Finset.ssubset_iff_subset_ne.mpr ⟨fun x hx => by simp_all, fun heq => ?_⟩
  have hin : occurrence ∈ (nodes.filterMap occurrence?).toFinset \ expanding.toFinset := by
    simpa [hfresh] using hmem
  rw [← heq] at hin
  simp at hin

end SchemaLoom.Yaml

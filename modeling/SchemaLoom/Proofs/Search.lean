import Mathlib.Data.Finset.Card
import Mathlib.Logic.Relation
import SchemaLoom.Graph.Group

/-!
# The depth-first search

Soundness of the search that finds groups, over any finite edge function. The
nodes on the stack that are still being searched form a path; every node of the
stack reaches some node of the path, and the path reaches every newer node of
the stack. A node whose low link is its own number closes a whole class of nodes
that reach each other.

What the groups of chosen inputs are is settled in `Proofs.Grouping`.
-/

namespace SchemaLoom

set_option autoImplicit false

/-- A path of edges leads from `u` to `v`; it may be empty. -/
def Reaches (succ : NodeId → List NodeId) (u v : NodeId) : Prop :=
  Relation.ReflTransGen (fun a b => b ∈ succ a) u v

/-- A path of at least one edge leads from `u` to `v`. -/
def Leads (succ : NodeId → List NodeId) (u v : NodeId) : Prop :=
  Relation.TransGen (fun a b => b ∈ succ a) u v

variable {succ : NodeId → List NodeId}

namespace Reaches

theorem refl (u : NodeId) : Reaches succ u u := Relation.ReflTransGen.refl

theorem trans {u v w : NodeId} (huv : Reaches succ u v) (hvw : Reaches succ v w) :
    Reaches succ u w := Relation.ReflTransGen.trans huv hvw

theorem edge {u v : NodeId} (h : v ∈ succ u) : Reaches succ u v := Relation.ReflTransGen.single h

/-- What a set of nodes does not let out is still in it at the end of a path. -/
theorem closed {P : NodeId → Prop} (hP : ∀ u, P u → ∀ v ∈ succ u, P v) {u v : NodeId}
    (huv : Reaches succ u v) (hu : P u) : P v := by
  induction huv with
  | refl => exact hu
  | tail _ hedge ih => exact hP _ ih _ hedge

end Reaches

theorem Leads.of_edge {u v w : NodeId} (hv : v ∈ succ u) (hvw : Reaches succ v w) :
    Leads succ u w := Relation.TransGen.head' hv hvw

theorem Leads.reaches {u v : NodeId} (h : Leads succ u v) : Reaches succ u v :=
  Relation.TransGen.to_reflTransGen h

theorem Leads.trans_reaches {u v w : NodeId} (huv : Leads succ u v) (hvw : Reaches succ v w) :
    Leads succ u w := Relation.TransGen.trans_left huv hvw

theorem Reaches.leads_of_ne {u v : NodeId} (huv : Reaches succ u v) (hne : u ≠ v) :
    Leads succ u v := by
  rcases Relation.reflTransGen_iff_eq_or_transGen.mp huv with heq | hl
  · exact absurd heq.symm hne
  · exact hl

/-! ### What groups are -/

/-- A group is a whole class of nodes that reach each other. -/
structure Group.IsClass (succ : NodeId → List NodeId) (c : Group) : Prop where
  nodup : c.nodes.Nodup
  mem_iff : ∀ u ∈ c.nodes, ∀ v, v ∈ c.nodes ↔ Reaches succ u v ∧ Reaches succ v u
  cyclic_iff : ∀ u ∈ c.nodes, (c.cyclic = true ↔ Leads succ u u)

/-- Edges stay in their group or lead to an older one; groups are given newest first. -/
def Layered (succ : NodeId → List NodeId) : List Group → Prop
  | [] => True
  | c :: cs =>
    (∀ u ∈ c.nodes, ∀ v ∈ succ u, v ∈ c.nodes ∨ ∃ d ∈ cs, v ∈ d.nodes) ∧ Layered succ cs

theorem Layered.reaches {cs : List Group} (h : Layered succ cs) {u v : NodeId}
    (hu : ∃ c ∈ cs, u ∈ c.nodes) (huv : Reaches succ u v) : ∃ c ∈ cs, v ∈ c.nodes := by
  refine huv.closed (P := fun u => ∃ c ∈ cs, u ∈ c.nodes) ?_ hu
  clear hu huv
  induction cs with
  | nil => rintro u ⟨c, hc, _⟩; simp at hc
  | cons c cs ih =>
    rintro u ⟨d, hd, hu⟩ w hw
    rcases List.mem_cons.mp hd with rfl | hd
    · rcases h.1 u hu w hw with hw | ⟨e, he, hw⟩
      · exact ⟨d, List.mem_cons_self, hw⟩
      · exact ⟨e, List.mem_cons_of_mem _ he, hw⟩
    · obtain ⟨e, he, hw⟩ := ih h.2 u ⟨d, hd, hu⟩ w hw
      exact ⟨e, List.mem_cons_of_mem _ he, hw⟩

namespace Search

def Found (s : Search) (v : NodeId) : Prop := (s.index? v).isSome

/-- The number of a node that has been found. -/
def number (s : Search) (v : NodeId) : Nat := (s.index? v).getD 0

theorem found_iff {s : Search} {v : NodeId} : s.Found v ↔ ∃ i, s.index? v = some i :=
  Option.isSome_iff_exists

theorem number_of_index? {s : Search} {v : NodeId} {i : Nat} (h : s.index? v = some i) :
    s.number v = i := by simp [number, h]

theorem not_found {s : Search} {v : NodeId} (h : s.index? v = none) : ¬ s.Found v := by
  simp [Found, h]

/-! ### Discovering a node -/

@[simp] theorem index?_discover (s : Search) (v u : NodeId) :
    (s.discover v).index? u = if u = v then some s.index.length else s.index? u := by
  by_cases h : u = v
  · simp [discover, index?, h]
  · have hb : (u == v) = false := by simpa using h
    simp [discover, index?, List.lookup_cons, h, hb]

@[simp] theorem stack_discover (s : Search) (v : NodeId) :
    (s.discover v).stack = v :: s.stack := rfl

@[simp] theorem groups_discover (s : Search) (v : NodeId) :
    (s.discover v).groups = s.groups := rfl

@[simp] theorem length_discover (s : Search) (v : NodeId) :
    (s.discover v).index.length = s.index.length + 1 := rfl

theorem found_discover {s : Search} {v u : NodeId} :
    (s.discover v).Found u ↔ u = v ∨ s.Found u := by
  by_cases h : u = v <;> simp [Found, h]

theorem number_discover_self (s : Search) (v : NodeId) :
    (s.discover v).number v = s.index.length := by simp [number]

theorem number_discover_of_ne {s : Search} {v u : NodeId} (h : u ≠ v) :
    (s.discover v).number u = s.number u := by simp [number, h]

/-! ### Closing a group -/

theorem close_eq {s : Search} {v : NodeId} {newer older : List NodeId}
    (hstack : s.stack = newer ++ v :: older) (hv : v ∉ newer) (selfEdge : Bool) :
    s.close v selfEdge =
      { index := s.index, stack := older,
        groups := ⟨newer ++ [v], decide (0 < newer.length) || selfEdge⟩ :: s.groups } := by
  have hall : ∀ u ∈ newer, (u != v) = true := by
    intro u hu
    simp only [bne_iff_ne, ne_eq]
    rintro rfl
    exact hv hu
  have htake : s.stack.takeWhile (· != v) = newer := by
    rw [hstack, List.takeWhile_append_of_pos hall]
    simp
  have hdrop : s.stack.dropWhile (· != v) = v :: older := by
    rw [hstack, List.dropWhile_append_of_pos hall]
    simp
  simp [close, htake, hdrop]

/-! ### Growing -/

/-- Nothing is taken back: numbers stay, and what was on the stack stays there. -/
structure Grows (s t : Search) : Prop where
  index : ∀ v i, s.index? v = some i → t.index? v = some i
  length_le : s.index.length ≤ t.index.length
  stack : s.stack <:+ t.stack

namespace Grows
variable {s t r : Search}

theorem refl (s : Search) : s.Grows s := ⟨fun _ _ h => h, Nat.le_refl _, List.suffix_refl _⟩

theorem trans (hst : s.Grows t) (htr : t.Grows r) : s.Grows r :=
  ⟨fun v i h => htr.index v i (hst.index v i h), Nat.le_trans hst.length_le htr.length_le,
    hst.stack.trans htr.stack⟩

theorem found (h : s.Grows t) {v : NodeId} (hv : s.Found v) : t.Found v := by
  obtain ⟨i, hi⟩ := found_iff.mp hv
  exact found_iff.mpr ⟨i, h.index v i hi⟩

theorem number (h : s.Grows t) {v : NodeId} (hv : s.Found v) : t.number v = s.number v := by
  obtain ⟨i, hi⟩ := found_iff.mp hv
  rw [number_of_index? hi, number_of_index? (h.index v i hi)]

theorem mem (h : s.Grows t) {v : NodeId} (hv : v ∈ s.stack) : v ∈ t.stack := h.stack.subset hv

theorem discover {v : NodeId} (hv : ¬ s.Found v) : s.Grows (s.discover v) := by
  refine ⟨?_, by simp, ⟨[v], rfl⟩⟩
  intro u i hu
  have hne : u ≠ v := by
    rintro rfl
    exact hv (found_iff.mpr ⟨i, hu⟩)
  simp [hne, hu]

end Grows

/-! ### The invariant -/

/-- What holds of a search at every moment. `path` holds the nodes that are being searched. -/
structure Sound (succ : NodeId → List NodeId) (path : List NodeId) (s : Search) : Prop where
  number_lt : ∀ v, s.Found v → s.number v < s.index.length
  descending : s.stack.Pairwise fun a b => s.number b < s.number a
  found_iff : ∀ v, s.Found v ↔ v ∈ s.stack ∨ ∃ c ∈ s.groups, v ∈ c.nodes
  apart : ∀ c ∈ s.groups, ∀ v ∈ c.nodes, v ∉ s.stack
  disjoint : s.groups.Pairwise fun c d => ∀ v ∈ c.nodes, v ∉ d.nodes
  classes : ∀ c ∈ s.groups, c.IsClass succ
  layered : Layered succ s.groups
  path_sub : ∀ v ∈ path, v ∈ s.stack
  finished : ∀ v, s.Found v → v ∉ path → ∀ w ∈ succ v, s.Found w
  down : ∀ x ∈ path, ∀ y ∈ s.stack, s.number x ≤ s.number y → Reaches succ x y
  up : ∀ y ∈ s.stack, ∃ x ∈ path, s.number x ≤ s.number y ∧ Reaches succ y x

theorem sound_start : Sound succ [] {} where
  number_lt := by simp [Found, index?]
  descending := List.Pairwise.nil
  found_iff := by simp [Found, index?]
  apart := by simp
  disjoint := List.Pairwise.nil
  classes := by simp
  layered := trivial
  path_sub := by simp
  finished := by simp [Found, index?]
  down := by simp
  up := by simp

namespace Sound
variable {path : List NodeId} {s : Search}

theorem found_of_mem (h : s.Sound succ path) {v : NodeId} (hv : v ∈ s.stack) : s.Found v :=
  (h.found_iff v).mpr (.inl hv)

theorem nodup (h : s.Sound succ path) : s.stack.Nodup := by
  refine h.descending.imp ?_
  rintro a b hab rfl
  exact Nat.lt_irrefl _ hab

/-- Nothing on the stack is reached from a complete group. -/
theorem not_mem_of_group (h : s.Sound succ path) {u v : NodeId}
    (hu : ∃ c ∈ s.groups, u ∈ c.nodes) (huv : Reaches succ u v) : v ∉ s.stack := by
  obtain ⟨c, hc, hv⟩ := h.layered.reaches hu huv
  exact h.apart c hc v hv

theorem discover (h : s.Sound succ path) {v : NodeId} (hv : ¬ s.Found v)
    (hpath : ∀ x ∈ path, Reaches succ x v) : (s.discover v).Sound succ (v :: path) := by
  have hne : ∀ u, s.Found u → u ≠ v := by
    rintro u hu rfl
    exact hv hu
  have hnum : ∀ u, s.Found u → (s.discover v).number u = s.number u :=
    fun u hu => number_discover_of_ne (hne u hu)
  have hself := number_discover_self s v
  have hlt : ∀ u ∈ s.stack, (s.discover v).number u < (s.discover v).number v := by
    intro u hu
    rw [hself, hnum u (h.found_of_mem hu)]
    exact h.number_lt u (h.found_of_mem hu)
  refine
    { number_lt := ?_, descending := ?_, found_iff := ?_, apart := ?_, disjoint := h.disjoint,
      classes := h.classes, layered := h.layered, path_sub := ?_, finished := ?_, down := ?_,
      up := ?_ }
  · intro u hu
    rcases found_discover.mp hu with rfl | hu
    · simp [hself]
    · have := h.number_lt u hu
      rw [hnum u hu, length_discover]
      omega
  · refine List.pairwise_cons.mpr ⟨hlt, h.descending.imp_of_mem ?_⟩
    intro a b ha hb hab
    rwa [hnum a (h.found_of_mem ha), hnum b (h.found_of_mem hb)]
  · intro u
    rw [found_discover, h.found_iff, stack_discover, groups_discover, List.mem_cons, or_assoc]
  · intro c hc u hu hmem
    rcases List.mem_cons.mp hmem with rfl | hmem
    · exact hv ((h.found_iff u).mpr (.inr ⟨c, hc, hu⟩))
    · exact h.apart c hc u hu hmem
  · intro u hu
    rcases List.mem_cons.mp hu with rfl | hu
    · exact List.mem_cons_self
    · exact List.mem_cons_of_mem _ (h.path_sub u hu)
  · intro u hu hnot w hw
    simp only [List.mem_cons, not_or] at hnot
    have hu := (found_discover.mp hu).resolve_left hnot.1
    exact found_discover.mpr (.inr (h.finished u hu hnot.2 w hw))
  · intro x hx y hmem hxy
    rcases List.mem_cons.mp hmem with rfl | hy
    · rcases List.mem_cons.mp hx with rfl | hx
      · exact .refl x
      · exact hpath x hx
    · rcases List.mem_cons.mp hx with rfl | hx
      · have := hlt y hy
        omega
      · rw [hnum x (h.found_of_mem (h.path_sub x hx)), hnum y (h.found_of_mem hy)] at hxy
        exact h.down x hx y hy hxy
  · intro y hy
    rcases List.mem_cons.mp hy with rfl | hy
    · exact ⟨y, List.mem_cons_self, Nat.le_refl _, .refl y⟩
    · obtain ⟨x, hx, hxy, hr⟩ := h.up y hy
      refine ⟨x, List.mem_cons_of_mem _ hx, ?_, hr⟩
      rwa [hnum x (h.found_of_mem (h.path_sub x hx)), hnum y (h.found_of_mem hy)]

end Sound

/-! ### Searching from one node -/

/-- What a search from the new node `v` gives: `r` is its result and `s` where it began. -/
structure Connected (succ : NodeId → List NodeId) (path : List NodeId) (s : Search) (v : NodeId)
    (r : Search × Nat) : Prop where
  sound : r.1.Sound succ path
  grows : s.Grows r.1
  found : r.1.Found v
  le : r.2 ≤ s.index.length
  attained : r.2 = s.index.length ∨ ∃ y ∈ r.1.stack, r.1.number y = r.2 ∧ Reaches succ v y
  bound : ∀ u ∈ r.1.stack, u ∉ s.stack → ∀ w ∈ succ u, w ∈ s.stack → r.2 ≤ s.number w

/-- The same while the edges of `v` are followed; those to `done` have been. -/
structure Following (succ : NodeId → List NodeId) (path : List NodeId) (s : Search) (v : NodeId)
    (done : List NodeId) (r : Search × Nat) : Prop where
  sound : r.1.Sound succ (v :: path)
  grows : (s.discover v).Grows r.1
  found : ∀ w ∈ done, r.1.Found w
  le : r.2 ≤ s.index.length
  attained : ∃ y ∈ r.1.stack, r.1.number y = r.2 ∧ Reaches succ v y
  bound : ∀ u ∈ r.1.stack, u ∉ s.stack → ∀ w ∈ succ u, w ∈ s.stack → (u = v → w ∈ done) →
    r.2 ≤ s.number w

namespace Following
variable {path done : List NodeId} {s : Search} {v : NodeId} {r : Search × Nat}

theorem start (hs : s.Sound succ path) (hv : ¬ s.Found v) (hpath : ∀ x ∈ path, Reaches succ x v) :
    Following succ path s v [] (s.discover v, s.index.length) where
  sound := hs.discover hv hpath
  grows := .refl _
  found := by simp
  le := Nat.le_refl _
  attained := ⟨v, List.mem_cons_self, number_discover_self s v, .refl v⟩
  bound := by
    intro u hu hnot w _ _ hdone
    rcases List.mem_cons.mp hu with rfl | hu
    · exact absurd (hdone rfl) (by simp)
    · exact absurd hu hnot

theorem old (h : Following succ path s v done r) (hs : s.Sound succ path) (hv : ¬ s.Found v)
    {w : NodeId} (hw : w ∈ succ v) {i : Nat} (hi : r.1.index? w = some i) :
    Following succ path s v (done ++ [w])
      (r.1, if r.1.stack.contains w then min r.2 i else r.2) := by
  have hle : (if r.1.stack.contains w then min r.2 i else r.2) ≤ r.2 := by split <;> omega
  refine ⟨h.sound, h.grows, ?_, Nat.le_trans hle h.le, ?_, ?_⟩
  · intro x hx
    rcases List.mem_append.mp hx with hx | hx
    · exact h.found x hx
    · exact found_iff.mpr ⟨i, List.mem_singleton.mp hx ▸ hi⟩
  · by_cases hc : r.1.stack.contains w = true ∧ i < r.2
    · have hmem : w ∈ r.1.stack := by simpa using hc.1
      refine ⟨w, hmem, ?_, .edge hw⟩
      simp only [hc.1, if_true]
      rw [number_of_index? hi]
      omega
    · have heq : (if r.1.stack.contains w then min r.2 i else r.2) = r.2 := by
        split
        · have : ¬ i < r.2 := fun hlt => hc ⟨by assumption, hlt⟩
          omega
        · rfl
      simpa only [heq] using h.attained
  · intro u hu hnot x hx hxs hdone
    by_cases hxw : u = v ∧ x = w
    · have hsub := (Grows.discover hv).trans h.grows
      have hmem : w ∈ r.1.stack := hxw.2 ▸ hsub.mem hxs
      have hnum : s.number x = i := by
        rw [← hsub.number (hs.found_of_mem hxs), hxw.2]
        exact number_of_index? hi
      have hc : r.1.stack.contains w = true := by simpa using hmem
      rw [if_pos hc, hnum]
      exact Nat.min_le_right _ _
    · refine Nat.le_trans hle (h.bound u hu hnot x hx hxs ?_)
      intro huv
      exact (List.mem_append.mp (hdone huv)).resolve_right
        fun he => hxw ⟨huv, List.mem_singleton.mp he⟩

theorem new (h : Following succ path s v done r) (hs : s.Sound succ path) (hv : ¬ s.Found v)
    {w : NodeId} (hw : w ∈ succ v) (hnew : ¬ r.1.Found w) {t : Search × Nat}
    (ht : Connected succ (v :: path) r.1 w t) :
    Following succ path s v (done ++ [w]) (t.1, min r.2 t.2) := by
  have hsub := (Grows.discover hv).trans h.grows
  refine ⟨ht.sound, h.grows.trans ht.grows, ?_, Nat.le_trans (Nat.min_le_left _ _) h.le, ?_, ?_⟩
  · intro x hx
    rcases List.mem_append.mp hx with hx | hx
    · exact ht.grows.found (h.found x hx)
    · exact List.mem_singleton.mp hx ▸ ht.found
  · by_cases hlt : t.2 < r.2
    · rcases ht.attained with heq | ⟨y, hy, hnum, hr⟩
      · have h₁ := h.le
        have h₂ := h.grows.length_le
        rw [length_discover] at h₂
        omega
      · refine ⟨y, hy, ?_, (Reaches.edge hw).trans hr⟩
        rw [hnum]
        omega
    · obtain ⟨y, hy, hnum, hr⟩ := h.attained
      refine ⟨y, ht.grows.mem hy, ?_, hr⟩
      rw [ht.grows.number (h.sound.found_of_mem hy), hnum]
      omega
  · intro u hu hnot x hx hxs hdone
    by_cases hur : u ∈ r.1.stack
    · refine Nat.le_trans (Nat.min_le_left _ _) (h.bound u hur hnot x hx hxs ?_)
      intro huv
      refine (List.mem_append.mp (hdone huv)).resolve_right ?_
      intro hxw
      exact hnew (List.mem_singleton.mp hxw ▸ hsub.found (hs.found_of_mem hxs))
    · have hle := ht.bound u hu hur x hx (hsub.mem hxs)
      rw [hsub.number (hs.found_of_mem hxs)] at hle
      exact Nat.le_trans (Nat.min_le_right _ _) hle

/-- The stack above the node that is searched. -/
theorem stack_eq (h : Following succ path s v done r) :
    ∃ newer, r.1.stack = newer ++ v :: s.stack ∧ v ∉ newer := by
  obtain ⟨newer, heq⟩ := h.grows.stack
  refine ⟨newer, heq.symm, fun hmem => ?_⟩
  have hnodup := h.sound.nodup
  rw [← heq, List.nodup_append] at hnodup
  exact hnodup.2.2 v hmem v List.mem_cons_self rfl

/-- Once all edges are followed, an edge from `v` or above it leads there, to a complete group or
to an older node of the stack. -/
theorem edge_cases (h : Following succ path s v (succ v) r) {u w : NodeId} (hu : u ∈ r.1.stack)
    (hnot : u ∉ s.stack) (hpath : u ∈ path → u ∈ s.stack) (hw : w ∈ succ u) :
    (w ∈ r.1.stack ∧ w ∉ s.stack) ∨ (∃ c ∈ r.1.groups, w ∈ c.nodes) ∨
      (w ∈ s.stack ∧ r.2 ≤ s.number w) := by
  have hfound : r.1.Found w := by
    by_cases huv : u = v
    · exact h.found w (huv ▸ hw)
    · refine h.sound.finished u (h.sound.found_of_mem hu) ?_ w hw
      simp only [List.mem_cons, not_or]
      exact ⟨huv, fun hmem => hnot (hpath hmem)⟩
  by_cases hws : w ∈ s.stack
  · exact .inr (.inr ⟨hws, h.bound u hu hnot w hw hws fun huv => huv ▸ hw⟩)
  · rcases (h.sound.found_iff w).mp hfound with hst | hc
    · exact .inl ⟨hst, hws⟩
    · exact .inr (.inl hc)

theorem number_self (h : Following succ path s v done r) : r.1.number v = s.index.length := by
  rw [h.grows.number (found_discover.mpr (.inl rfl)), number_discover_self]

theorem number_older (h : Following succ path s v done r) (hs : s.Sound succ path)
    (hv : ¬ s.Found v) {u : NodeId} (hu : u ∈ s.stack) :
    r.1.number u = s.number u ∧ s.number u < s.index.length :=
  ⟨((Grows.discover hv).trans h.grows).number (hs.found_of_mem hu),
    hs.number_lt u (hs.found_of_mem hu)⟩

theorem number_newer (h : Following succ path s v done r) {u : NodeId} (hu : u ∈ r.1.stack)
    (hnot : u ∉ s.stack) : s.index.length ≤ r.1.number u := by
  obtain ⟨newer, heq, _⟩ := h.stack_eq
  have hdesc := h.sound.descending
  rw [heq, List.pairwise_append] at hdesc
  rw [heq, List.mem_append, List.mem_cons] at hu
  rcases hu with hu | rfl | hu
  · have := hdesc.2.2 u hu v List.mem_cons_self
    rw [h.number_self] at this
    omega
  · exact Nat.le_of_eq h.number_self.symm
  · exact absurd hu hnot

/-- A node that reaches below itself stays on the stack. -/
theorem stay (h : Following succ path s v (succ v) r) (hv : ¬ s.Found v)
    (hne : r.2 ≠ s.index.length) : Connected succ path s v r := by
  have hvmem : v ∈ r.1.stack := h.grows.mem List.mem_cons_self
  have hlt : r.2 < s.index.length := Nat.lt_of_le_of_ne h.le hne
  refine
    { sound :=
        { h.sound with
          path_sub := fun x hx => h.sound.path_sub x (List.mem_cons_of_mem _ hx)
          finished := ?_
          down := fun x hx => h.sound.down x (List.mem_cons_of_mem _ hx)
          up := ?_ }
      grows := (Grows.discover hv).trans h.grows
      found := h.sound.found_of_mem hvmem
      le := h.le
      attained := .inr h.attained
      bound := fun u hu hnot w hw hws => h.bound u hu hnot w hw hws fun huv => huv ▸ hw }
  · intro u hu hnot w hw
    by_cases huv : u = v
    · exact h.found w (huv ▸ hw)
    · exact h.sound.finished u hu (by simp [huv, hnot]) w hw
  · -- A node that goes up to `v` goes on to the older node whose number is the low link.
    intro y hy
    obtain ⟨x, hx, hxy, hyx⟩ := h.sound.up y hy
    rcases List.mem_cons.mp hx with rfl | hx
    · obtain ⟨z, hz, hnum, hxz⟩ := h.attained
      obtain ⟨x', hx', hle, hzx'⟩ := h.sound.up z hz
      rw [h.number_self] at hxy
      rcases List.mem_cons.mp hx' with rfl | hx'
      · rw [h.number_self] at hle
        omega
      · exact ⟨x', hx', by omega, hyx.trans (hxz.trans hzx')⟩
    · exact ⟨x, hx, hxy, hyx⟩

/-- From `v` and above nothing leads to an older node, if no low link does. -/
theorem reaches_newer (h : Following succ path s v (succ v) r) (hs : s.Sound succ path)
    (heq : r.2 = s.index.length) {u w : NodeId} (hu : u ∈ r.1.stack) (hnot : u ∉ s.stack)
    (huw : Reaches succ u w) :
    (w ∈ r.1.stack ∧ w ∉ s.stack) ∨ ∃ c ∈ r.1.groups, w ∈ c.nodes := by
  refine huw.closed (P := fun w => (w ∈ r.1.stack ∧ w ∉ s.stack) ∨ ∃ c ∈ r.1.groups, w ∈ c.nodes)
    ?_ (.inl ⟨hu, hnot⟩)
  rintro a (⟨ha, hanot⟩ | ha) b hb
  · rcases h.edge_cases ha hanot (hs.path_sub a) hb with hb | hb | ⟨hb, hle⟩
    · exact .inl hb
    · exact .inr hb
    · have := hs.number_lt b (hs.found_of_mem hb)
      omega
  · exact .inr (h.sound.layered.reaches ha (.edge hb))

/-- Everything above `v` leads back to it, if no low link leads further. -/
theorem reaches_self (h : Following succ path s v (succ v) r) (hs : s.Sound succ path)
    (hv : ¬ s.Found v) (heq : r.2 = s.index.length) {u : NodeId} (hu : u ∈ r.1.stack)
    (hnot : u ∉ s.stack) : Reaches succ u v := by
  obtain ⟨x, hx, _, hux⟩ := h.sound.up u hu
  rcases List.mem_cons.mp hx with rfl | hx
  · exact hux
  · have hxs := hs.path_sub x hx
    rcases h.reaches_newer hs heq hu hnot hux with ⟨_, hxnot⟩ | hc
    · exact absurd hxs hxnot
    · have hxr := ((Grows.discover hv).trans h.grows).mem hxs
      exact absurd hxr (h.sound.not_mem_of_group hc (.refl x))

theorem mem_newer (h : Following succ path s v done r) {newer : List NodeId}
    (hstack : r.1.stack = newer ++ v :: s.stack) {u : NodeId} :
    u ∈ newer ++ [v] ↔ u ∈ r.1.stack ∧ u ∉ s.stack := by
  have hsplit : r.1.stack = newer ++ [v] ++ s.stack := by rw [hstack, List.append_cons]
  have hnodup := h.sound.nodup
  rw [hsplit, List.nodup_append] at hnodup
  rw [hsplit, List.mem_append (t := s.stack)]
  constructor
  · intro hu
    exact ⟨.inl hu, fun hus => hnodup.2.2 u hu u hus rfl⟩
  · rintro ⟨hu | hu, hnot⟩
    · exact hu
    · exact absurd hu hnot

/-- The nodes from `v` up are a class of nodes that reach each other. -/
theorem isClass (h : Following succ path s v (succ v) r) (hs : s.Sound succ path)
    (hv : ¬ s.Found v) (heq : r.2 = s.index.length) {newer : List NodeId}
    (hstack : r.1.stack = newer ++ v :: s.stack) :
    Group.IsClass succ ⟨newer ++ [v], decide (0 < newer.length) || (succ v).contains v⟩ := by
  have hvr : v ∈ r.1.stack := h.grows.mem List.mem_cons_self
  have hto : ∀ u ∈ newer ++ [v], Reaches succ u v := by
    intro u hu
    obtain ⟨hur, hnot⟩ := (h.mem_newer hstack).mp hu
    exact h.reaches_self hs hv heq hur hnot
  have hfrom : ∀ u ∈ newer ++ [v], Reaches succ v u := by
    intro u hu
    obtain ⟨hur, hnot⟩ := (h.mem_newer hstack).mp hu
    refine h.sound.down v List.mem_cons_self u hur ?_
    rw [h.number_self]
    exact h.number_newer hur hnot
  have hback : ∀ u ∈ newer ++ [v], ∀ w, Reaches succ u w → Reaches succ w u → w ∈ newer ++ [v] := by
    intro u hu w huw hwu
    obtain ⟨hur, hnot⟩ := (h.mem_newer hstack).mp hu
    rcases h.reaches_newer hs heq hur hnot huw with hw | hw
    · exact (h.mem_newer hstack).mpr hw
    · exact absurd hur (h.sound.not_mem_of_group hw hwu)
  refine ⟨?_, ?_, ?_⟩
  · have hnodup := h.sound.nodup
    rw [hstack, List.append_cons] at hnodup
    exact hnodup.sublist (List.sublist_append_left _ _)
  · intro u hu w
    constructor
    · intro hw
      exact ⟨(hto u hu).trans (hfrom w hw), (hto w hw).trans (hfrom u hu)⟩
    · rintro ⟨huw, hwu⟩
      exact hback u hu w huw hwu
  · intro u hu
    simp only [Bool.or_eq_true, decide_eq_true_eq, List.contains_iff_mem]
    -- A loop at one node of the class is as good as one at `v`.
    have hloop : Leads succ u u ↔ Leads succ v v := by
      by_cases huv : u = v
      · rw [huv]
      · have huv' := (hto u hu).leads_of_ne huv
        have hvu := (hfrom u hu).leads_of_ne (Ne.symm huv)
        exact iff_of_true (huv'.trans_reaches hvu.reaches) (hvu.trans_reaches huv'.reaches)
    rw [hloop]
    constructor
    · rintro (hlen | hself)
      · obtain ⟨a, ha⟩ := List.exists_mem_of_length_pos hlen
        have hav : a ≠ v := by
          rintro rfl
          have hnodup := h.sound.nodup
          rw [hstack, List.nodup_append] at hnodup
          exact hnodup.2.2 a ha a List.mem_cons_self rfl
        have ha' := List.mem_append_left [v] ha
        exact ((hfrom a ha').leads_of_ne (Ne.symm hav)).trans_reaches (hto a ha')
      · exact Leads.of_edge hself (.refl v)
    · intro hl
      obtain ⟨w, hvw, hwv⟩ := Relation.TransGen.head'_iff.mp hl
      by_cases hwv' : w = v
      · exact .inr (hwv' ▸ hvw)
      · have hw := hback v (by simp) w (.edge hvw) hwv
        rcases List.mem_append.mp hw with hw | hw
        · exact .inl (List.length_pos_of_mem hw)
        · exact absurd (List.mem_singleton.mp hw) hwv'

/-- A node whose low link is its own number closes a group. -/
theorem close (h : Following succ path s v (succ v) r) (hs : s.Sound succ path)
    (hv : ¬ s.Found v) (heq : r.2 = s.index.length) :
    Connected succ path s v (r.1.close v ((succ v).contains v), r.2) := by
  obtain ⟨newer, hstack, hnew⟩ := h.stack_eq
  have hsub := (Grows.discover hv).trans h.grows
  have hmem : ∀ u, u ∈ newer ++ [v] ↔ u ∈ r.1.stack ∧ u ∉ s.stack := fun u => h.mem_newer hstack
  have hvr : v ∈ r.1.stack := h.grows.mem List.mem_cons_self
  rw [close_eq hstack hnew]
  refine
    { sound :=
        { number_lt := h.sound.number_lt, descending := ?_, found_iff := ?_, apart := ?_,
          disjoint := ?_, classes := ?_, layered := ⟨?_, h.sound.layered⟩,
          path_sub := hs.path_sub, finished := ?_, down := ?_, up := ?_ }
      grows := ⟨hsub.index, hsub.length_le, List.suffix_refl _⟩
      found := h.sound.found_of_mem hvr
      le := h.le
      attained := .inl heq
      bound := fun u hu hnot => absurd hu hnot }
  · have hdesc := h.sound.descending
    rw [hstack, List.append_cons, List.pairwise_append] at hdesc
    exact hdesc.2.1
  · intro u
    have hiff := h.sound.found_iff u
    rw [hstack, List.append_cons, List.mem_append (t := s.stack)] at hiff
    refine hiff.trans ?_
    simp only [List.mem_cons, exists_eq_or_imp]
    tauto
  · intro c hc u hu
    rcases List.mem_cons.mp hc with rfl | hc
    · exact ((hmem u).mp hu).2
    · exact fun hus => h.sound.apart c hc u hu (hsub.mem hus)
  · refine List.pairwise_cons.mpr ⟨?_, h.sound.disjoint⟩
    intro d hd u hu hud
    exact h.sound.apart d hd u hud ((hmem u).mp hu).1
  · intro c hc
    rcases List.mem_cons.mp hc with rfl | hc
    · exact h.isClass hs hv heq hstack
    · exact h.sound.classes c hc
  · intro u hu w hw
    obtain ⟨hur, hnot⟩ := (hmem u).mp hu
    rcases h.reaches_newer hs heq hur hnot (.edge hw) with hw | hw
    · exact .inl ((hmem w).mpr hw)
    · exact .inr hw
  · intro u hu hnot w hw
    by_cases huv : u = v
    · exact h.found w (huv ▸ hw)
    · exact h.sound.finished u hu (by simp [huv, hnot]) w hw
  · intro x hx y hy
    exact h.sound.down x (List.mem_cons_of_mem _ hx) y (hsub.mem hy)
  · intro y hy
    obtain ⟨x, hx, hxy, hyx⟩ := hs.up y hy
    refine ⟨x, hx, ?_, hyx⟩
    have hxn := (h.number_older hs hv (hs.path_sub x hx)).1
    have hyn := (h.number_older hs hv hy).1
    exact Nat.le_trans (Nat.le_of_eq hxn) (Nat.le_trans hxy (Nat.le_of_eq hyn.symm))

end Following

/-! ### Depth -/

/-- The nodes below `bound` that are still to be found. -/
def unfound (s : Search) (bound : Nat) : Finset NodeId :=
  (Finset.range bound).filter fun v => s.index? v = none

theorem Grows.unfound_subset {s t : Search} (h : s.Grows t) (bound : Nat) :
    t.unfound bound ⊆ s.unfound bound := by
  intro v hv
  simp only [unfound, Finset.mem_filter, Finset.mem_range] at hv ⊢
  refine ⟨hv.1, ?_⟩
  cases hs : s.index? v with
  | none => rfl
  | some i => exact absurd (h.index v i hs) (by simp [hv.2])

theorem unfound_discover_lt {s : Search} {v bound : Nat} (hv : ¬ s.Found v) (hlt : v < bound) :
    ((s.discover v).unfound bound).card < (s.unfound bound).card := by
  refine Finset.card_lt_card ((Finset.ssubset_iff_of_subset
    ((Grows.discover hv).unfound_subset bound)).mpr ⟨v, ?_, ?_⟩)
  · simpa [unfound, Found, hlt] using hv
  · simp [unfound]

/-! ### The whole search -/

section Bounded
variable {bound : Nat} (hbound : ∀ v, bound ≤ v → succ v = [])
include hbound

/-- A search that is deep enough does what it should from every new node. -/
theorem connect_connected (fuel : Nat) {path : List NodeId} {s : Search} {v : NodeId}
    (hs : s.Sound succ path) (hv : ¬ s.Found v) (hpath : ∀ x ∈ path, Reaches succ x v)
    (hfuel : (s.unfound bound).card < fuel) :
    Connected succ path s v (connect succ fuel s v) := by
  induction fuel generalizing path s v with
  | zero => exact absurd hfuel (Nat.not_lt_zero _)
  | succ fuel ih =>
    have hall : ∀ (ws pre : List NodeId) (r : Search × Nat), succ v = pre ++ ws →
        Following succ path s v pre r →
        Following succ path s v (succ v) (ws.foldl (follow (connect succ fuel)) r) := by
      intro ws
      induction ws with
      | nil =>
        intro pre r hsplit hr
        simpa [hsplit] using hr
      | cons w ws ihws =>
        intro pre r hsplit hr
        have hw : w ∈ succ v := by simp [hsplit]
        refine ihws (pre ++ [w]) _ (by simp [hsplit]) ?_
        cases hi : r.1.index? w with
        | some i => simpa only [follow, hi] using hr.old hs hv hw hi
        | none =>
          have hnew := not_found hi
          have hlt : v < bound := by
            by_contra hge
            rw [hbound v (Nat.le_of_not_lt hge)] at hw
            simp at hw
          have hcard : (r.1.unfound bound).card < fuel := by
            have h₁ := Finset.card_le_card (hr.grows.unfound_subset bound)
            have h₂ := unfound_discover_lt hv hlt
            omega
          have hreach : ∀ x ∈ v :: path, Reaches succ x w := by
            intro x hx
            rcases List.mem_cons.mp hx with rfl | hx
            · exact .edge hw
            · exact (hpath x hx).trans (.edge hw)
          simpa only [follow, hi] using hr.new hs hv hw hnew (ih hr.sound hnew hreach hcard)
    have hend := hall (succ v) [] _ rfl (.start hs hv hpath)
    simp only [connect]
    split
    · exact hend.close hs hv (by assumption)
    · exact hend.stay hv (by assumption)

theorem visit_sound {fuel : Nat} (hfuel : bound < fuel) {s : Search} (hs : s.Sound succ [])
    (v : NodeId) : (visit succ fuel s v).Sound succ [] ∧ (visit succ fuel s v).Found v ∧
      s.Grows (visit succ fuel s v) := by
  unfold visit
  cases hi : s.index? v with
  | some i => exact ⟨hs, found_iff.mpr ⟨i, hi⟩, .refl s⟩
  | none =>
    have hcard : (s.unfound bound).card < fuel := by
      have hle := Finset.card_filter_le (Finset.range bound) fun v => s.index? v = none
      rw [Finset.card_range] at hle
      exact Nat.lt_of_le_of_lt hle hfuel
    have h := connect_connected hbound fuel hs (not_found hi) (by simp) hcard
    exact ⟨h.sound, h.found, h.grows⟩

/-- The search from several nodes finds them all and leaves nothing on the stack. -/
theorem along_sound {fuel : Nat} (hfuel : bound < fuel) (starts : List NodeId) :
    (along succ fuel starts).Sound succ [] ∧ ∀ v ∈ starts, (along succ fuel starts).Found v := by
  have hall : ∀ (vs : List NodeId) (s : Search), s.Sound succ [] →
      (vs.foldl (visit succ fuel) s).Sound succ [] ∧ s.Grows (vs.foldl (visit succ fuel) s) ∧
        ∀ v ∈ vs, (vs.foldl (visit succ fuel) s).Found v := by
    intro vs
    induction vs with
    | nil => exact fun s hs => ⟨hs, .refl s, by simp⟩
    | cons v vs ih =>
      intro s hs
      obtain ⟨hsound, hfound, hgrows⟩ := visit_sound hbound hfuel hs v
      obtain ⟨hsound', hgrows', hfound'⟩ := ih _ hsound
      refine ⟨hsound', hgrows.trans hgrows', ?_⟩
      intro w hw
      rcases List.mem_cons.mp hw with rfl | hw
      · exact hgrows'.found hfound
      · exact hfound' w hw
  obtain ⟨hsound, _, hfound⟩ := hall starts {} sound_start
  exact ⟨hsound, hfound⟩

end Bounded

end Search

end SchemaLoom

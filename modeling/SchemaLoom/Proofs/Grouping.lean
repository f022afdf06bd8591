import Mathlib.Data.List.Nodup
import SchemaLoom.Proofs.Search

/-!
# Groups of inputs

The groups of chosen nodes are the classes of nodes that reach each other, cut
down to the inputs and listed with dependencies first. This holds of every graph,
whatever it refers to; only a model or union that lists a part which does not
exist keeps the groups from being given.
-/

namespace SchemaLoom

set_option autoImplicit false

variable {succ : NodeId → List NodeId}

/-! ### What a search finds -/

namespace Search

@[simp] theorem index?_close (s : Search) (v : NodeId) (selfEdge : Bool) (u : NodeId) :
    (s.close v selfEdge).index? u = s.index? u := rfl

theorem reaches_of_found_connect {fuel : Nat} {s : Search} {v u : NodeId}
    (hu : (connect succ fuel s v).1.Found u) : s.Found u ∨ Reaches succ v u := by
  induction fuel generalizing s v u with
  | zero => exact .inl hu
  | succ fuel ih =>
    have hall : ∀ (ws : List NodeId), (∀ w ∈ ws, w ∈ succ v) → ∀ (r : Search × Nat),
        (∀ x, r.1.Found x → s.Found x ∨ Reaches succ v x) →
        ∀ x, (ws.foldl (follow (connect succ fuel)) r).1.Found x →
          s.Found x ∨ Reaches succ v x := by
      intro ws
      induction ws with
      | nil => exact fun _ _ hr => hr
      | cons w ws ihws =>
        intro hws r hr
        refine ihws (fun x hx => hws x (List.mem_cons_of_mem _ hx)) _ ?_
        intro x hx
        cases hi : r.1.index? w with
        | some i =>
          simp only [follow, hi] at hx
          exact hr x hx
        | none =>
          simp only [follow, hi] at hx
          rcases ih hx with hx | hx
          · exact hr x hx
          · exact .inr ((Reaches.edge (hws w List.mem_cons_self)).trans hx)
    refine hall (succ v) (fun _ hw => hw) (s.discover v, s.index.length) ?_ u ?_
    · intro x hx
      rcases found_discover.mp hx with rfl | hx
      · exact .inr (.refl x)
      · exact .inl hx
    · simp only [connect] at hu
      split at hu
      · simpa only [Found, index?_close] using hu
      · exact hu

/-- What a search along some nodes finds is reached from one of them. -/
theorem reaches_of_found_along {fuel : Nat} {starts : List NodeId} {u : NodeId}
    (hu : (along succ fuel starts).Found u) : ∃ v ∈ starts, Reaches succ v u := by
  have hall : ∀ (vs : List NodeId) (s : Search), (vs.foldl (visit succ fuel) s).Found u →
      s.Found u ∨ ∃ v ∈ vs, Reaches succ v u := by
    intro vs
    induction vs with
    | nil => exact fun s hs => .inl hs
    | cons v vs ih =>
      intro s hs
      rcases ih _ hs with hs | ⟨w, hw, hr⟩
      · unfold visit at hs
        split at hs
        · exact .inl hs
        · rcases reaches_of_found_connect hs with hs | hr
          · exact .inl hs
          · exact .inr ⟨v, List.mem_cons_self, hr⟩
      · exact .inr ⟨w, List.mem_cons_of_mem _ hw, hr⟩
  rcases hall starts {} hu with h | h
  · simp [Found, index?] at h
  · exact h

theorem found_iff_mem_index {s : Search} {v : NodeId} :
    s.Found v ↔ ∃ p ∈ s.index, p.1 = v := by
  rw [Found, index?, List.lookup_isSome_iff]
  simp only [beq_iff_eq, eq_comm (a := v)]

namespace Sound

/-- A search that has ended keeps nothing on its stack. -/
theorem stack_eq_nil {s : Search} (h : s.Sound succ []) : s.stack = [] := by
  rw [List.eq_nil_iff_forall_not_mem]
  intro v hv
  obtain ⟨x, hx, _⟩ := h.up v hv
  simp at hx

theorem found_iff_group {s : Search} (h : s.Sound succ []) (v : NodeId) :
    s.Found v ↔ ∃ c ∈ s.groups, v ∈ c.nodes := by
  simp [h.found_iff v, h.stack_eq_nil]

theorem found_of_reaches {s : Search} (h : s.Sound succ []) {u v : NodeId} (hu : s.Found u)
    (huv : Reaches succ u v) : s.Found v :=
  huv.closed (P := s.Found) (fun a ha => h.finished a ha (by simp)) hu

end Sound

end Search

/-- No older group reaches a newer one; groups are given newest first. -/
theorem Layered.not_reaches {cs : List Group} (h : Layered succ cs)
    (hdisj : cs.Pairwise fun c d => ∀ v ∈ c.nodes, v ∉ d.nodes) :
    cs.Pairwise fun newer older => ∀ u ∈ older.nodes, ∀ v ∈ newer.nodes, ¬ Reaches succ u v := by
  induction cs with
  | nil => exact .nil
  | cons c cs ih =>
    rw [List.pairwise_cons] at hdisj ⊢
    refine ⟨?_, ih h.2 hdisj.2⟩
    intro d hd u hu v hv huv
    obtain ⟨e, he, hve⟩ := h.2.reaches ⟨d, hd, hu⟩ huv
    exact hdisj.1 e he v hv hve

/-! ### Groups cut down to inputs -/

namespace Group

theorem within?_eq_some {inputs : List NodeId} {c d : Group} (h : c.within? inputs = some d) :
    d.nodes = c.nodes.filter inputs.contains ∧ d.nodes ≠ [] ∧ d.cyclic = c.cyclic := by
  unfold within? at h
  split at h
  · simp at h
  · rename_i n ns heq
    cases h
    exact ⟨heq.symm, by simp, rfl⟩

theorem exists_within? {inputs : List NodeId} {c : Group} {v : NodeId} (hv : v ∈ c.nodes)
    (hin : v ∈ inputs) : ∃ d, c.within? inputs = some d ∧ v ∈ d.nodes := by
  have hmem : v ∈ c.nodes.filter inputs.contains := by simp [hv, hin]
  unfold within?
  split
  · rename_i heq
    simp [heq] at hmem
  · rename_i n ns heq
    exact ⟨_, rfl, heq ▸ hmem⟩

theorem mem_of_within? {inputs : List NodeId} {c d : Group} (h : c.within? inputs = some d)
    {v : NodeId} (hv : v ∈ d.nodes) : v ∈ c.nodes ∧ v ∈ inputs := by
  rw [(within?_eq_some h).1, List.mem_filter] at hv
  simpa using hv

end Group

/-- What the groups of some inputs are: each input is in one group, once, and nothing else is;
inputs that reach each other share their group, and what an input reaches is in its group or in
an earlier one; a group is cyclic when its nodes lie on a cycle. -/
structure IsGrouping (succ : NodeId → List NodeId) (inputs : List NodeId) (cs : List Group) :
    Prop where
  once : ∀ v, (cs.flatMap (·.nodes)).count v = if v ∈ inputs then 1 else 0
  nonempty : ∀ c ∈ cs, c.nodes ≠ []
  same_iff : ∀ (i j : Nat) (c d : Group), cs[i]? = some c → cs[j]? = some d → ∀ u ∈ c.nodes, ∀ v ∈ d.nodes,
    (i = j ↔ Reaches succ u v ∧ Reaches succ v u)
  order : ∀ (i j : Nat) (c d : Group), cs[i]? = some c → cs[j]? = some d → ∀ u ∈ c.nodes, ∀ v ∈ d.nodes,
    Reaches succ u v → j ≤ i
  cyclic_iff : ∀ c ∈ cs, ∀ u ∈ c.nodes, (c.cyclic = true ↔ Leads succ u u)

namespace Group

section Among
variable {bound : Nat} (hbound : ∀ v, bound ≤ v → succ v = []) {fuel : Nat} (hfuel : bound < fuel)
include hbound hfuel

theorem exists_class_of_mem_among {inputs : List NodeId} {d : Group}
    (hd : d ∈ among succ fuel inputs) :
    ∃ c : Group, c.IsClass succ ∧ c.within? inputs = some d := by
  obtain ⟨c, hc, hcd⟩ := List.mem_filterMap.mp hd
  have hsound := (Search.along_sound hbound hfuel inputs).1
  exact ⟨c, hsound.classes c (List.mem_reverse.mp hc), hcd⟩

theorem mem_among_iff {inputs : List NodeId} {v : NodeId} :
    (∃ d ∈ among succ fuel inputs, v ∈ d.nodes) ↔ v ∈ inputs := by
  obtain ⟨hsound, hfound⟩ := Search.along_sound hbound hfuel inputs
  constructor
  · rintro ⟨d, hd, hv⟩
    obtain ⟨c, _, hcd⟩ := List.mem_filterMap.mp hd
    exact (mem_of_within? hcd hv).2
  · intro hin
    obtain ⟨c, hc, hv⟩ := (hsound.found_iff_group v).mp (hfound v hin)
    obtain ⟨d, hcd, hvd⟩ := exists_within? hv hin
    exact ⟨d, List.mem_filterMap.mpr ⟨c, List.mem_reverse.mpr hc, hcd⟩, hvd⟩

/-- No listed group reaches a later one. -/
theorem among_pairwise (inputs : List NodeId) :
    (among succ fuel inputs).Pairwise fun c d =>
      ∀ u ∈ c.nodes, ∀ v ∈ d.nodes, ¬ Reaches succ u v := by
  have hsound := (Search.along_sound hbound hfuel inputs).1
  have hpair := hsound.layered.not_reaches hsound.disjoint
  refine List.Pairwise.filterMap _ ?_ (List.pairwise_reverse.mpr hpair)
  intro c d hcd c' hc' d' hd' u hu v hv
  exact hcd u (mem_of_within? hc' hu).1 v (mem_of_within? hd' hv).1

theorem among_nodup (inputs : List NodeId) :
    ((among succ fuel inputs).flatMap (·.nodes)).Nodup := by
  rw [List.nodup_flatMap]
  constructor
  · intro d hd
    obtain ⟨c, hclass, hcd⟩ := exists_class_of_mem_among hbound hfuel hd
    rw [(within?_eq_some hcd).1]
    exact hclass.nodup.filter _
  · refine (among_pairwise hbound hfuel inputs).imp ?_
    intro c d hcd
    exact fun v hc hd => hcd v hc v hd (.refl v)

/-- The listed groups are the classes of the inputs, dependencies first. -/
theorem among_isGrouping (inputs : List NodeId) :
    IsGrouping succ inputs (among succ fuel inputs) := by
  have horder : ∀ (i j : Nat) (c d : Group), (among succ fuel inputs)[i]? = some c →
      (among succ fuel inputs)[j]? = some d → ∀ u ∈ c.nodes, ∀ v ∈ d.nodes,
      Reaches succ u v → j ≤ i := by
    intro i j c d hc hd u hu v hv huv
    by_contra hlt
    obtain ⟨hi, rfl⟩ := List.getElem?_eq_some_iff.mp hc
    obtain ⟨hj, rfl⟩ := List.getElem?_eq_some_iff.mp hd
    exact List.pairwise_iff_getElem.mp (among_pairwise hbound hfuel inputs) i j hi hj
      (Nat.lt_of_not_le hlt) u hu v hv huv
  refine { once := ?_, nonempty := ?_, same_iff := ?_, order := horder, cyclic_iff := ?_ }
  · intro v
    have hmem : v ∈ (among succ fuel inputs).flatMap (·.nodes) ↔ v ∈ inputs := by
      rw [List.mem_flatMap]
      exact mem_among_iff hbound hfuel
    split
    · exact List.count_eq_one_of_mem (among_nodup hbound hfuel inputs) (hmem.mpr (by assumption))
    · exact List.count_eq_zero_of_not_mem (fun hv => by simp_all)
  · intro d hd
    obtain ⟨c, _, hcd⟩ := exists_class_of_mem_among hbound hfuel hd
    exact (within?_eq_some hcd).2.1
  · intro i j c d hc hd u hu v hv
    constructor
    · rintro rfl
      obtain rfl : c = d := Option.some.inj (hc.symm.trans hd)
      obtain ⟨e, hclass, hec⟩ := exists_class_of_mem_among hbound hfuel (List.mem_of_getElem? hc)
      exact (hclass.mem_iff u (mem_of_within? hec hu).1 v).mp (mem_of_within? hec hv).1
    · rintro ⟨huv, hvu⟩
      have h₁ := horder i j c d hc hd u hu v hv huv
      have h₂ := horder j i d c hd hc v hv u hu hvu
      omega
  · intro d hd u hu
    obtain ⟨c, hclass, hcd⟩ := exists_class_of_mem_among hbound hfuel hd
    rw [(within?_eq_some hcd).2.2]
    exact hclass.cyclic_iff u (mem_of_within? hcd hu).1

end Among

end Group

/-! ### Graphs -/

namespace Graph

/-- What is not in the store refers to nothing. -/
theorem references_of_size_le (g : Graph) (v : NodeId) (hv : g.nodes.size ≤ v) :
    g.references v = [] := by
  have hnode : g.node v = { kind := .unknown } := by
    simp [node, node?, Array.getElem?_eq_none hv]
  simp [references, hnode]

theorem size_lt_searchFuel (g : Graph) : g.nodes.size < g.searchFuel := by
  unfold searchFuel
  omega

/-- A part that does not exist is met exactly when an input reaches the node that lists it. -/
theorem meets_broken_iff (g : Graph) (inputs : List NodeId) :
    ((Search.along g.references g.searchFuel inputs).index.any fun v => g.isBroken v.1) = true ↔
      ∃ u ∈ inputs, ∃ v, Reaches g.references u v ∧ g.isBroken v = true := by
  obtain ⟨hsound, hfound⟩ :=
    Search.along_sound g.references_of_size_le g.size_lt_searchFuel inputs
  rw [List.any_eq_true]
  constructor
  · rintro ⟨p, hp, hb⟩
    obtain ⟨u, hu, hr⟩ := Search.reaches_of_found_along
      (Search.found_iff_mem_index.mpr ⟨p, hp, rfl⟩)
    exact ⟨u, hu, p.1, hr, hb⟩
  · rintro ⟨u, hu, v, hr, hb⟩
    obtain ⟨p, hp, rfl⟩ := Search.found_iff_mem_index.mp
      (hsound.found_of_reaches (hfound u hu) hr)
    exact ⟨p, hp, hb⟩

/-- Every list of nodes of every graph has its groups, unless a model or union that is reached
lists a part which does not exist. -/
theorem groups_isGrouping (g : Graph) (inputs : List NodeId) :
    ((∀ u ∈ inputs, ∀ v, Reaches g.references u v → g.isBroken v = false) ∧
      ∃ cs, g.groups inputs = .ok cs ∧ IsGrouping g.references inputs cs) ∨
    ((∃ u ∈ inputs, ∃ v, Reaches g.references u v ∧ g.isBroken v = true) ∧
      g.groups inputs = Result.fail .absent) := by
  by_cases hb : ∃ u ∈ inputs, ∃ v, Reaches g.references u v ∧ g.isBroken v = true
  · refine .inr ⟨hb, ?_⟩
    simp only [groups, (g.meets_broken_iff inputs).mpr hb, if_true]
  · refine .inl ⟨?_, _, ?_, Group.among_isGrouping g.references_of_size_le g.size_lt_searchFuel _⟩
    · intro u hu v hr
      exact Bool.eq_false_iff.mpr fun hv => hb ⟨u, hu, v, hr, hv⟩
    · have hnot := mt (g.meets_broken_iff inputs).mp hb
      simp only [groups, hnot, Bool.false_eq_true, if_false]

end Graph

end SchemaLoom

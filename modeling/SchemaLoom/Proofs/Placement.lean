import Mathlib.Data.List.Nodup
import Mathlib.Logic.Relation
import SchemaLoom.Graph.Group
import SchemaLoom.Proofs.Chains

/-!
# Bases first

Inside a group, a base that belongs to the group comes before everything that is
derived from it. No node is lost or repeated. Both need base chains that end:
around a loop of bases no order has this property.
-/

namespace SchemaLoom

set_option autoImplicit false

namespace Graph

/-- One step along a base chain. -/
def Extends (g : Graph) (a b : NodeId) : Prop := (g.node a).base = some b

/-- The base of each node, where it is one of `group`, comes earlier. -/
def Sorted (g : Graph) (group order : List NodeId) : Prop :=
  ∀ before n after, order = before ++ n :: after →
    ∀ b ∈ group, g.Extends n b → b ∈ before

/-! ### Chains that end -/

section Chains
variable {g : Graph} {n : NodeId}

theorem Linked.not_loop (hg : g.Linked) (hn : n ∈ g.declarations) :
    ¬ Relation.TransGen g.Extends n n :=
  (hg.base_ends (hg.kept n hn)).not_loop

end Chains

/-! ### Placing nodes -/

/-- What has been placed while the nodes of `path` wait for their bases. -/
structure Placed (g : Graph) (group path : List NodeId) (p : Placement) : Prop where
  mem_iff : ∀ x, x ∈ p.placed ↔ x ∈ p.order ∨ x ∈ path
  waiting : ∀ x ∈ path, x ∉ p.order
  subset : ∀ x ∈ p.order, x ∈ group
  nodup : p.order.Nodup
  sorted : g.Sorted group p.order

/-- The nodes of a group that are still to be placed. -/
def unplaced (group : List NodeId) (p : Placement) : List NodeId :=
  group.filter fun x => !p.placed.contains x

section Place
variable {g : Graph} {group path : List NodeId} {p : Placement} {n : NodeId}

theorem unplaced_lt (hn : n ∈ group) (hnot : n ∉ p.placed) :
    (unplaced group { p with placed := n :: p.placed }).length < (unplaced group p).length := by
  have heq : unplaced group { p with placed := n :: p.placed } =
      (unplaced group p).filter (· != n) := by
    unfold unplaced
    rw [List.filter_filter]
    apply List.filter_congr
    intro x _
    simp only [List.contains_cons, bne]
    cases x == n <;> simp
  rw [heq]
  apply List.length_filter_lt_length_iff_exists.mpr
  refine ⟨n, ?_, by simp⟩
  simp [unplaced, hn, hnot]

theorem Sorted.append_singleton {order : List NodeId} (h : g.Sorted group order)
    (hn : ∀ b ∈ group, g.Extends n b → b ∈ order) : g.Sorted group (order ++ [n]) := by
  intro before m after heq b hb hmb
  rcases List.append_eq_append_iff.mp heq with ⟨l, rfl, hl⟩ | ⟨l, rfl, hl⟩
  · cases l with
    | nil =>
      simp only [List.nil_append, List.cons.injEq] at hl
      obtain ⟨rfl, rfl⟩ := hl
      rw [List.append_nil]
      exact hn b hb hmb
    | cons x l => simp at hl
  · cases l with
    | nil =>
      simp only [List.nil_append, List.cons.injEq] at hl
      obtain ⟨rfl, _⟩ := hl
      rw [List.append_nil] at hn
      exact hn b hb hmb
    | cons x l =>
      simp only [List.cons_append, List.cons.injEq] at hl
      obtain ⟨rfl, _⟩ := hl
      exact h before m l rfl b hb hmb

/-- The node that waits longest is placed last. -/
theorem Placed.finish (h : g.Placed group (n :: path) p) (hn : n ∈ group)
    (hbase : ∀ b ∈ group, g.Extends n b → b ∈ p.order) (hpath : n ∉ path) :
    g.Placed group path { p with order := p.order ++ [n] } where
  mem_iff := by
    intro x
    simp only [h.mem_iff x, List.mem_cons, List.mem_append, List.not_mem_nil, or_false]
    tauto
  waiting := by
    intro x hx hmem
    rcases List.mem_append.mp hmem with hmem | hmem
    · exact h.waiting x (List.mem_cons_of_mem _ hx) hmem
    · obtain rfl := List.mem_singleton.mp hmem
      exact hpath hx
  subset := by
    intro x hx
    rcases List.mem_append.mp hx with hx | hx
    · exact h.subset x hx
    · obtain rfl := List.mem_singleton.mp hx
      exact hn
  nodup := by
    refine List.nodup_append.mpr ⟨h.nodup, List.nodup_singleton n, ?_⟩
    intro a ha b hb
    obtain rfl := List.mem_singleton.mp hb
    rintro rfl
    exact h.waiting a List.mem_cons_self ha
  sorted := h.sorted.append_singleton hbase

/-- Placing a node places it and what it derives from; the rest stays as it is. -/
theorem place_placed (hacyclic : ∀ x ∈ group, ¬ Relation.TransGen g.Extends x x) {fuel : Nat}
    (hfuel : (unplaced group p).length < fuel) (h : g.Placed group path p) (hn : n ∈ group)
    (hpath : ∀ x ∈ path, Relation.TransGen g.Extends x n) :
    g.Placed group path (g.place group fuel p n) ∧ n ∈ (g.place group fuel p n).order ∧
      p.order ⊆ (g.place group fuel p n).order := by
  induction fuel generalizing path p n with
  | zero => exact absurd hfuel (Nat.not_lt_zero _)
  | succ fuel ih =>
    have hnotPath : n ∉ path := fun hmem => hacyclic n hn (hpath n hmem)
    rw [place]
    by_cases hplaced : n ∈ p.placed
    · rw [if_pos (by simpa using hplaced)]
      have horder : n ∈ p.order := ((h.mem_iff n).mp hplaced).resolve_right hnotPath
      exact ⟨h, horder, List.Subset.refl _⟩
    · rw [if_neg (by simpa using hplaced)]
      have hstart : g.Placed group (n :: path) { p with placed := n :: p.placed } := by
        refine ⟨?_, ?_, h.subset, h.nodup, h.sorted⟩
        · intro x
          simp only [List.mem_cons, h.mem_iff x]
          tauto
        · intro x hx
          rcases List.mem_cons.mp hx with rfl | hx
          · exact fun hmem => hplaced ((h.mem_iff x).mpr (.inl hmem))
          · exact h.waiting x hx
      have hlt := unplaced_lt hn hplaced
      have hdone : ∀ q : Placement, g.Placed group (n :: path) q → p.order ⊆ q.order →
          (∀ b ∈ group, g.Extends n b → b ∈ q.order) →
          g.Placed group path { q with order := q.order ++ [n] } ∧
            n ∈ q.order ++ [n] ∧ p.order ⊆ q.order ++ [n] := by
        intro q hq hsub hb
        exact ⟨hq.finish hn hb hnotPath, by simp, List.subset_append_of_subset_left _ hsub⟩
      cases hbase : (g.node n).base with
      | none =>
        refine hdone _ hstart (List.Subset.refl _) ?_
        intro b _ hnb
        rw [Extends, hbase] at hnb
        cases hnb
      | some b =>
        have honly : ∀ c, g.Extends n c → c = b := by
          intro c hc
          rw [Extends, hbase] at hc
          exact (Option.some.inj hc).symm
        by_cases hb : b ∈ group
        · simp only [List.contains_iff_mem.mpr hb, if_true]
          have hwait : ∀ x ∈ n :: path, Relation.TransGen g.Extends x b := by
            intro x hx
            rcases List.mem_cons.mp hx with rfl | hx
            · exact .single hbase
            · exact (hpath x hx).tail hbase
          obtain ⟨hq, hmem, hsub⟩ := ih (by omega) hstart hb hwait
          refine hdone _ hq hsub ?_
          intro c _ hnc
          rw [honly c hnc]
          exact hmem
        · have hno : group.contains b = false := by simpa using hb
          simp only [hno, Bool.false_eq_true, if_false]
          refine hdone _ hstart (List.Subset.refl _) ?_
          intro c hc hnc
          rw [honly c hnc] at hc
          exact absurd hc hb

/-- A group in the order its bases ask for. -/
theorem basesFirst_sorted (hgroup : group.Nodup)
    (hacyclic : ∀ x ∈ group, ¬ Relation.TransGen g.Extends x x) :
    (g.basesFirst group).Perm group ∧ g.Sorted group (g.basesFirst group) := by
  have hrun : ∀ (rest : List NodeId) (p : Placement), (∀ x ∈ rest, x ∈ group) →
      g.Placed group [] p →
      g.Placed group [] (rest.foldl (g.place group (group.length + 1)) p) ∧
        (∀ x ∈ rest, x ∈ (rest.foldl (g.place group (group.length + 1)) p).order) ∧
        p.order ⊆ (rest.foldl (g.place group (group.length + 1)) p).order := by
    intro rest
    induction rest with
    | nil => exact fun p _ hp => ⟨hp, by simp, List.Subset.refl _⟩
    | cons n rest ih =>
      intro p hrest hp
      have hfuel : (unplaced group p).length < group.length + 1 :=
        Nat.lt_succ_of_le (List.length_filter_le _ _)
      obtain ⟨hq, hmem, hsub⟩ :=
        place_placed hacyclic hfuel hp (hrest n List.mem_cons_self) (by simp)
      obtain ⟨hr, hall, hsub'⟩ := ih _ (fun x hx => hrest x (List.mem_cons_of_mem _ hx)) hq
      refine ⟨hr, ?_, List.Subset.trans hsub hsub'⟩
      intro x hx
      rcases List.mem_cons.mp hx with rfl | hx
      · exact hsub' hmem
      · exact hall x hx
  have hempty : g.Placed group [] {} := ⟨by simp, by simp, by simp, by simp, by simp [Sorted]⟩
  obtain ⟨hend, hall, _⟩ := hrun group {} (fun _ h => h) hempty
  refine ⟨?_, hend.sorted⟩
  exact (List.perm_ext_iff_of_nodup hend.nodup hgroup).mpr fun x => ⟨hend.subset x, hall x⟩

end Place

end Graph

end SchemaLoom

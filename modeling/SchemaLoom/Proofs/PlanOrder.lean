import SchemaLoom.Plan
import SchemaLoom.Proofs.Placement
import SchemaLoom.Proofs.Uses

/-!
# The order of a plan

Every declaration of a linked graph is planned once. A direct reference is to an
earlier declaration, so it is initialised when it is used. A deferred one is to a
declaration of the same group that is not earlier, and the group is cyclic.

Overrides are left out: what they write may refer to anything.
-/

namespace SchemaLoom

set_option autoImplicit false

namespace Builder

variable {b : Builder}

/-! ### One group -/

theorem planNode_eq_ok {group : Nat} {cyclic : Bool} {pending : List NodeId} {n : NodeId}
    {p : Planned} (h : b.planNode group cyclic pending n = .ok p) :
    p.node = n ∧ p.group = group ∧ p.cyclic = cyclic ∧
      { b with pending }.declare (b.graph.subject n) = .ok p.expr := by
  unfold planNode at h
  split at h
  · simp at h
  · rename_i s hs
    obtain ⟨_, rfl⟩ := Graph.subject?_eq_some hs
    obtain ⟨e, he, h⟩ := Result.bind_eq_ok.mp h
    cases h
    exact ⟨rfl, rfl, rfl, Result.within_eq_ok.mp he⟩

theorem planGroup_nodes {group : Nat} {cyclic : Bool} {ns : List NodeId} {ds : List Planned}
    (h : b.planGroup group cyclic ns = .ok ds) :
    ds.map (·.node) = ns ∧ ∀ p ∈ ds, p.group = group := by
  induction ns generalizing ds with
  | nil =>
    cases h
    simp
  | cons n ns ih =>
    rw [planGroup] at h
    obtain ⟨p, hp, h⟩ := Result.bind_eq_ok.mp h
    obtain ⟨rest, hrest, h⟩ := Result.bind_eq_ok.mp h
    cases h
    obtain ⟨hnode, hgroup, _⟩ := planNode_eq_ok hp
    obtain ⟨hnodes, hgroups⟩ := ih hrest
    constructor
    · rw [List.map_cons, hnode, hnodes]
    · intro q hq
      rcases List.mem_cons.mp hq with rfl | hq
      · exact hgroup
      · exact hgroups q hq

/-- How one declaration of a group was written: the earlier ones are done, it and the later ones
are pending. -/
theorem planGroup_at {group : Nat} {cyclic : Bool} {ns : List NodeId} {ds : List Planned}
    (h : b.planGroup group cyclic ns = .ok ds) {i : Nat} {p : Planned} (hp : ds[i]? = some p) :
    p.group = group ∧ p.cyclic = cyclic ∧ ns = ns.take i ++ p.node :: ns.drop (i + 1) ∧
      { b with pending := p.node :: ns.drop (i + 1) }.declare (b.graph.subject p.node) =
        .ok p.expr := by
  induction ns generalizing ds i with
  | nil =>
    cases h
    simp at hp
  | cons n ns ih =>
    rw [planGroup] at h
    obtain ⟨q, hq, h⟩ := Result.bind_eq_ok.mp h
    obtain ⟨rest, hrest, h⟩ := Result.bind_eq_ok.mp h
    cases h
    cases i with
    | zero =>
      obtain rfl : q = p := by simpa using hp
      obtain ⟨rfl, hgroup, hcyclic, hdeclare⟩ := planNode_eq_ok hq
      exact ⟨hgroup, hcyclic, by simp, by simpa using hdeclare⟩
    | succ i =>
      obtain ⟨hgroup, hcyclic, hns, hdeclare⟩ := ih hrest (by simpa using hp)
      refine ⟨hgroup, hcyclic, ?_, by simpa using hdeclare⟩
      rw [List.take_succ_cons, List.drop_succ_cons, List.cons_append, ← hns]

/-! ### All groups -/

/-- The nodes of a group in the order they are written. -/
def written (b : Builder) (c : Group) : List NodeId := b.graph.basesFirst c.nodes

theorem planGroups_nodes {k : Nat} {cs : List Group} {ds : List Planned}
    (h : b.planGroups k cs = .ok ds) : ds.map (·.node) = cs.flatMap b.written := by
  induction cs generalizing k ds with
  | nil =>
    cases h
    rfl
  | cons c cs ih =>
    rw [planGroups] at h
    obtain ⟨es, hes, h⟩ := Result.bind_eq_ok.mp h
    obtain ⟨rest, hrest, h⟩ := Result.bind_eq_ok.mp h
    cases h
    rw [List.map_append, (planGroup_nodes hes).1, ih hrest]
    rfl

/-- Where one declaration of a plan stands: in the `j`-th group, between the nodes `before` and
`after` of that group. -/
structure Stands (b : Builder) (cs : List Group) (k : Nat) (ds : List Planned) (i : Nat)
    (p : Planned) (j : Nat) (c : Group) (before after : List NodeId) : Prop where
  mem : cs[j]? = some c
  group : p.group = k + j
  cyclic : p.cyclic = c.cyclic
  split : b.written c = before ++ p.node :: after
  declare : { b with pending := p.node :: after }.declare (b.graph.subject p.node) = .ok p.expr
  before : ∀ x ∈ before, ∃ q ∈ ds.take i, q.node = x
  earlier : ∀ j' < j, ∀ c', cs[j']? = some c' → ∀ x ∈ b.written c', ∃ q ∈ ds.take i, q.node = x
  pending : ∀ x ∈ p.node :: after, ∃ q ∈ ds.drop i, q.node = x ∧ q.group = p.group

theorem Stands.first {k : Nat} {c : Group} {cs : List Group} {es rest : List Planned}
    (hes : b.planGroup k c.cyclic (b.written c) = .ok es) {i : Nat} {p : Planned}
    (hp : es[i]? = some p) :
    b.Stands (c :: cs) k (es ++ rest) i p 0 c ((b.written c).take i)
      ((b.written c).drop (i + 1)) := by
  obtain ⟨hnodes, hgroups⟩ := planGroup_nodes hes
  obtain ⟨hgroup, hcyclic, hsplit, hdeclare⟩ := planGroup_at hes hp
  have hi : i < es.length := (List.getElem?_eq_some_iff.mp hp).1
  refine ⟨rfl, by simpa using hgroup, hcyclic, hsplit, hdeclare, ?_, ?_, ?_⟩
  · intro x hx
    rw [← hnodes, ← List.map_take, List.mem_map] at hx
    obtain ⟨q, hq, hx⟩ := hx
    rw [List.take_append_of_le_length (Nat.le_of_lt hi)]
    exact ⟨q, hq, hx⟩
  · exact fun j' hj' => absurd hj' (Nat.not_lt_zero j')
  · intro x hx
    have hdrop : (b.written c).drop i = p.node :: (b.written c).drop (i + 1) := by
      have hlen : ((b.written c).take i).length = i := by
        rw [List.length_take, ← hnodes, List.length_map]
        omega
      conv_lhs => rw [hsplit, List.drop_left' hlen]
    rw [← hdrop, ← hnodes, ← List.map_drop, List.mem_map] at hx
    obtain ⟨q, hq, hx⟩ := hx
    refine ⟨q, ?_, hx, ?_⟩
    · rw [List.drop_append_of_le_length (Nat.le_of_lt hi)]
      exact List.mem_append_left _ hq
    · rw [hgroup]
      exact hgroups q (List.mem_of_mem_drop hq)

/-- A group written in front of the others moves a declaration on. -/
theorem Stands.cons {k : Nat} {c d : Group} {cs : List Group} {es rest : List Planned}
    (hnodes : es.map (·.node) = b.written c) {i j : Nat} {p : Planned}
    {before after : List NodeId} (hle : es.length ≤ i)
    (h : b.Stands cs (k + 1) rest (i - es.length) p j d before after) :
    b.Stands (c :: cs) k (es ++ rest) i p (j + 1) d before after := by
  have htake : (es ++ rest).take i = es ++ rest.take (i - es.length) := by
    rw [List.take_append, List.take_of_length_le hle]
  have hdrop : (es ++ rest).drop i = rest.drop (i - es.length) := by
    rw [List.drop_append, List.drop_of_length_le hle, List.nil_append]
  refine ⟨h.mem, ?_, h.cyclic, h.split, h.declare, ?_, ?_, ?_⟩
  · rw [h.group]
    omega
  · intro x hx
    obtain ⟨q, hq, hx⟩ := h.before x hx
    rw [htake]
    exact ⟨q, List.mem_append_right _ hq, hx⟩
  · intro j' hj' c' hc' x hx
    rw [htake]
    cases j' with
    | zero =>
      obtain rfl : c = c' := by simpa using hc'
      rw [← hnodes, List.mem_map] at hx
      obtain ⟨q, hq, hx⟩ := hx
      exact ⟨q, List.mem_append_left _ hq, hx⟩
    | succ j' =>
      obtain ⟨q, hq, hx⟩ := h.earlier j' (Nat.lt_of_succ_lt_succ hj') c' hc' x hx
      exact ⟨q, List.mem_append_right _ hq, hx⟩
  · rw [hdrop]
    exact h.pending

theorem planGroups_at {k : Nat} {cs : List Group} {ds : List Planned}
    (h : b.planGroups k cs = .ok ds) {i : Nat} {p : Planned} (hp : ds[i]? = some p) :
    ∃ j c before after, b.Stands cs k ds i p j c before after := by
  induction cs generalizing k ds i with
  | nil =>
    cases h
    simp at hp
  | cons c cs ih =>
    rw [planGroups] at h
    obtain ⟨es, hes, h⟩ := Result.bind_eq_ok.mp h
    obtain ⟨rest, hrest, h⟩ := Result.bind_eq_ok.mp h
    cases h
    by_cases hi : i < es.length
    · rw [List.getElem?_append_left hi] at hp
      exact ⟨0, c, _, _, .first hes hp⟩
    · have hle := Nat.le_of_not_lt hi
      rw [List.getElem?_append_right hle] at hp
      obtain ⟨j, d, before, after, hstands⟩ := ih hrest hp
      exact ⟨j + 1, d, before, after, hstands.cons (planGroup_nodes hes).1 hle⟩

/-! ### Linked graphs -/

theorem declared_eq (hg : b.graph.Fit) (hr : b.registry = {}) : b.declared = b.graph.declarations := by
  apply List.filter_eq_self.mpr
  intro n hn
  have hlt := hg.kept n hn
  rw [Graph.subject?_of_lt hlt, Option.any_some, isReferenced_eq hr]
  exact (hg.fits_of_lt hlt).declared_iff.mpr hn

end Builder

theorem isGrouping_of_groups {g : Graph} {inputs : List NodeId} {cs : List Group}
    (h : g.groups inputs = .ok cs) : IsGrouping g.references inputs cs := by
  simp only [Graph.groups] at h
  split at h
  · simp at h
  · cases h
    exact Group.among_isGrouping g.references_of_size_le g.size_lt_searchFuel inputs

namespace IsGrouping
variable {succ : NodeId → List NodeId} {inputs : List NodeId} {cs : List Group}

theorem mem_iff (h : IsGrouping succ inputs cs) {v : NodeId} :
    v ∈ inputs ↔ ∃ c ∈ cs, v ∈ c.nodes := by
  have hcount : (∃ c ∈ cs, v ∈ c.nodes) ↔ 0 < (cs.flatMap (·.nodes)).count v := by
    rw [List.count_pos_iff, List.mem_flatMap]
  rw [hcount, h.once v]
  split <;> simp [*]

theorem nodup (h : IsGrouping succ inputs cs) : (cs.flatMap (·.nodes)).Nodup := by
  apply List.nodup_iff_count_le_one.mpr
  intro v
  rw [h.once v]
  split <;> simp

theorem nodup_group (h : IsGrouping succ inputs cs) {c : Group} (hc : c ∈ cs) : c.nodes.Nodup :=
  (List.nodup_flatMap.mp h.nodup).1 c hc

end IsGrouping

section Linked
variable {g : Graph} {cs : List Group}

theorem plan_groups {r : Registry} {ds : List Planned} (h : plan g r = .ok ds) :
    ∃ cs, IsGrouping g.references ({ graph := g, registry := r } : Builder).declared cs ∧
      ({ graph := g, registry := r } : Builder).planGroups 0 cs = .ok ds := by
  obtain ⟨cs, hcs, h⟩ := Result.bind_eq_ok.mp h
  exact ⟨cs, isGrouping_of_groups hcs, h⟩

/-- Without overrides every declaration is planned. -/
theorem plan_eq_ok (hg : g.Linked) {ds : List Planned} (h : plan g {} = .ok ds) :
    ∃ cs, IsGrouping g.references g.declarations cs ∧
      ({ graph := g } : Builder).planGroups 0 cs = .ok ds := by
  have hinputs : ({ graph := g } : Builder).declared = g.declarations :=
    Builder.declared_eq hg.toFit rfl
  rw [← hinputs]
  exact plan_groups h

theorem written_sorted (hg : g.Linked) (hcs : IsGrouping g.references g.declarations cs) {c : Group}
    (hc : c ∈ cs) :
    (g.basesFirst c.nodes).Perm c.nodes ∧ g.Sorted c.nodes (g.basesFirst c.nodes) := by
  apply Graph.basesFirst_sorted (hcs.nodup_group hc)
  exact fun x hx => hg.not_loop (hcs.mem_iff.mpr ⟨c, hc, hx⟩)

theorem plan_nodes (hg : g.Linked) {ds : List Planned} (h : plan g {} = .ok ds) :
    (ds.map (·.node)).Perm g.declarations := by
  obtain ⟨cs, hcs, h⟩ := plan_eq_ok hg h
  rw [Builder.planGroups_nodes h]
  have hperm : (cs.flatMap ({ graph := g } : Builder).written).Perm (cs.flatMap (·.nodes)) :=
    List.Perm.flatMap_left cs fun c hc => (written_sorted hg hcs hc).1
  refine hperm.trans ((List.perm_ext_iff_of_nodup hcs.nodup hg.nodup).mpr ?_)
  intro v
  rw [hcs.mem_iff, List.mem_flatMap]

/-- A direct reference is to an earlier declaration. -/
theorem earlier_of_now (hg : g.Linked) (hcs : IsGrouping g.references g.declarations cs)
    {k i j : Nat} {ds : List Planned} {p : Planned} {c : Group} {before after : List NodeId}
    (hp : ({ graph := g } : Builder).Stands cs k ds i p j c before after) {n : NodeId}
    (hn : ({ graph := g, pending := p.node :: after } : Builder).Now p.node n) :
    ∃ q ∈ ds.take i, q.node = n := by
  obtain ⟨hdecl, hcase⟩ := hn
  have hc := List.mem_of_getElem? hp.mem
  obtain ⟨hperm, hsorted⟩ := written_sorted hg hcs hc
  have hpc : p.node ∈ c.nodes := by
    apply hperm.subset
    rw [show g.basesFirst c.nodes = _ from hp.split]
    simp
  have hreach : Reaches g.references p.node n := by
    rcases hcase with ⟨hl, _⟩ | hb
    · exact hl.reaches
    · exact .edge (Graph.mem_references_of_base hg.toFit hb)
  obtain ⟨d, hd, hnd⟩ := hcs.mem_iff.mp hdecl
  obtain ⟨j', hj'⟩ := List.getElem?_of_mem hd
  have hle := hcs.order j j' c d hp.mem hj' p.node hpc n hnd hreach
  rcases Nat.lt_or_eq_of_le hle with hlt | rfl
  · exact hp.earlier j' hlt d hj' n ((written_sorted hg hcs hd).1.mem_iff.mpr hnd)
  · obtain rfl : c = d := Option.some.inj (hp.mem.symm.trans hj')
    apply hp.before
    rcases hcase with ⟨_, hnot⟩ | hb
    · have hmem := hperm.mem_iff.mpr hnd
      rw [show g.basesFirst c.nodes = _ from hp.split] at hmem
      exact (List.mem_append.mp hmem).resolve_right hnot
    · exact hsorted before p.node after hp.split n hnd hb

/-- What a group defers leads back to it. -/
theorem cyclic_of_later (hg : g.Linked) (hcs : IsGrouping g.references g.declarations cs)
    {k i j : Nat} {ds : List Planned} {p : Planned} {c : Group} {before after : List NodeId}
    (hp : ({ graph := g } : Builder).Stands cs k ds i p j c before after) {n : NodeId}
    (hn : ({ graph := g, pending := p.node :: after } : Builder).Later p.node n) :
    p.cyclic = true := by
  obtain ⟨_, hleads, hpending⟩ := hn
  have hc := List.mem_of_getElem? hp.mem
  have hmem : ∀ x ∈ p.node :: after, x ∈ c.nodes := by
    intro x hx
    apply (written_sorted hg hcs hc).1.subset
    rw [show g.basesFirst c.nodes = _ from hp.split]
    exact List.mem_append_right _ hx
  have hpc := hmem p.node List.mem_cons_self
  have hback := ((hcs.same_iff j j c c hp.mem hp.mem n (hmem n hpending) p.node hpc).mp rfl).1
  rw [hp.cyclic]
  exact (hcs.cyclic_iff c hc p.node hpc).mpr (hleads.trans_reaches hback)

/-- The order a module needs: every declaration of the graph is there once; what an expression
refers to directly is declared before it, and what it defers belongs to its own cyclic group. -/
structure Ordered (g : Graph) (ds : List Planned) : Prop where
  nodup : (ds.map (·.node)).Nodup
  nodes : ∀ n, n ∈ ds.map (·.node) ↔ n ∈ g.declarations
  direct : ∀ (i : Nat) (p : Planned), ds[i]? = some p → ∀ n, (Expr.ref n).Occurs p.expr →
    ∃ (j : Nat) (q : Planned), ds[j]? = some q ∧ q.node = n ∧ j < i
  deferred : ∀ (i : Nat) (p : Planned), ds[i]? = some p → ∀ n, (Expr.lazy n).Occurs p.expr →
    p.cyclic = true ∧
      ∃ (j : Nat) (q : Planned), ds[j]? = some q ∧ q.node = n ∧ i ≤ j ∧ q.group = p.group

/-- Nothing is used before it is initialised, and only references inside a cycle are deferred. -/
theorem plan_ordered {d : Document} {ds : List Planned} (hlink : Graph.link d = .ok g)
    (hplan : plan g {} = .ok ds) : Ordered g ds := by
  have hg := Graph.linked_of_link hlink
  have hperm := plan_nodes hg hplan
  obtain ⟨cs, hcs, hgroups⟩ := plan_eq_ok hg hplan
  have hkeeps : ∀ (i : Nat) (p : Planned), ds[i]? = some p →
      ∃ j c before after, ({ graph := g } : Builder).Stands cs 0 ds i p j c before after ∧
        p.expr.Keeps (({ graph := g, pending := p.node :: after } : Builder).Now p.node)
          (({ graph := g, pending := p.node :: after } : Builder).Later p.node) := by
    intro i p hp
    obtain ⟨j, c, before, after, hstands⟩ := Builder.planGroups_at hgroups hp
    have hdecl : p.node ∈ g.declarations :=
      hperm.subset (List.mem_map_of_mem (List.mem_of_getElem? hp))
    exact ⟨j, c, before, after, hstands, Builder.keeps_declare
      (b := { graph := g, pending := p.node :: after }) hg.toFit rfl hdecl hstands.declare⟩
  refine ⟨hperm.nodup_iff.mpr hg.nodup, fun n => hperm.mem_iff, ?_, ?_⟩
  · intro i p hp n hn
    obtain ⟨j, c, before, after, hstands, hkeeps⟩ := hkeeps i p hp
    obtain ⟨q, hq, hqn⟩ := earlier_of_now hg hcs hstands (hkeeps.now n hn)
    obtain ⟨j', hj'⟩ := List.getElem?_of_mem hq
    rw [List.getElem?_take] at hj'
    split at hj'
    · exact ⟨j', q, hj', hqn, by assumption⟩
    · cases hj'
  · intro i p hp n hn
    obtain ⟨j, c, before, after, hstands, hkeeps⟩ := hkeeps i p hp
    have hlater := hkeeps.later n hn
    refine ⟨cyclic_of_later hg hcs hstands hlater, ?_⟩
    obtain ⟨q, hq, hqn, hgroup⟩ := hstands.pending n hlater.2.2
    obtain ⟨j', hj'⟩ := List.getElem?_of_mem hq
    rw [List.getElem?_drop] at hj'
    exact ⟨i + j', q, hj', hqn, Nat.le_add_right _ _, hgroup⟩

end Linked

/-- A tree whose inner nodes extend the model of all nodes. -/
def treeDocument : Document where
  models :=
    [{ name := "Inner", base := some (.named "Tree")
       properties := [{ name := "left", type := .named "Tree" }] },
     { name := "Tree", properties := [{ name := "parent", type := .named "Inner", optional := true }] }]

set_option maxRecDepth 100000 in
theorem plan_ordered_treeDocument : ∃ g ds, Graph.link treeDocument = .ok g ∧
    plan g {} = .ok ds ∧ ds.map (fun p => (p.name, p.group, p.cyclic)) =
      [(Text.ofString "Tree", 0, true), (Text.ofString "Inner", 0, true)] ∧ Ordered g ds := by
  have hrun : (Graph.link treeDocument >>= fun g => (plan g {}).map fun ds =>
      ds.map fun p => (p.name, p.group, p.cyclic)) =
      .ok [(Text.ofString "Tree", 0, true), (Text.ofString "Inner", 0, true)] := by
    decide +kernel
  obtain ⟨g, hg, hrun⟩ := Result.bind_eq_ok.mp hrun
  obtain ⟨ds, hds, hnames⟩ := Result.map_eq_ok.mp hrun
  exact ⟨g, ds, hg, hds, hnames, plan_ordered hg hds⟩

end SchemaLoom

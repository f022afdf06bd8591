import SchemaLoom.Proofs.FieldOccurrence

/-!
# Calls on deferred references

A deferred reference is no schema of its own kind yet: it takes the calls that every schema
takes, and no others. What a field adds to a deferred reference is that it is optional, its
default and its description; and, where the type is an array, the limits of its length.
Those are the one exception, and whether there is one depends on the order of the plan.
-/

namespace SchemaLoom

set_option autoImplicit false

open SchemaLoom.Expr

/-- The calls that every schema takes. -/
def memberMethods : List Text := ["optional", "default", "describe"]

/-- Behind every deferred reference stand calls of these methods only. -/
def DefersTo (names : List Text) (ds : List Planned) : Prop :=
  ∀ p ∈ ds, ∀ before n after, (Expr.chain (before ++ .lazy n :: after)).Occurs p.expr →
    ∀ e ∈ after, e.callsOneOf names = true

/-- The decorators limit a number of items. -/
def Decorators.Counts (x : Decorators) : Prop :=
  (∃ n ∈ x.minItems, 0 < n) ∨ ∃ n ∈ x.maxItems, 0 < n

instance (x : Decorators) : Decidable x.Counts :=
  inferInstanceAs (Decidable (_ ∨ _))

/-- The type `t` of the field `f` is declared no earlier than what the field is written in. -/
def DefersField (g : Graph) (ds : List Planned) (f t : NodeId) : Prop :=
  ∃ (i : Nat) (p : Planned) (n : NodeId), ds[i]? = some p ∧
    ({ graph := g } : Builder).Part p.node n ∧ f ∈ ({ graph := g } : Builder).fields n ∧
    (g.node f).type = some t ∧ ∃ q ∈ ds.drop i, q.node = t

/-! ### What a field adds -/

theorem Expr.callsOneOf_append {names others : List Text} {e : Expr} :
    e.callsOneOf (names ++ others) = true ↔
      e.callsOneOf names = true ∨ e.callsOneOf others = true := by
  cases e <;> simp [callsOneOf]

theorem exists_mem_countCall (name : String) {limit : Option Int} (h : ∃ n ∈ limit, 0 < n) :
    ∃ args, .call (Text.ofString name) args ∈ countCall name limit := by
  obtain ⟨n, rfl, hpos⟩ := h
  simp [countCall, hpos]

theorem arrayCalls_single (x : Decorators) :
    arrayCalls [x] = countCall "min" x.minItems ++ countCall "max" x.maxItems := rfl

theorem counts_of_mem_arrayCalls {x : Decorators} {e : Expr} (he : e ∈ arrayCalls [x]) :
    x.Counts ∧ e.callsOneOf countMethods = true := by
  rw [arrayCalls_single] at he
  rcases List.mem_append.mp he with he | he
  · obtain ⟨n, hn, hpos, rfl⟩ := mem_countCall he
    exact ⟨.inl ⟨n, hn, hpos⟩, rfl⟩
  · obtain ⟨n, hn, hpos, rfl⟩ := mem_countCall he
    exact ⟨.inr ⟨n, hn, hpos⟩, rfl⟩

theorem exists_mem_arrayCalls {x : Decorators} (h : x.Counts) :
    ∃ e ∈ arrayCalls [x], e.callsOneOf memberMethods = false := by
  rw [arrayCalls_single]
  rcases h with h | h
  · obtain ⟨args, hmem⟩ := exists_mem_countCall "min" h
    exact ⟨_, List.mem_append_left _ hmem, rfl⟩
  · obtain ⟨args, hmem⟩ := exists_mem_countCall "max" h
    exact ⟨_, List.mem_append_right _ hmem, rfl⟩

namespace Graph
variable {g : Graph}

theorem constraints_of_array {t : NodeId} (harray : (g.node t).isArray = true)
    (x : Decorators) : g.constraints t (some x) false = .ok (arrayCalls [x]) := by
  simp [constraints, sources, Node.kind_of_isArray harray, harray]

theorem constraints_of_other {t : NodeId} (hkind : (g.node t).kind ≠ .scalar)
    (harray : (g.node t).isArray = false) (member : Option Decorators) (inlined : Bool) :
    g.constraints t member inlined = .ok [] := by
  simp [constraints, hkind, harray]

theorem kind_of_reaches_scalar (hg : g.Fit) {t n : NodeId} (h : Reaches g.references t n)
    (hkind : (g.node t).kind = .scalar) : (g.node n).kind = .scalar := by
  induction h with
  | refl => exact hkind
  | @tail u v _ hv ih =>
    have hbase : (g.node u).base = some v := by simpa [references, ih] using hv
    have hlt : u < g.nodes.size := by
      by_contra hge
      rw [references_of_size_le _ _ (Nat.le_of_not_lt hge)] at hv
      cases hv
    rw [((hg.fits_of_lt hlt).base v hbase).2, ih]

end Graph

namespace Builder
variable {b : Builder}

theorem not_mem_fields_of_scalar {m n f : NodeId} (hpart : b.Part m n)
    (hkind : (b.graph.node m).kind = .scalar) : f ∉ b.fields n := by
  cases hpart with
  | self => simp [fields, hkind]
  | step ht => simp [inside, hkind] at ht

theorem callsOneOf_of_mem_field {prop : Node} {type : Option Subject} {member : List Expr}
    (hmember : b.memberParts prop type = .ok member) {e : Expr}
    (he : e ∈ member ++ describe [prop]) : e.callsOneOf memberMethods = true := by
  rcases List.mem_append.mp he with he | he
  · rcases mem_memberParts hmember he with rfl | ⟨_, _, _, _, _, rfl⟩
    · rfl
    · rfl
  · obtain ⟨t, rfl⟩ := mem_describe he
    rfl

/-- A deferred reference in a chain is the type of a field, and pending. -/
theorem Form.deferred {m n : NodeId} {before after : List Expr}
    (h : b.Form m (before ++ .lazy n :: after)) :
    ∃ k f cs member, b.Part m k ∧ f ∈ b.fields k ∧ (b.graph.node f).type = some n ∧
      n ∈ b.pending ∧ b.graph.constraints n (some (b.graph.node f).decorators) false = .ok cs ∧
      b.memberParts (b.graph.node f) (some (b.graph.subject n)) = .ok member ∧
      after = cs ++ (member ++ describe [b.graph.node f]) := by
  obtain rfl := h.start_of_not_isStep rfl
  rw [List.nil_append] at h
  generalize hps : Expr.lazy n :: after = ps at h
  cases h with
  | library _ => cases hps
  | merged _ _ => cases hps
  | @field k f t cs member hpart hf htype _ hcs hmember =>
    obtain ⟨hstart, rfl⟩ := List.cons.inj hps
    unfold refer at hstart
    split at hstart
    · rename_i hpending
      cases hstart
      exact ⟨k, f, cs, member, hpart, hf, htype, List.contains_iff_mem.mp hpending, hcs, hmember,
        List.append_assoc ..⟩
    · cases hstart

/-- The field of an array that is counted is the reference with the limits behind it. -/
theorem fieldOf_counted (hg : b.graph.Fit) (hr : b.registry = {}) {base : BaseOf} {f t : NodeId}
    (hf : f < b.graph.nodes.size) (htype : (b.graph.node f).type = some t)
    (ht : t ∈ b.graph.declarations) (harray : (b.graph.node t).isArray = true)
    (hcounts : (b.graph.node f).decorators.Counts) {x : Expr} (h : b.fieldOf base f = .ok x) :
    ∃ after, x = .chain (b.refer t :: after) ∧ ∃ e ∈ after, e.callsOneOf memberMethods = false := by
  have hlt := hg.kept t ht
  rw [fieldOf_of_type hf htype hlt] at h
  obtain ⟨cs, member, hmember, ⟨_, hcs, rfl⟩ | ⟨hdecl, _⟩⟩ := field_cases hg hr hlt h
  case inr => exact absurd ht hdecl
  have hcs : b.graph.constraints t (some (b.graph.node f).decorators) false = .ok cs := hcs
  have hsteps : ∀ e ∈ cs ++ member ++ describe [b.graph.node f], e.isStep = true :=
    fun e he => isStep_of_isCall (trails_of_mem_field hcs hmember he).isCall
  rw [Graph.constraints_of_array harray] at hcs
  cases hcs
  obtain ⟨e, he, hname⟩ := exists_mem_arrayCalls hcounts
  have hmem : e ∈ arrayCalls [(b.graph.node f).decorators] ++ member ++
      describe [b.graph.node f] := List.mem_append_left _ (List.mem_append_left _ he)
  refine ⟨_, ?_, e, hmem, hname⟩
  have hrefer : (b.refer t).parts = [b.refer t] ∧ (b.refer t).isCall = false := by
    unfold refer
    split
    · exact ⟨rfl, rfl⟩
    · exact ⟨rfl, rfl⟩
  rw [Parts.expr, ofParts_start hrefer.1 hrefer.2 (by simp [Graph.subject]) hsteps,
    if_neg (List.ne_nil_of_mem hmem)]

end Builder

/-! ### Plans -/

section Plans
variable {g : Graph} {ds : List Planned}

/-- A deferred reference of a plan stands in a field. What the field adds to it are calls that
every schema takes, and limits of its length. -/
theorem exists_field_of_deferred (hg : g.Linked) (hplan : plan g {} = .ok ds) {p : Planned}
    (hp : p ∈ ds) {before after : List Expr} {n : NodeId}
    (hoccurs : (Expr.chain (before ++ .lazy n :: after)).Occurs p.expr) :
    ∃ f, DefersField g ds f n ∧ ∀ e ∈ after, e.callsOneOf memberMethods = true ∨
      (g.node n).isArray = true ∧ (g.node f).decorators.Counts ∧
        e.callsOneOf countMethods = true := by
  obtain ⟨groups, hgroups, hrun⟩ := plan_eq_ok hg hplan
  obtain ⟨i, hi⟩ := List.getElem?_of_mem hp
  obtain ⟨j, c, left, right, hstands⟩ := Builder.planGroups_at hrun hi
  have hdecl := (declare_of_planned hg hplan hp).1
  have hform := Builder.chains_declare (b := { graph := g, pending := p.node :: right })
    hg.toFit rfl hdecl hstands.declare _ hoccurs
  obtain ⟨k, f, cs, member, hpart, hf, htype, hpending, hcs, hmember, rfl⟩ := hform.deferred
  obtain ⟨q, hq, hqn, _⟩ := hstands.pending n hpending
  refine ⟨f, ⟨i, p, k, hi, Builder.Part.congr_pending.mp hpart, hf, htype, q, hq, hqn⟩, ?_⟩
  -- a pending scalar would lead back to the declaration, which then is a scalar without fields
  have hscalar : (g.node n).kind ≠ .scalar := by
    intro hkind
    have hmem : ∀ x ∈ p.node :: right, x ∈ c.nodes := by
      intro x hx
      apply (written_sorted hg hgroups (List.mem_of_getElem? hstands.mem)).1.subset
      rw [show g.basesFirst c.nodes = _ from hstands.split]
      exact List.mem_append_right _ hx
    have hback := ((hgroups.same_iff j j c c hstands.mem hstands.mem n (hmem n hpending) p.node
      (hmem p.node List.mem_cons_self)).mp rfl).1
    exact Builder.not_mem_fields_of_scalar hpart
      (Graph.kind_of_reaches_scalar hg.toFit hback hkind) hf
  intro e he
  rcases List.mem_append.mp he with he | he
  · cases harray : (g.node n).isArray with
    | true =>
      rw [Graph.constraints_of_array harray] at hcs
      cases hcs
      exact .inr ⟨rfl, counts_of_mem_arrayCalls he⟩
    | false =>
      rw [Graph.constraints_of_other hscalar harray] at hcs
      cases hcs
      cases he
  · exact .inl (Builder.callsOneOf_of_mem_field hmember he)

/-- What is declared no earlier is not referred to directly. -/
theorem not_occurs_ref_of_later (hg : g.Linked) (hplan : plan g {} = .ok ds) {i : Nat}
    {p : Planned} (hi : ds[i]? = some p) {q : Planned} (hq : q ∈ ds.drop i) :
    ¬ (Expr.ref q.node).Occurs p.expr := by
  intro hoccurs
  obtain ⟨groups, hgroups, hrun⟩ := plan_eq_ok hg hplan
  obtain ⟨j, c, left, right, hstands⟩ := Builder.planGroups_at hrun hi
  have hdecl := (declare_of_planned hg hplan (List.mem_of_getElem? hi)).1
  have hnow := (Builder.keeps_declare (b := { graph := g, pending := p.node :: right }) hg.toFit
    rfl hdecl hstands.declare).now q.node hoccurs
  obtain ⟨r, hr, hrq⟩ := earlier_of_now hg hgroups hstands hnow
  -- a declaration stands in the plan once
  have hnodup := (plan_nodes hg hplan).nodup_iff.mpr hg.nodup
  apply List.disjoint_take_drop hnodup (Nat.le_refl i)
  · rw [← List.map_take]
    exact List.mem_map_of_mem hr
  · rw [← List.map_drop, hrq]
    exact List.mem_map_of_mem hq

theorem not_counts_of_defersTo (hg : g.Linked) (hplan : plan g {} = .ok ds)
    (h : DefersTo memberMethods ds) {f t : NodeId} (hfield : DefersField g ds f t)
    (harray : (g.node t).isArray = true) : ¬ (g.node f).decorators.Counts := by
  intro hcounts
  obtain ⟨i, p, n, hi, hpart, hf, htype, q, hq, rfl⟩ := hfield
  have hp := List.mem_of_getElem? hi
  obtain ⟨hdecl, pending, hdeclare⟩ := declare_of_planned hg hplan hp
  have ht := (declare_of_planned hg hplan (List.mem_of_mem_drop hq)).1
  obtain ⟨fuel, expanding, x, hx, hoccurs⟩ := Builder.occurs_declare
    (b := { graph := g, pending }) hg.toFit rfl hdecl hdeclare
    (Builder.Part.congr_pending.mpr hpart) hf
  have hflt : f < g.nodes.size := by
    by_contra hge
    simp [Graph.node, Graph.node?, hge] at htype
  obtain ⟨after, rfl, e, he, hname⟩ := Builder.fieldOf_counted
    (b := { graph := g, pending }) hg.toFit rfl hflt htype ht harray hcounts hx
  unfold Builder.refer at hoccurs
  split at hoccurs
  · rw [h p hp [] q.node after hoccurs e he] at hname
    cases hname
  · exact not_occurs_ref_of_later hg hplan hi hq (.trans (.chain List.mem_cons_self .here) hoccurs)

end Plans

/-- Behind a deferred reference stand the calls that every schema takes, and at most the limits of
a length beside them; those stand there exactly where the type of a field with such limits is an
array that is declared no earlier. -/
theorem defersTo_memberMethods_iff {d : Document} {g : Graph} {ds : List Planned}
    (hlink : Graph.link d = .ok g) (hplan : plan g {} = .ok ds) :
    DefersTo (countMethods ++ memberMethods) ds ∧
      (DefersTo memberMethods ds ↔ ∀ f t, DefersField g ds f t → (g.node t).isArray = true →
        ¬ (g.node f).decorators.Counts) := by
  have hg := Graph.linked_of_link hlink
  refine ⟨?_, ?_, ?_⟩
  · intro p hp before n after hoccurs e he
    obtain ⟨f, _, hafter⟩ := exists_field_of_deferred hg hplan hp hoccurs
    rw [callsOneOf_append]
    rcases hafter e he with hmember | ⟨_, _, hcount⟩
    · exact .inr hmember
    · exact .inl hcount
  · intro h f t hfield harray
    exact not_counts_of_defersTo hg hplan h hfield harray
  · intro h p hp before n after hoccurs e he
    obtain ⟨f, hfield, hafter⟩ := exists_field_of_deferred hg hplan hp hoccurs
    rcases hafter e he with hmember | ⟨harray, hcounts, _⟩
    · exact hmember
    · exact absurd hcounts (h f n hfield harray)

set_option maxRecDepth 100000 in
theorem defersTo_memberMethods_iff_treeDocument : ∃ g ds, Graph.link treeDocument = .ok g ∧
    plan g {} = .ok ds ∧ DefersTo memberMethods ds := by
  have hrun : (Graph.link treeDocument >>= fun g => (plan g {}).map fun _ =>
      decide (∀ x ∈ g.nodes.toList, ¬ x.decorators.Counts)) = .ok true := by
    decide +kernel
  obtain ⟨g, hg, hrun⟩ := Result.bind_eq_ok.mp hrun
  obtain ⟨ds, hds, hnone⟩ := Result.map_eq_ok.mp hrun
  refine ⟨g, ds, hg, hds, (defersTo_memberMethods_iff hg hds).2.mpr ?_⟩
  intro f t hfield _
  obtain ⟨_, _, _, _, _, _, htype, _⟩ := hfield
  have hf : f < g.nodes.size := by
    by_contra hge
    simp [Graph.node, Graph.node?, hge] at htype
  have hnode : g.node f = g.nodes[f] := by simp [Graph.node, Graph.node?, hf]
  rw [hnode]
  exact of_decide_eq_true hnone _ (by simp)

/-- Forests of nodes, whose children are a forest that is not empty. -/
def countedForest : Document where
  models :=
    [{ name := "Forest", source := some { array := some (.named "Node") } },
     { name := "Node"
       properties := [{ name := "children", type := .named "Forest"
                        decorators := { minItems := some 1 } }] }]

set_option maxRecDepth 100000 in
/-- The node is declared first, so the length of a deferred forest is limited. -/
theorem countedForest_not_defersTo : ∃ g ds, Graph.link countedForest = .ok g ∧
    plan g {} = .ok ds ∧ ¬ DefersTo memberMethods ds := by
  -- the models stand at 29 and 30, after the built-in types, and the property at 31
  have hrun : (Graph.link countedForest >>= fun g => (plan g {}).map fun ds =>
      decide (ds.map (·.node) = [30, 29] ∧ 31 ∈ ({ graph := g } : Builder).fields 30 ∧
        (g.node 31).type = some 29 ∧ (g.node 29).isArray = true ∧
        (g.node 31).decorators.Counts)) = .ok true := by
    decide +kernel
  obtain ⟨g, hg, hrun⟩ := Result.bind_eq_ok.mp hrun
  obtain ⟨ds, hds, hrun⟩ := Result.map_eq_ok.mp hrun
  obtain ⟨hnodes, hfield, htype, harray, hcounts⟩ := of_decide_eq_true hrun
  refine ⟨g, ds, hg, hds, ?_⟩
  intro h
  obtain ⟨p, rest, rfl, hp, hrest⟩ := List.map_eq_cons_iff.mp hnodes
  obtain ⟨q, _, rfl, hq, _⟩ := List.map_eq_cons_iff.mp hrest
  refine not_counts_of_defersTo (Graph.linked_of_link hg) hds h (f := 31) (t := 29) ?_ harray hcounts
  refine ⟨0, p, 30, rfl, ?_, hfield, htype, q, by simp, hq⟩
  rw [hp]
  exact .self 30

end SchemaLoom

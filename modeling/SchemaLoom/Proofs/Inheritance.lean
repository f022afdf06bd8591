import SchemaLoom.Proofs.Completion

/-!
# Inherited properties

The declaration of a model writes the properties of the model and of the ancestors up
to the next declared one. It is merged into the declaration of its base where the base
has one, and takes all that this declaration contributes. So properties come from the
declared models a base chain begins with, and from the models after them that are
written out. A declared model behind one that is written out is neither merged nor
written out: its properties are lost.

Overrides may keep a model from being declared here, but may not write anything.
Chains with an array on them are left out.
-/

namespace SchemaLoom

set_option autoImplicit false

/-! ### The keys of an expression -/

namespace Expr

/-- The calls that pass the keys of their arguments on. -/
def objectCalls : List Text := ["object", "merge", "intersection"]

mutual
/-- The keys of the objects a schema is put together from. -/
def keys : Expr → List Text
  | chain ps => keysOf ps
  | call name args => if objectCalls.contains name then keysOf args else []
  | object props => props.map (·.1)
  | _ => []

def keysOf : List Expr → List Text
  | [] => []
  | e :: es => e.keys ++ keysOf es
end

/-- The declaration a merge is applied to. -/
def mergedInto? : Expr → Option NodeId
  | chain (ref a :: call name _ :: _) => if name = Text.ofString "merge" then some a else none
  | _ => none

@[simp] theorem keysOf_nil : keysOf [] = [] := rfl

@[simp] theorem keysOf_cons (e : Expr) (es : List Expr) :
    keysOf (e :: es) = e.keys ++ keysOf es := rfl

@[simp] theorem keys_z : z.keys = [] := rfl

@[simp] theorem keys_ref (n : NodeId) : (ref n).keys = [] := rfl

theorem keys_call (name : Text) (args : List Expr) :
    (call name args).keys = if objectCalls.contains name then keysOf args else [] := rfl

@[simp] theorem keys_call_object (args : List Expr) : (call "object" args).keys = keysOf args := by
  rw [keys_call, if_pos (by decide)]

@[simp] theorem keys_call_merge (args : List Expr) : (call "merge" args).keys = keysOf args := by
  rw [keys_call, if_pos (by decide)]

@[simp] theorem keys_call_intersection (args : List Expr) :
    (call "intersection" args).keys = keysOf args := by
  rw [keys_call, if_pos (by decide)]

@[simp] theorem keys_call_record (args : List Expr) : (call "record" args).keys = [] := by
  rw [keys_call, if_neg (by decide)]

@[simp] theorem keysOf_append (es fs : List Expr) : keysOf (es ++ fs) = keysOf es ++ keysOf fs := by
  induction es with
  | nil => rfl
  | cons e es ih => rw [List.cons_append, keysOf_cons, ih, keysOf_cons, List.append_assoc]

theorem keysOf_parts (e : Expr) : keysOf e.parts = e.keys := by
  cases e <;> simp [parts, keysOf, keys]

theorem keysOf_flatMap_parts (es : List Expr) : keysOf (es.flatMap parts) = keysOf es := by
  induction es with
  | nil => rfl
  | cons e es ih => rw [List.flatMap_cons, keysOf_append, keysOf_parts, ih, keysOf_cons]

@[simp] theorem keys_ofParts (groups : List (List Expr)) :
    (ofParts groups).keys = keysOf groups.flatten := by
  rw [← keysOf_flatMap_parts]
  unfold ofParts
  split
  · rename_i e he
    rw [he]
    split <;> simp [keysOf, keys]
  · rw [keys]

end Expr

open SchemaLoom.Expr

theorem keysOf_describe (ns : List Node) : keysOf (describe ns) = [] := by
  unfold describe
  split
  · rw [keysOf_cons, keys_call, if_neg (by decide)]
    rfl
  · rfl

theorem keys_expr (es : List Expr) (ns : List Node) :
    ({ base := es, description := describe ns } : Parts).expr.keys = keysOf es := by
  simp [Parts.expr, keysOf_describe]

/-- A chain starts at its base schema, whatever describes it. -/
theorem expr_eq_chain {e f : Expr} (he : e.parts = [e]) (hf : f.parts = [f]) (ns : List Node) :
    ({ base := [e, f], description := describe ns } : Parts).expr =
      .chain (e :: f :: (describe ns).flatMap parts) := by
  simp [Parts.expr, ofParts, he, hf]

theorem mergedInto?_merge (a : NodeId) (args : List Expr) (ns : List Node) :
    ({ base := [.ref a, .call "merge" args], description := describe ns } : Parts).expr.mergedInto? =
      some a := by
  rw [expr_eq_chain rfl rfl, mergedInto?, if_pos rfl]

theorem mergedInto?_fromZ (name : Text) (args : List Expr) (ns : List Node) :
    ({ base := fromZ [.call name args], description := describe ns } : Parts).expr.mergedInto? =
      none := by
  rw [fromZ, expr_eq_chain rfl rfl]
  rfl

namespace Builder
variable {b : Builder}

/-! ### The schema of a model -/

theorem objectOf_eq_ok {base : BaseOf} {ps : List NodeId} {e : Expr}
    (h : b.objectOf base ps = .ok e) : e.keys = ps.map b.graph.nameOf := by
  obtain ⟨fields, hfields, h⟩ := Result.bind_eq_ok.mp h
  cases h
  have hall := Result.mapM_eq_ok.mp hfields
  clear hfields h
  rw [keys]
  induction hall with
  | nil => rfl
  | cons hfield _ ih =>
    obtain ⟨x, _, hx⟩ := Result.bind_eq_ok.mp hfield
    cases hx
    rw [List.map_cons, List.map_cons, ih]

/-- The shape of a model has a key for each of its properties. -/
theorem keysOf_shape {base : BaseOf} {m : Subject} {es : List Expr} (h : b.shape base m = .ok es) :
    keysOf es = (b.shapeProperties m).map b.graph.nameOf := by
  cases shaped_of_shape h with
  | object _ hobj => simp [fromZ, objectOf_eq_ok hobj]
  | record _ hempty _ _ => simp [fromZ, hempty]
  | both _ _ _ _ hobj => simp [fromZ, objectOf_eq_ok hobj]

/-- The declaration of a model has the keys of its shape, and is merged into the base that uses
refer to. -/
theorem declare_model (hr : b.registry.Silent) {n : NodeId}
    (hkind : (b.graph.node n).kind = .model) (harray : (b.graph.node n).isArray = false) {e : Expr}
    (h : b.declare (b.graph.subject n) = .ok e) :
    e.keys = (b.shapeProperties (b.graph.subject n)).map b.graph.nameOf ∧
      e.mergedInto? = b.mergeBase? (b.graph.subject n) := by
  have hnot : (b.graph.node n).kind ≠ .modelProperty := by simp [hkind]
  rw [declare_of_silent hr] at h
  obtain ⟨bs, cs, hbs, hcs, rfl⟩ := inline_eq_ok hnot h
  cases (Graph.constraints_of_shape hkind harray none true).symm.trans hcs
  obtain ⟨_, _, hstep⟩ := baseStep_of_baseSchema hbs
  obtain ⟨shape, hshape, hmerged⟩ := (composed_of_baseStep hstep).of_shape hkind harray
  obtain ⟨name, args, rfl⟩ := (shaped_of_shape hshape).call
  rw [← keysOf_shape hshape]
  obtain ⟨hnone, rfl⟩ | ⟨a, ha, rfl⟩ := hmerged
  · rw [hnone]
    exact ⟨by simp [keys_expr], mergedInto?_fromZ _ _ _⟩
  · rw [ha]
    exact ⟨by simp [keys_expr], mergedInto?_merge a _ _⟩

/-! ### Base chains -/

/-- The nodes a chain begins with that are written out. -/
def writtenOut (b : Builder) (chain : List NodeId) : List NodeId :=
  chain.takeWhile fun a => !b.refersTo a

/-- The nodes of a base chain that the declaration of its first node takes its properties from:
the declared ones it begins with, and after them those that are written out. -/
def kept (b : Builder) (n : NodeId) : List NodeId :=
  (b.graph.baseChain n).takeWhile b.refersTo ++
    b.writtenOut ((b.graph.baseChain n).dropWhile b.refersTo)

/-- The rest of the base chain. -/
def lost (b : Builder) (n : NodeId) : List NodeId :=
  ((b.graph.baseChain n).dropWhile b.refersTo).dropWhile fun a => !b.refersTo a

theorem kept_append_lost (n : NodeId) : b.kept n ++ b.lost n = b.graph.baseChain n := by
  rw [kept, lost, writtenOut, List.append_assoc, List.takeWhile_append_dropWhile,
    List.takeWhile_append_dropWhile]

end Builder

namespace Graph
variable {g : Graph}

/-- The names of the properties of some nodes. -/
def propertyNames (g : Graph) (ns : List NodeId) : List Text :=
  ns.flatMap fun n => (g.node n).properties.map g.nameOf

@[simp] theorem propertyNames_append (ms ns : List NodeId) :
    g.propertyNames (ms ++ ns) = g.propertyNames ms ++ g.propertyNames ns := by
  simp [propertyNames]

/-- One more step changes nothing about a chain that has come to its end. -/
theorem ancestors_succ {fuel : Nat} {n : NodeId} (h : (g.ancestors (fuel + 1) n).length ≤ fuel) :
    g.ancestors (fuel + 1) n = g.ancestors fuel n := by
  induction fuel generalizing n with
  | zero => exact List.eq_nil_of_length_eq_zero (Nat.le_zero.mp h)
  | succ fuel ih =>
    rw [ancestors] at h ⊢
    rw [ancestors]
    cases hnode : g.node? n with
    | none => rfl
    | some node =>
      cases hbase : node.base with
      | none => simp only [hbase]
      | some a =>
        simp only [hnode, hbase, List.length_cons] at h
        simp only [hbase, ih (Nat.le_of_succ_le_succ h)]

theorem baseChain_of_lt {n : NodeId} (hn : n < g.nodes.size) :
    g.baseChain n = n :: match (g.node n).base with
      | none => []
      | some a => g.ancestors (g.nodes.size - 1) a := by
  obtain ⟨fuel, hfuel⟩ := Nat.exists_eq_add_one.mpr (Nat.zero_lt_of_lt hn)
  rw [baseChain, hfuel, ancestors, node?_of_lt hn]
  rfl

theorem Linked.baseChain_of_base (hg : g.Linked) {n a : NodeId} (hn : n ∈ g.declarations)
    (hbase : (g.node n).base = some a) : g.baseChain n = n :: g.baseChain a := by
  have hlen : (g.ancestors (g.nodes.size + 1) n).length ≤ g.nodes.size := by
    simpa [baseLoops] using hg.ends n hn
  rw [baseChain, ← ancestors_succ hlen, ancestors, node?_of_lt (hg.kept n hn)]
  simp only [hbase, baseChain]

end Graph

namespace Builder
variable {b : Builder}

theorem kept_of_base_none {n : NodeId} (hn : n < b.graph.nodes.size)
    (hbase : (b.graph.node n).base = none) : b.kept n = [n] := by
  rw [kept, Graph.baseChain_of_lt hn, hbase]
  cases hr : b.refersTo n <;> simp [hr, writtenOut]

theorem kept_of_base (hg : b.graph.Linked) {n a : NodeId} (hn : n ∈ b.graph.declarations)
    (hr : b.refersTo n = true) (hbase : (b.graph.node n).base = some a) :
    b.kept n = n :: b.kept a := by
  rw [kept, hg.baseChain_of_base hn hbase]
  simp [hr, kept]

theorem kept_of_not_refersTo {a : NodeId} (ha : a < b.graph.nodes.size)
    (hr : b.refersTo a = false) : b.kept a = b.writtenOut (b.graph.baseChain a) := by
  rw [kept, Graph.baseChain_of_lt ha]
  simp [hr]

theorem flattened_eq (n : NodeId) : b.flattened (b.graph.subject n) =
    (n :: ((b.graph.node n).base.toList.flatMap fun a =>
      b.writtenOut (b.graph.baseChain a))).map b.graph.node := by
  cases hbase : (b.graph.node n).base with
  | none => simp [flattened, Graph.subject, hbase]
  | some a =>
    have hsubjects : (b.graph.baseChain a).filterMap b.graph.subject? =
        (b.graph.baseChain a).map b.graph.subject := by
      rw [← List.filterMap_eq_map]
      apply List.filterMap_congr
      intro x hx
      exact Graph.subject?_of_lt (Graph.lt_of_mem_ancestors hx)
    have hbase' : (b.graph.subject n).node.base = some a := hbase
    simp only [flattened, hbase', hsubjects, List.takeWhile_map, List.map_map]
    simp [writtenOut, refersTo, Graph.subject, Function.comp_def]

theorem mem_shapeNames {n : NodeId} {k : Text} :
    k ∈ (b.shapeProperties (b.graph.subject n)).map b.graph.nameOf ↔
      k ∈ b.graph.propertyNames (n :: ((b.graph.node n).base.toList.flatMap fun a =>
        b.writtenOut (b.graph.baseChain a))) := by
  rw [shapeProperties, flattened_eq, ← List.map_reverse, List.flatMap_map, List.map_flatMap,
    List.mem_flatMap, Graph.propertyNames, List.mem_flatMap]
  simp only [List.mem_reverse]

theorem mergeBase?_eq_some (hg : b.graph.Fit) {n a : NodeId} (hn : n < b.graph.nodes.size) :
    b.mergeBase? (b.graph.subject n) = some a ↔
      (b.graph.node n).base = some a ∧ b.refersTo a = true := by
  cases hbase : (b.graph.node n).base with
  | none => simp [mergeBase?, subject?, Graph.subject, hbase]
  | some c =>
    have hc : c < b.graph.nodes.size :=
      (hg.fits_of_lt hn).lt c (Node.mem_mentions_of_base hbase)
    have htarget : b.mergeBase? (b.graph.subject n) = b.target? (b.graph.subject c) := by
      simp only [mergeBase?, subject?, show (b.graph.subject n).node.base = some c from hbase,
        Option.bind_some, Graph.subject?_of_lt hc]
    rw [htarget, target?]
    change (if b.refersTo c = true then some c else none) = some a ↔ _
    constructor
    · intro h
      split at h
      · cases h
        exact ⟨rfl, by assumption⟩
      · cases h
    · rintro ⟨h, hr⟩
      cases h
      rw [if_pos hr]

theorem mem_declared_iff (hg : b.graph.Fit) {n : NodeId} :
    n ∈ b.declared ↔ n < b.graph.nodes.size ∧ b.refersTo n = true := by
  rw [declared, List.mem_filter]
  constructor
  · rintro ⟨hdecl, hr⟩
    have hn := hg.kept n hdecl
    rw [Graph.subject?_of_lt hn] at hr
    exact ⟨hn, hr⟩
  · rintro ⟨hn, hr⟩
    rw [Graph.subject?_of_lt hn]
    refine ⟨(hg.fits_of_lt hn).declared_iff.mp ?_, hr⟩
    simp only [refersTo, isReferenced, Bool.and_eq_true] at hr
    exact Bool.and_eq_true_iff.mpr hr.1

/-- What one step takes from a chain: the keys the model writes itself, and all that the base it is
merged into takes. -/
theorem mem_keptNames_iff (hg : b.graph.Linked) {n : NodeId} (hn : n ∈ b.declared) {k : Text} :
    k ∈ b.graph.propertyNames (b.kept n) ↔
      k ∈ (b.shapeProperties (b.graph.subject n)).map b.graph.nameOf ∨
        ∃ a, b.mergeBase? (b.graph.subject n) = some a ∧
          k ∈ b.graph.propertyNames (b.kept a) := by
  obtain ⟨hlt, hr⟩ := (mem_declared_iff hg.toFit).mp hn
  have hdecl : n ∈ b.graph.declarations := (List.mem_filter.mp hn).1
  rw [mem_shapeNames]
  simp only [mergeBase?_eq_some hg.toFit hlt]
  cases hbase : (b.graph.node n).base with
  | none => simp [kept_of_base_none hlt hbase]
  | some a =>
    have ha : a < b.graph.nodes.size :=
      (hg.fits_of_lt hlt).lt a (Node.mem_mentions_of_base hbase)
    rw [kept_of_base hg hdecl hr hbase]
    -- a declared base is merged and ends what is written out, any other is written out
    cases href : b.refersTo a with
    | false => simp [href, kept_of_not_refersTo ha href]
    | true =>
      have hnone : b.writtenOut (b.graph.baseChain a) = [] := by
        rw [Graph.baseChain_of_lt ha]
        simp [writtenOut, href]
      simp [href, hnone, Graph.propertyNames]

end Builder

/-! ### What a declaration contributes -/

/-- A key of a schema as it is used: one of its own object, or one of the declaration it is merged
into. -/
inductive Contributes (ds : List Planned) : NodeId → Text → Prop
  | own {p : Planned} {k : Text} : p ∈ ds → k ∈ p.expr.keys → Contributes ds p.node k
  | merged {p : Planned} {a : NodeId} {k : Text} : p ∈ ds → p.expr.mergedInto? = some a →
      Contributes ds a k → Contributes ds p.node k

theorem contributes_iff {ds : List Planned} {n : NodeId} {k : Text} :
    Contributes ds n k ↔ ∃ p ∈ ds, p.node = n ∧
      (k ∈ p.expr.keys ∨ ∃ a, p.expr.mergedInto? = some a ∧ Contributes ds a k) := by
  constructor
  · intro h
    cases h with
    | own hp hk => exact ⟨_, hp, rfl, .inl hk⟩
    | merged hp ha hk => exact ⟨_, hp, rfl, .inr ⟨_, ha, hk⟩⟩
  · rintro ⟨p, hp, rfl, hk | ⟨a, ha, hk⟩⟩
    · exact .own hp hk
    · exact .merged hp ha hk

/-- What is known about the declarations of a plan, whatever their order. -/
structure Plans (b : Builder) (ds : List Planned) : Prop where
  planned_iff : ∀ n, (∃ p ∈ ds, p.node = n) ↔ n ∈ b.declared
  declare : ∀ p ∈ ds, ∃ pending,
    { b with pending }.declare (b.graph.subject p.node) = .ok p.expr

theorem plans_of_plan {g : Graph} (hg : g.Linked) {r : Registry} {ds : List Planned}
    (h : plan g r = .ok ds) : Plans { graph := g, registry := r } ds := by
  obtain ⟨cs, hcs, hds⟩ := plan_groups h
  constructor
  · intro n
    have hwritten : ∀ c ∈ cs, ∀ x, x ∈ g.basesFirst c.nodes ↔ x ∈ c.nodes := by
      intro c hc x
      apply List.Perm.mem_iff
      apply (Graph.basesFirst_sorted (hcs.nodup_group hc) ?_).1
      intro y hy
      have hmem := hcs.mem_iff.mpr ⟨c, hc, hy⟩
      exact hg.not_loop (List.mem_filter.mp hmem).1
    rw [hcs.mem_iff, ← List.mem_map, Builder.planGroups_nodes hds, List.mem_flatMap]
    exact exists_congr fun c => and_congr_right fun hc => hwritten c hc n
  · intro p hp
    obtain ⟨i, hi⟩ := List.getElem?_of_mem hp
    obtain ⟨j, c, before, after, hstands⟩ := Builder.planGroups_at hds hi
    exact ⟨_, hstands.declare⟩

namespace Plans
variable {b : Builder} {ds : List Planned}

theorem contributes_step (h : Plans b ds) (hr : b.registry.Silent) {n : NodeId}
    (hn : n ∈ b.declared) (hkind : (b.graph.node n).kind = .model)
    (harray : (b.graph.node n).isArray = false) {k : Text} :
    Contributes ds n k ↔ k ∈ (b.shapeProperties (b.graph.subject n)).map b.graph.nameOf ∨
      ∃ a, b.mergeBase? (b.graph.subject n) = some a ∧ Contributes ds a k := by
  -- what is pending decides how references are written, not which keys there are
  have hexpr : ∀ p ∈ ds, p.node = n →
      p.expr.keys = (b.shapeProperties (b.graph.subject n)).map b.graph.nameOf ∧
        p.expr.mergedInto? = b.mergeBase? (b.graph.subject n) := by
    rintro p hp rfl
    obtain ⟨pending, hdeclare⟩ := h.declare p hp
    exact Builder.declare_model (b := { b with pending }) hr hkind harray hdeclare
  rw [contributes_iff]
  constructor
  · rintro ⟨p, hp, hnode, hk⟩
    obtain ⟨hkeys, hinto⟩ := hexpr p hp hnode
    rwa [hkeys, hinto] at hk
  · intro hk
    obtain ⟨p, hp, hnode⟩ := (h.planned_iff n).mpr hn
    obtain ⟨hkeys, hinto⟩ := hexpr p hp hnode
    refine ⟨p, hp, hnode, ?_⟩
    rwa [hkeys, hinto]

/-- A planned model contributes the properties of the chain it keeps. The induction is along the
chain of bases, which comes to an end. -/
theorem contributes_iff_kept (h : Plans b ds) (hg : b.graph.Linked) (hr : b.registry.Silent)
    {n : NodeId} (hn : n ∈ b.declared) (hkind : (b.graph.node n).kind = .model)
    (harray : ∀ a ∈ b.graph.baseChain n, (b.graph.node a).isArray = false) {k : Text} :
    Contributes ds n k ↔ k ∈ b.graph.propertyNames (b.kept n) := by
  have hlt : n < b.graph.nodes.size := ((Builder.mem_declared_iff hg.toFit).mp hn).1
  have hends := hg.base_ends hlt
  induction hends with
  | @last n hnone =>
    have hself : n ∈ b.graph.baseChain n := by simp [Graph.baseChain_of_lt hlt]
    rw [h.contributes_step hr hn hkind (harray n hself), Builder.mem_keptNames_iff hg hn]
    simp [Builder.mergeBase?_eq_some hg.toFit hlt, hnone]
  | @step n m hbase _ ih =>
    have hchain := hg.baseChain_of_base (List.mem_filter.mp hn).1 hbase
    rw [hchain] at harray
    rw [h.contributes_step hr hn hkind (harray n List.mem_cons_self),
      Builder.mem_keptNames_iff hg hn]
    apply or_congr_right
    apply exists_congr
    intro a
    apply and_congr_right
    intro ha
    obtain ⟨hbase', href⟩ := (Builder.mergeBase?_eq_some hg.toFit hlt).mp ha
    obtain rfl : m = a := Option.some.inj (hbase.symm.trans hbase')
    -- what is merged into is planned itself, so the rest of the chain is its own
    have hfits := hg.fits_of_lt hlt
    have hm := hfits.lt m (Node.mem_mentions_of_base hbase)
    apply ih ((Builder.mem_declared_iff hg.toFit).mpr ⟨hm, href⟩)
    · rw [(hfits.base m hbase).2, hkind]
    · exact fun c hc => harray c (List.mem_cons_of_mem n hc)
    · exact hm

end Plans

/-! ### Without overrides -/

namespace Builder
variable {b : Builder}

theorem not_refersTo_behind (hg : b.graph.Fit) (hr : b.registry = {}) {fuel : Nat} {m a : NodeId}
    (ha : a ∈ (b.graph.ancestors fuel m).dropWhile b.refersTo) : b.refersTo a = false := by
  induction fuel generalizing m with
  | zero => simp [Graph.ancestors] at ha
  | succ fuel ih =>
    cases hm : b.refersTo m with
    | false =>
      have hnot : m ∉ b.graph.declarations := by
        intro hdecl
        rw [← refersTo_iff hg hr (hg.kept m hdecl), hm] at hdecl
        cases hdecl
      have hmem := (List.dropWhile_sublist b.refersTo).subset ha
      rw [← Bool.not_eq_true, refersTo_iff hg hr (Graph.lt_of_mem_ancestors hmem)]
      exact (ancestors_below hg hnot hmem).1
    | true =>
      rw [Graph.ancestors] at ha
      split at ha
      · simp at ha
      · rw [List.dropWhile_cons_of_pos hm] at ha
        split at ha
        · simp at ha
        · exact ih ha

theorem kept_eq_baseChain (hg : b.graph.Fit) (hr : b.registry = {}) (n : NodeId) :
    b.kept n = b.graph.baseChain n := by
  have hlost : b.lost n = [] := by
    apply List.dropWhile_eq_nil_iff.mpr
    intro a ha
    rw [not_refersTo_behind hg hr ha]
    rfl
  rw [← kept_append_lost n, hlost, List.append_nil]

end Builder

/-- Without overrides no inherited property is lost. -/
theorem contributes_iff_baseChain {d : Document} {g : Graph} {ds : List Planned}
    (hlink : Graph.link d = .ok g) (hplan : plan g {} = .ok ds) {p : Planned} (hp : p ∈ ds)
    (hkind : (g.node p.node).kind = .model)
    (harray : ∀ a ∈ g.baseChain p.node, (g.node a).isArray = false) {k : Text} :
    Contributes ds p.node k ↔ k ∈ g.propertyNames (g.baseChain p.node) := by
  have hg := Graph.linked_of_link hlink
  have hplans := plans_of_plan hg hplan
  have hkept := Builder.kept_eq_baseChain (b := { graph := g }) hg.toFit rfl p.node
  rw [← hkept]
  exact hplans.contributes_iff_kept hg ⟨by simp, by simp⟩
    ((hplans.planned_iff p.node).mp ⟨p, hp, rfl⟩) hkind harray

/-! ### With overrides -/

/-- A planned model contributes the properties of the chain it keeps. So nothing is lost exactly
when each name on the rest of the chain is kept as well. -/
theorem contributes_baseChain_iff {d : Document} {g : Graph} {r : Registry} {ds : List Planned}
    (hlink : Graph.link d = .ok g) (hr : r.Silent) (hplan : plan g r = .ok ds) {p : Planned}
    (hp : p ∈ ds) (hkind : (g.node p.node).kind = .model)
    (harray : ∀ a ∈ g.baseChain p.node, (g.node a).isArray = false) :
    (∀ k, Contributes ds p.node k ↔
      k ∈ g.propertyNames (Builder.kept { graph := g, registry := r } p.node)) ∧
    ((∀ k, Contributes ds p.node k ↔ k ∈ g.propertyNames (g.baseChain p.node)) ↔
      ∀ k ∈ g.propertyNames (Builder.lost { graph := g, registry := r } p.node),
        k ∈ g.propertyNames (Builder.kept { graph := g, registry := r } p.node)) := by
  have hg := Graph.linked_of_link hlink
  have hplans := plans_of_plan hg hplan
  have hkept : ∀ k, Contributes ds p.node k ↔
      k ∈ g.propertyNames (Builder.kept { graph := g, registry := r } p.node) := by
    intro k
    exact hplans.contributes_iff_kept hg hr ((hplans.planned_iff p.node).mp ⟨p, hp, rfl⟩) hkind
      harray
  have hsplit := Builder.kept_append_lost (b := { graph := g, registry := r }) p.node
  refine ⟨hkept, ?_⟩
  simp only [hkept]
  rw [← hsplit]
  simp

/-- A model, its base and the base of that. -/
def threeModels : Document where
  models :=
    [{ name := "A", properties := [{ name := "a", type := .named "string" }] },
     { name := "B", base := some (.named "A")
       properties := [{ name := "b", type := .named "string" }] },
     { name := "M", base := some (.named "B")
       properties := [{ name := "m", type := .named "string" }] }]

/-- Keeps one node from being declared. -/
def inlining (n : NodeId) : Registry := ({} : Registry).forNode n { noDeclaration := true }

theorem silent_inlining (n : NodeId) : (inlining n).Silent := by
  constructor <;> simp [inlining, Registry.forNode]

-- the models stand at 29, 30 and 31, after the built-in types
theorem threeModels_planned {n : NodeId} (names : List Text)
    (hrun : (Graph.link threeModels >>= fun g => (plan g (inlining n)).map fun ds =>
      (ds.any (·.node == 31) && (g.node 31).kind == .model &&
          (g.baseChain 31).all fun a => !(g.node a).isArray,
        g.propertyNames (g.baseChain 31),
        g.propertyNames (Builder.kept { graph := g, registry := inlining n } 31))) =
      .ok (true, [Text.ofString "m", Text.ofString "b", Text.ofString "a"], names)) :
    ∃ g ds p, Graph.link threeModels = .ok g ∧ plan g (inlining n) = .ok ds ∧ p ∈ ds ∧
      (g.node p.node).kind = .model ∧ (∀ a ∈ g.baseChain p.node, (g.node a).isArray = false) ∧
      g.propertyNames (g.baseChain p.node) =
        [Text.ofString "m", Text.ofString "b", Text.ofString "a"] ∧
      g.propertyNames (Builder.kept { graph := g, registry := inlining n } p.node) = names := by
  obtain ⟨g, hg, hrun⟩ := Result.bind_eq_ok.mp hrun
  obtain ⟨ds, hds, hrun⟩ := Result.map_eq_ok.mp hrun
  simp only [Prod.mk.injEq, Bool.and_eq_true, List.any_eq_true, beq_iff_eq, List.all_eq_true,
    Bool.not_eq_true'] at hrun
  obtain ⟨⟨⟨⟨p, hp, hnode⟩, hkind⟩, harray⟩, hchain, hkept⟩ := hrun
  rw [← hnode] at hkind harray hchain hkept
  exact ⟨g, ds, p, hg, hds, hp, hkind, harray, hchain, hkept⟩

set_option maxRecDepth 100000 in
/-- A chain that is merged first and written out at its end is kept as a whole. -/
theorem contributes_baseChain_iff_topInlined : ∃ g ds p, Graph.link threeModels = .ok g ∧
    (inlining 29).Silent ∧ plan g (inlining 29) = .ok ds ∧ p ∈ ds ∧
    (g.node p.node).kind = .model ∧ (∀ a ∈ g.baseChain p.node, (g.node a).isArray = false) ∧
    ∀ k, Contributes ds p.node k ↔
      k ∈ [Text.ofString "m", Text.ofString "b", Text.ofString "a"] := by
  obtain ⟨g, ds, p, hg, hds, hp, hkind, harray, _, hkept⟩ :=
    threeModels_planned (n := 29) [Text.ofString "m", Text.ofString "b", Text.ofString "a"]
      (by decide +kernel)
  have hr := silent_inlining 29
  refine ⟨g, ds, p, hg, hr, hds, hp, hkind, harray, ?_⟩
  rw [← hkept]
  exact (contributes_baseChain_iff hg hr hds hp hkind harray).1

set_option maxRecDepth 100000 in
/-- Behind a model that is written out, the properties of a declared one are lost. -/
theorem middleInlined_loses_top : ∃ g ds p, Graph.link threeModels = .ok g ∧
    (inlining 30).Silent ∧ plan g (inlining 30) = .ok ds ∧ p ∈ ds ∧
    (g.node p.node).kind = .model ∧ (∀ a ∈ g.baseChain p.node, (g.node a).isArray = false) ∧
    Text.ofString "a" ∈ g.propertyNames (g.baseChain p.node) ∧
    ¬ Contributes ds p.node (Text.ofString "a") := by
  obtain ⟨g, ds, p, hg, hds, hp, hkind, harray, hchain, hkept⟩ :=
    threeModels_planned (n := 30) [Text.ofString "m", Text.ofString "b"] (by decide +kernel)
  have hr := silent_inlining 30
  have hlinked := Graph.linked_of_link hg
  have hplans := plans_of_plan hlinked hds
  have hiff := hplans.contributes_iff_kept hlinked hr
    ((hplans.planned_iff p.node).mp ⟨p, hp, rfl⟩) hkind harray (k := Text.ofString "a")
  refine ⟨g, ds, p, hg, hr, hds, hp, hkind, harray, ?_, ?_⟩
  · rw [hchain]
    decide
  · rw [hiff]
    change _ ∉ g.propertyNames (Builder.kept { graph := g, registry := inlining 30 } p.node)
    rw [hkept]
    decide

end SchemaLoom

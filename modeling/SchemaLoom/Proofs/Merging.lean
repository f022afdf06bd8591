import SchemaLoom.Proofs.CallChains

/-!
# What is merged

A model whose base is declared is merged into the declaration of the base. That asks for
two objects, and it gets them exactly when neither the model nor its base has elements or
keys of its own, or keys that it takes over from a model that is written out with it.
Where one of them has, an array, a map or an intersection is merged.
-/

namespace SchemaLoom

set_option autoImplicit false

open SchemaLoom.Expr

/-- A call of the library for an object. -/
def Expr.IsObjectCall (e : Expr) : Prop :=
  ∃ props, e = .chain [z, .call "object" [.object props]]

/-- An object schema: an object, or one that is merged into another object schema, with nothing
but descriptions behind. -/
inductive ObjectSchema (ds : List Planned) : Expr → Prop
  | object {props : List (Text × Expr)} {es : List Expr} :
      (∀ e ∈ es, ∃ t, e = .call "describe" [.raw t]) →
      ObjectSchema ds (.chain (z :: .call "object" [.object props] :: es))
  | merge {p : Planned} {arg : Expr} {es : List Expr} : p ∈ ds → ObjectSchema ds p.expr →
      arg.IsObjectCall → (∀ e ∈ es, ∃ t, e = .call "describe" [.raw t]) →
      ObjectSchema ds (.chain (.ref p.node :: .call "merge" [arg] :: es))

/-- Wherever something is merged into a declaration, both are objects. -/
def MergesObjects (ds : List Planned) : Prop :=
  ∀ p ∈ ds, ∀ before a arg after,
    (Expr.chain (before ++ .ref a :: .call "merge" [arg] :: after)).Occurs p.expr →
    arg.IsObjectCall ∧ ∃ q ∈ ds, q.node = a ∧ ObjectSchema ds q.expr

/-- A model with fields and nothing else: no elements, and no keys from any model that is written
out with it. -/
def Graph.FieldsOnly (g : Graph) (n : NodeId) : Prop :=
  (g.node n).isArray = false ∧ Builder.shapeIndexer? { graph := g } (g.subject n) = none

instance (g : Graph) (n : NodeId) : Decidable (g.FieldsOnly n) :=
  inferInstanceAs (Decidable (_ ∧ _))

namespace Builder
variable {b : Builder}

/-- The shape of a model is an object unless the model has keys. -/
theorem shape_object_iff {base : BaseOf} {m : Subject} {es : List Expr}
    (h : b.shape base m = .ok es) :
    (∃ props, es = Expr.fromZ [.call "object" [.object props]]) ↔ b.shapeIndexer? m = none := by
  cases shaped_of_shape h with
  | object hnone hobj =>
    obtain ⟨fields, rfl, _⟩ := fields_of_objectOf hobj
    exact iff_of_true ⟨fields, rfl⟩ hnone
  -- the other calls have two arguments
  | record hix _ _ _ => simp [hix, fromZ]
  | both hix _ _ _ _ => simp [hix, fromZ]

theorem isObjectCall_iff {base : BaseOf} {m : Subject} {es : List Expr}
    (h : b.shape base m = .ok es) : (ofParts [es]).IsObjectCall ↔ b.shapeIndexer? m = none := by
  rw [← shape_object_iff h]
  obtain ⟨name, args, rfl⟩ := (shaped_of_shape h).call
  have hcall : ofParts [Expr.fromZ [.call name args]] = .chain [z, .call name args] :=
    ofParts_chain z (.call name args) [] rfl rfl rfl (by simp [isStep])
  rw [hcall]
  simp [IsObjectCall, fromZ]

theorem composed_of_declare (hr : b.registry = {}) {n : NodeId}
    (hkind : (b.graph.node n).kind = .model) {e : Expr}
    (h : b.declare (b.graph.subject n) = .ok e) :
    ∃ base es cs, b.Composed base (b.graph.subject n) es ∧
      b.graph.constraints n none true = .ok cs ∧
      e = .ofParts [es, cs, [], describe (b.describedBy (b.graph.subject n))] := by
  rw [declare_eq hr] at h
  obtain ⟨es, cs, hes, hcs, rfl⟩ := inline_eq_ok (by simp [Graph.subject, hkind]) h
  obtain ⟨_, _, hstep⟩ := baseStep_of_baseSchema hes
  exact ⟨_, es, cs, composed_of_baseStep hstep, hcs, rfl⟩

theorem declare_array (hr : b.registry = {}) {n : NodeId} (harray : (b.graph.node n).isArray = true)
    {e : Expr} (h : b.declare (b.graph.subject n) = .ok e) :
    ∃ elem es, e = .chain (z :: .call "array" [elem] :: es) := by
  obtain ⟨base, bs, cs, hbs, hcs, rfl⟩ := composed_of_declare hr (Node.kind_of_isArray harray) h
  obtain ⟨elem, _, rfl⟩ := hbs.of_array harray
  have hsteps : ∀ e ∈ .call "array" [elem] :: (cs ++ describe (b.describedBy (b.graph.subject n))),
      e.isStep = true := by
    intro e he
    simp only [List.mem_cons, List.mem_append] at he
    rcases he with rfl | he | he
    · rfl
    · exact isStep_of_isCall (Graph.narrows_of_mem_constraints hcs he).trails.isCall
    · exact isStep_of_isCall (trails_of_mem_describe he).isCall
  exact ⟨elem, _, ofParts_chain z _ _ rfl rfl (by simp [fromZ]) hsteps⟩

/-- The declaration of any other model is its shape, merged into the base where that is declared. -/
theorem declare_shape (hg : b.graph.Fit) (hr : b.registry = {}) {n : NodeId}
    (hn : n < b.graph.nodes.size) (hkind : (b.graph.node n).kind = .model)
    (harray : (b.graph.node n).isArray = false) {e : Expr}
    (h : b.declare (b.graph.subject n) = .ok e) :
    ∃ base es described, b.shape base (b.graph.subject n) = .ok es ∧
      (∀ e ∈ described, ∃ t, e = .call "describe" [.raw t]) ∧
      ((∃ a ∈ b.graph.declarations, (b.graph.node n).base = some a ∧
          e = .chain (.ref a :: .call "merge" [.ofParts [es]] :: described)) ∨
        e = .chain (es ++ described) ∧
          ∀ a ∈ b.graph.declarations, (b.graph.node n).base ≠ some a) := by
  obtain ⟨base, bs, cs, hbs, hcs, rfl⟩ := composed_of_declare hr hkind h
  rw [Graph.constraints_of_shape hkind harray] at hcs
  cases hcs
  obtain ⟨shape, hshape, hbs⟩ := hbs.of_shape hkind harray
  have hmem : ∀ e ∈ describe (b.describedBy (b.graph.subject n)),
      ∃ t, e = .call "describe" [.raw t] := fun e he => mem_describe he
  have hsteps : ∀ name args, ∀ e ∈ .call name args ::
      describe (b.describedBy (b.graph.subject n)), e.isStep = true := by
    intro name args e he
    rcases List.mem_cons.mp he with rfl | he
    · rfl
    · exact isStep_of_isCall (trails_of_mem_describe he).isCall
  refine ⟨base, shape, _, hshape, hmem, ?_⟩
  rcases hbs with ⟨hnone, rfl⟩ | ⟨a, ha, rfl⟩
  · obtain ⟨name, args, rfl⟩ := (shaped_of_shape hshape).call
    refine .inr ⟨?_, ?_⟩
    · exact ofParts_chain z _ _ rfl rfl (by simp [fromZ]) (hsteps name args)
    · intro a ha hbase
      have hrefers := (refersTo_iff hg hr (hg.kept a ha)).mpr ha
      rw [(mergeBase?_eq_some hg hn).mpr ⟨hbase, hrefers⟩] at hnone
      cases hnone
  · obtain ⟨hbase, hrefers⟩ := (mergeBase?_eq_some hg hn).mp ha
    have hlt := (hg.fits_of_lt hn).lt a (Node.mem_mentions_of_base hbase)
    refine .inl ⟨a, (refersTo_iff hg hr hlt).mp hrefers, hbase, ?_⟩
    exact ofParts_chain (.ref a) _ _ rfl rfl (by simp) (hsteps _ _)

/-- A merge is that of the declaration itself. -/
theorem Form.merges {m a : NodeId} {before after : List Expr} {arg : Expr}
    (h : b.Form m (before ++ .ref a :: .call "merge" [arg] :: after)) : b.Merges m a arg := by
  obtain rfl := h.start_of_not_isStep rfl
  rw [List.nil_append] at h
  generalize hps : Expr.ref a :: .call "merge" [arg] :: after = ps at h
  cases h with
  | library _ => cases hps
  | merged hmerges _ =>
    cases hps
    exact hmerges
  | @field n f t cs member _ _ _ _ hcs hmember =>
    -- what a field adds is never called a merge with an argument
    have hmem : Expr.call "merge" [arg] ∈ cs ++ member ++ describe [b.graph.node f] := by
      rw [← (List.cons.inj hps).2]
      exact List.mem_cons_self
    simp only [List.mem_append] at hmem
    rcases hmem with (hmem | hmem) | hmem
    · rcases Graph.narrows_of_mem_constraints hcs hmem with ⟨name, hname⟩ | ⟨name, hname, t, heq⟩
      · cases hname
      · cases heq
        exact absurd hname (by decide)
    · rcases mem_memberParts hmember hmem with heq | ⟨_, _, _, _, _, heq⟩
      · cases heq
      · cases heq
    · obtain ⟨t, heq⟩ := mem_describe hmem
      cases heq

end Builder

section Plans
variable {g : Graph} {ds : List Planned}

theorem fieldsOnly_of_objectSchema (hg : g.Linked) (hplan : plan g {} = .ok ds) {p : Planned}
    (hp : p ∈ ds) (hkind : (g.node p.node).kind = .model) (h : ObjectSchema ds p.expr) :
    g.FieldsOnly p.node := by
  obtain ⟨hdecl, pending, hdeclare⟩ := declare_of_planned hg hplan hp
  cases harray : (g.node p.node).isArray with
  | true =>
    obtain ⟨elem, es, heq⟩ :=
      Builder.declare_array (b := { graph := g, pending }) rfl harray hdeclare
    rw [heq] at h
    cases h
  | false =>
    refine ⟨harray, ?_⟩
    obtain ⟨base, es, described, hshape, _, hcase⟩ :=
      Builder.declare_shape (b := { graph := g, pending }) hg.toFit rfl (hg.kept _ hdecl) hkind
        harray hdeclare
    rcases hcase with ⟨a, _, _, heq⟩ | ⟨heq, _⟩
    · rw [heq] at h
      cases h with
      | merge _ _ harg _ => exact (Builder.isObjectCall_iff hshape).mp harg
    · obtain ⟨name, args, rfl⟩ := (Builder.shaped_of_shape hshape).call
      rw [heq] at h
      cases h with
      | object _ => exact (Builder.shape_object_iff hshape).mp ⟨_, rfl⟩

/-- Where all that is merged is an object, models with a declared base have fields only, and so
has the base. -/
theorem fieldsOnly_of_mergesObjects (hg : g.Linked) (hplan : plan g {} = .ok ds)
    (h : MergesObjects ds) {m a : NodeId} (hm : m ∈ g.declarations)
    (hkind : (g.node m).kind = .model) (harray : (g.node m).isArray = false)
    (ha : a ∈ g.declarations) (hbase : (g.node m).base = some a) :
    g.FieldsOnly m ∧ g.FieldsOnly a := by
  obtain ⟨p, hp, rfl⟩ := exists_planned hg hplan hm
  obtain ⟨_, pending, hdeclare⟩ := declare_of_planned hg hplan hp
  obtain ⟨base, es, described, hshape, _, hcase⟩ :=
    Builder.declare_shape (b := { graph := g, pending }) hg.toFit rfl (hg.kept _ hm) hkind harray
      hdeclare
  rcases hcase with ⟨c, _, hc, heq⟩ | ⟨_, hnone⟩
  · obtain rfl : c = a := Option.some.inj (hc.symm.trans hbase)
    have hmerge := h p hp [] c _ described (by rw [heq]; exact .here)
    obtain ⟨harg, q, hq, rfl, hschema⟩ := hmerge
    have hbaseKind : (g.node q.node).kind = .model := by
      rw [((hg.fits_of_lt (hg.kept _ hm)).base _ hbase).2, hkind]
    exact ⟨⟨harray, (Builder.isObjectCall_iff hshape).mp harg⟩,
      fieldsOnly_of_objectSchema hg hplan hq hbaseKind hschema⟩
  · exact absurd hbase (hnone a ha)

/-- A declaration with fields only is an object schema if the base it is merged into is one. -/
theorem objectSchema_of_base (hg : g.Linked) (hplan : plan g {} = .ok ds) {p : Planned}
    (hp : p ∈ ds) (hkind : (g.node p.node).kind = .model) (hfields : g.FieldsOnly p.node)
    (hbase : ∀ a ∈ g.declarations, (g.node p.node).base = some a →
      ∃ q ∈ ds, q.node = a ∧ ObjectSchema ds q.expr) : ObjectSchema ds p.expr := by
  obtain ⟨hdecl, pending, hdeclare⟩ := declare_of_planned hg hplan hp
  obtain ⟨base, es, described, hshape, hdescribed, hcase⟩ :=
    Builder.declare_shape (b := { graph := g, pending }) hg.toFit rfl (hg.kept _ hdecl) hkind
      hfields.1 hdeclare
  rcases hcase with ⟨a, ha, hpa, heq⟩ | ⟨heq, _⟩
  · obtain ⟨q, hq, rfl, hschema⟩ := hbase a ha hpa
    rw [heq]
    exact .merge hq hschema ((Builder.isObjectCall_iff hshape).mpr hfields.2) hdescribed
  · obtain ⟨props, rfl⟩ := (Builder.shape_object_iff hshape).mpr hfields.2
    rw [heq]
    exact .object hdescribed

/-- Models with a declared base have fields only, and so has the base. -/
def Graph.ExtendsFields (g : Graph) : Prop :=
  ∀ m ∈ g.declarations, (g.node m).kind = .model → (g.node m).isArray = false →
    ∀ a ∈ g.declarations, (g.node m).base = some a → g.FieldsOnly m ∧ g.FieldsOnly a

instance (g : Graph) : Decidable g.ExtendsFields :=
  inferInstanceAs (Decidable (∀ m ∈ g.declarations, _))

/-- A base is an object schema, and so are all that it is merged into in turn. The induction is
along the chain of bases. -/
theorem objectSchema_of_fieldsOnly (hg : g.Linked) (hplan : plan g {} = .ok ds)
    (hall : g.ExtendsFields) {n : NodeId} (hn : n ∈ g.declarations)
    (hkind : (g.node n).kind = .model) (hfields : g.FieldsOnly n) :
    ∃ q ∈ ds, q.node = n ∧ ObjectSchema ds q.expr := by
  have hends := hg.base_ends (hg.kept n hn)
  induction hends with
  | last hnone =>
    obtain ⟨p, hp, rfl⟩ := exists_planned hg hplan hn
    refine ⟨p, hp, rfl, objectSchema_of_base hg hplan hp hkind hfields ?_⟩
    intro a _ hbase
    rw [hnone] at hbase
    cases hbase
  | @step n a hbase _ ih =>
    obtain ⟨p, hp, rfl⟩ := exists_planned hg hplan hn
    refine ⟨p, hp, rfl, objectSchema_of_base hg hplan hp hkind hfields ?_⟩
    intro c hc hcbase
    obtain rfl : a = c := Option.some.inj (hbase.symm.trans hcbase)
    apply ih hc
    · rw [((hg.fits_of_lt (hg.kept _ hn)).base a hbase).2, hkind]
    · exact (hall _ hn hkind hfields.1 a hc hbase).2

theorem mergesObjects_of_extendsFields (hg : g.Linked) (hplan : plan g {} = .ok ds)
    (hall : g.ExtendsFields) : MergesObjects ds := by
  intro p hp before a arg after hoccurs
  obtain ⟨hdecl, pending, hdeclare⟩ := declare_of_planned hg hplan hp
  have hform := Builder.chains_declare (b := { graph := g, pending }) hg.toFit rfl hdecl hdeclare
    _ hoccurs
  have hmerges := hform.merges
  obtain ⟨hown, hbase⟩ := hall _ hdecl hmerges.kind hmerges.array a hmerges.declared hmerges.base
  obtain ⟨base, es, hshape, rfl⟩ := hmerges.shape
  refine ⟨(Builder.isObjectCall_iff hshape).mpr hown.2, ?_⟩
  apply objectSchema_of_fieldsOnly hg hplan hall hmerges.declared ?_ hbase
  rw [((hg.fits_of_lt (hg.kept _ hdecl)).base a hmerges.base).2]
  exact hmerges.kind

end Plans

/-- Merges are merges of objects exactly if no model with a declared base, and no such base, has
elements or keys. -/
theorem mergesObjects_iff {d : Document} {g : Graph} {ds : List Planned}
    (hlink : Graph.link d = .ok g) (hplan : plan g {} = .ok ds) :
    MergesObjects ds ↔ g.ExtendsFields := by
  have hg := Graph.linked_of_link hlink
  constructor
  · intro h m hm hkind harray a ha hbase
    exact fieldsOnly_of_mergesObjects hg hplan h hm hkind harray ha hbase
  · exact mergesObjects_of_extendsFields hg hplan

set_option maxRecDepth 100000 in
theorem mergesObjects_iff_threeModels : ∃ g ds, Graph.link threeModels = .ok g ∧
    plan g {} = .ok ds ∧ MergesObjects ds := by
  have hrun : (Graph.link threeModels >>= fun g => (plan g {}).map fun _ =>
      decide g.ExtendsFields) = .ok true := by
    decide +kernel
  obtain ⟨g, hg, hrun⟩ := Result.bind_eq_ok.mp hrun
  obtain ⟨ds, hds, hall⟩ := Result.map_eq_ok.mp hrun
  exact ⟨g, ds, hg, hds, (mergesObjects_iff hg hds).mpr (of_decide_eq_true hall)⟩

/-- A map, and a model that extends it. -/
def extendedMap : Document where
  models :=
    [{ name := "A", source := some { record := some (.named "string") } },
     { name := "B", base := some (.named "A")
       properties := [{ name := "b", type := .named "string" }] }]

set_option maxRecDepth 100000 in
/-- The object of the second model is merged into a map. -/
theorem extendedMap_not_mergesObjects : ∃ g ds, Graph.link extendedMap = .ok g ∧
    plan g {} = .ok ds ∧ ¬ MergesObjects ds := by
  -- the models stand at 29 and 30, after the built-in types
  have hrun : (Graph.link extendedMap >>= fun g => (plan g {}).map fun _ =>
      decide (29 ∈ g.declarations ∧ 30 ∈ g.declarations ∧ (g.node 30).kind = .model ∧
        (g.node 30).isArray = false ∧ (g.node 30).base = some 29 ∧ ¬ g.FieldsOnly 29)) =
      .ok true := by
    decide +kernel
  obtain ⟨g, hg, hrun⟩ := Result.bind_eq_ok.mp hrun
  obtain ⟨ds, hds, hrun⟩ := Result.map_eq_ok.mp hrun
  obtain ⟨hbaseDecl, hdecl, hkind, harray, hbase, hnot⟩ := of_decide_eq_true hrun
  refine ⟨g, ds, hg, hds, ?_⟩
  intro h
  exact hnot (fieldsOnly_of_mergesObjects (Graph.linked_of_link hg) hds h hdecl hkind harray
    hbaseDecl hbase).2

end SchemaLoom

import SchemaLoom.Proofs.DeclarationOrder

/-!
# The bodies of models

What linking the bodies writes into the node of a model, before any copy is expanded: its
own properties, each one made for a declared property and in no other model, and the
base it extends. Whatever is linked before or after leaves that node alone.

Decorators are not followed, nor are the bodies of the other kinds.
-/

namespace SchemaLoom

set_option autoImplicit false

namespace Graph
open Result

variable {d : Document} {b g h k l u v : Graph} {i j q : NodeId} {t : TypeRef}

/-! ### Nodes and the types they stand for -/

/-- The node is what a type resolved to; only declarations have changed since. -/
def StandsFor (g : Graph) (i : NodeId) (t : TypeRef) : Prop :=
  ∃ k l : Graph, k.resolve t = .ok (i, l) ∧ l.Fills g

/-- The node was made for a declared property. -/
def PropertyOf (g : Graph) (p : Property) (q : NodeId) : Prop :=
  ∃ t, g.node q = propertyNode p t ∧ g.StandsFor t p.type

theorem StandsFor.fills (h : g.StandsFor i t) (hgk : g.Fills k) : k.StandsFor i t := by
  obtain ⟨u, v, hok, hfills⟩ := h
  exact ⟨u, v, hok, hfills.trans hgk⟩

theorem PropertyOf.lt {p : Property} (h : g.PropertyOf p q) : q < g.nodes.size := by
  obtain ⟨t, hnode, _⟩ := h
  by_contra hge
  rw [node_of_size_le (Nat.le_of_not_lt hge)] at hnode
  cases congrArg Node.kind hnode

theorem PropertyOf.fills {p : Property} (h : g.PropertyOf p q) (hg : g.Fit) (hgk : g.Fills k) :
    k.PropertyOf p q := by
  obtain ⟨t, hnode, htype⟩ := h
  refine ⟨t, ?_, htype.fills hgk⟩
  rw [hgk.same q (PropertyOf.lt ⟨t, hnode, htype⟩) fun hmem => ?_, hnode]
  exact absurd (congrArg Node.kind hnode) (hg.kind_declared hmem)

theorem standsFor_of_resolve {r : NodeId × Graph} (hok : g.resolve t = .ok r) :
    r.2.StandsFor r.1 t := ⟨g, r.2, hok, .refl _ _⟩

theorem linkProperty_eq_ok {p : Property} {r : NodeId × Graph} (hok : g.linkProperty p = .ok r) :
    ∃ t u, g.resolve p.type = .ok (t, u) ∧ r = u.push (propertyNode p t) := by
  obtain ⟨name, type, optional, default, decorators⟩ := p
  rw [linkProperty] at hok
  obtain ⟨⟨t, u⟩, ht, hok⟩ := bind_eq_ok.mp hok
  exact ⟨t, u, within_eq_ok.mp ht, (Except.ok.inj hok).symm⟩

/-- The properties of a list are new, and all different. -/
theorem linkProperties_fresh {ps : List Property} {r : List NodeId × Graph}
    (hok : g.linkProperties ps = .ok r) : r.1.Nodup ∧ ∀ q ∈ r.1, g.nodes.size ≤ q := by
  induction ps generalizing g r with
  | nil =>
    cases hok
    simp
  | cons p ps ih =>
    rw [linkProperties] at hok
    obtain ⟨r', hn, hok⟩ := bind_eq_ok.mp hok
    obtain ⟨⟨ns, l⟩, hns, hok⟩ := bind_eq_ok.mp hok
    cases hok
    obtain ⟨t, u, ht, rfl⟩ := linkProperty_eq_ok hn
    obtain ⟨hnodup, hle⟩ := ih hns
    have hsize := (resolve_adds ht).size_le
    rw [size_push] at hle
    rw [push_fst]
    refine ⟨List.nodup_cons.mpr ⟨fun hmem => Nat.not_succ_le_self _ (hle _ hmem), hnodup⟩, ?_⟩
    intro q hq
    rcases List.mem_cons.mp hq with rfl | hq
    · exact hsize
    · exact Nat.le_trans hsize (Nat.le_of_succ_le (hle q hq))

theorem linkProperties_propertyOf {ps : List Property} {r : List NodeId × Graph}
    (hg : g.Fit) (hok : g.linkProperties ps = .ok r) : List.Forall₂ r.2.PropertyOf ps r.1 := by
  induction ps generalizing g r with
  | nil =>
    cases hok
    exact .nil
  | cons p ps ih =>
    rw [linkProperties] at hok
    obtain ⟨r', hn, hok⟩ := bind_eq_ok.mp hok
    obtain ⟨⟨ns, l⟩, hns, hok⟩ := bind_eq_ok.mp hok
    cases hok
    have hk := (resolve_made_all.2.2.1 g p hg _ hn).fit
    obtain ⟨t, u, ht, rfl⟩ := linkProperty_eq_ok hn
    have hp : (u.push (propertyNode p t)).2.PropertyOf p (u.push (propertyNode p t)).1 :=
      ⟨t, node_push_self u _, (standsFor_of_resolve ht).fills (.push u _)⟩
    exact .cons (hp.fills hk (linkProperties_adds hns).fills) (ih hk hns)

theorem modelBase_standsFor {x : Option TypeRef} {base : Option NodeId}
    (hok : g.modelBase x = .ok (base, k)) : Option.Rel k.StandsFor base x := by
  cases x with
  | none =>
    cases hok
    exact .none
  | some t =>
    obtain ⟨⟨i, l⟩, hi, hok⟩ := bind_eq_ok.mp hok
    dsimp only at hok
    split at hok
    · cases hok
      exact .some (standsFor_of_resolve (within_eq_ok.mp hi))
    · simp at hok

/-! ### The node of a model -/

/-- The other kinds leave the models alone: models are linked in a row between them. -/
theorem linkBodies_models (hd : Linking d (ofNames d)) (hb : (ofNames d).linkBodies d = .ok b) :
    ∃ e c, Linking d e ∧ (∀ m ∈ d.models, GrowsAt (· ≠ m.name) (ofNames d) e) ∧
      d.models.foldlM linkModel e = .ok c ∧ ∀ m ∈ d.models, GrowsAt (· ≠ m.name) c b := by
  -- a name is declared as one kind only
  have hne : ∀ m ∈ d.models, ∀ x k, d.kind? x = some k → k ≠ .model → x ≠ m.name := by
    rintro m hm x k hx hk rfl
    exact hk (Option.some.inj (hx.symm.trans (kind?_model hd.unique hm)))
  obtain ⟨a, ha, hb⟩ := bind_eq_ok.mp hb
  obtain ⟨c, hc, hb⟩ := bind_eq_ok.mp hb
  obtain ⟨hlinked, hscalars⟩ := (steps_linkScalar d).run hd ha
  obtain ⟨hlinked, henums⟩ := (steps_linkEnum d).run hlinked (foldlM_linkEnum d.enums a)
  have hlast := ((steps_linkModel d _).run (.refl hlinked) hc).1.linking
  obtain ⟨_, hunions⟩ := (steps_linkUnion d _).run (.refl hlast) hb
  refine ⟨d.enums.foldl linkEnum a, c, hlinked, fun m hm => .trans (hscalars.mono ?_)
    (henums.mono ?_), hc, fun m hm => hunions.mono ?_⟩
  · intro x hx
    obtain ⟨s, hs, rfl⟩ := List.mem_map.mp hx
    exact hne m hm _ _ (kind?_scalar hs) nofun
  · intro x hx
    obtain ⟨e, he, rfl⟩ := List.mem_map.mp hx
    exact hne m hm _ _ (kind?_enum hd.unique he) nofun
  · intro x hx
    obtain ⟨w, hw, rfl⟩ := List.mem_map.mp hx
    exact hne m hm _ _ (kind?_union hd.unique hw) nofun

/-- What the body of a model was made into. -/
structure ModelBody (g : Graph) (m : ModelDecl) (base : Option NodeId)
    (properties : List NodeId) : Prop where
  base : Option.Rel g.StandsFor base m.base
  properties : List.Forall₂ g.PropertyOf m.properties properties

theorem ModelBody.fills {m : ModelDecl} {base : Option NodeId} {properties : List NodeId}
    (h : g.ModelBody m base properties) (hg : g.Fit) (hgk : g.Fills k) :
    k.ModelBody m base properties where
  base := optionRel_mono (fun _ _ ht => ht.fills hgk) h.base
  properties := h.properties.imp fun _ _ hp => hp.fills hg hgk

/-- Linking a model makes new properties and writes them into the node of the model. -/
theorem linkModel_node (hu : Linking d u) {m : ModelDecl} (hm : m ∈ d.models)
    (hok : u.linkModel m = .ok v) : ∃ base properties,
      v.node (u.declared m.name) =
        { u.node (u.declared m.name) with decorators := m.decorators, base, properties } ∧
      v.ModelBody m base properties ∧ properties.Nodup ∧ ∀ q ∈ properties, u.nodes.size ≤ q := by
  obtain ⟨⟨base, k⟩, hbase, hok⟩ := bind_eq_ok.mp (within_eq_ok.mp hok)
  obtain ⟨⟨properties, l⟩, hproperties, hok⟩ := bind_eq_ok.mp hok
  cases hok
  have hname := mem_names_model hm
  have hk := hu.modelBase hbase
  have hl := hk.madeAll (linkProperties_made hk.fit hproperties)
  have hsize := (modelBase_adds hbase).size_le
  have hadds := (modelBase_adds hbase).trans (linkProperties_adds hproperties)
  have hlt := hu.fit.kept _ (hu.lookup?_of_mem hname).1
  have hfills := (GrowsAt.modify (hl.lookup?_of_mem hname).1 (f := fun n : Node =>
    { n with decorators := m.decorators, base, properties }) (fun _ => rfl) fun _ => rfl).fills
  obtain ⟨hnodup, hfresh⟩ := linkProperties_fresh hproperties
  have hbody : l.ModelBody m base properties :=
    ⟨optionRel_mono (fun _ _ h => h.fills (linkProperties_adds hproperties).fills)
      (modelBase_standsFor hbase), linkProperties_propertyOf hk.fit hproperties⟩
  refine ⟨base, properties, ?_, hbody.fills hl.fit hfills, hnodup,
    fun q hq => Nat.le_trans hsize (hfresh q hq)⟩
  dsimp only
  rw [hu.declared_grows hname hadds.toGrows,
    node_modify_self (Nat.lt_of_lt_of_le hlt hadds.size_le), Adds.node hadds hlt]

/-- The node of a model whose body is not linked yet. -/
theorem node_of_growsAt (hd : Linking d (ofNames d)) {m : ModelDecl} (hm : m ∈ d.models)
    (hgu : GrowsAt (· ≠ m.name) (ofNames d) u) :
    u.node ((ofNames d).declared m.name) = { kind := .model, name := m.name } := by
  obtain ⟨hdecl, hkind⟩ := hd.declared (mem_names_model hm) (kind?_model hd.unique hm)
  obtain ⟨_, hnamed, _⟩ := hd.lookup?_of_mem (mem_names_model hm)
  rw [hgu.same _ (hd.fit.kept _ hdecl) fun _ hne => hne hnamed, bare_ofNames hdecl, hkind,
    ← nameOf, hnamed]

/-- Once the bodies are linked, the node of a model holds its own body and no more. -/
theorem model_of_linkBodies (hd : Linking d (ofNames d))
    (hb : (ofNames d).linkBodies d = .ok b) {m : ModelDecl} (hm : m ∈ d.models) :
    (b.node (b.declared m.name)).indexer = none ∧
      b.ModelBody m (b.node (b.declared m.name)).base (b.node (b.declared m.name)).properties := by
  have hname := mem_names_model hm
  obtain ⟨e, c, he, hbefore, hc, hafter⟩ := linkBodies_models hd hb
  obtain ⟨u, v, hu, heu, hstep, hvc⟩ :=
    (steps_linkModel d e).at (nodup_parts hd.unique).2.1 (.refl he) hc hm
  have hv := linkModel_linking hu.linking hm hstep
  have hdu := (hbefore m hm).trans heu
  have hvb := hvc.trans (hafter m hm)
  obtain ⟨base, properties, hnode, hbody, _, _⟩ := linkModel_node hu.linking hm hstep
  obtain ⟨_, hgrowsAt⟩ := steps_linkModel d e u m v hm hu hstep
  -- the node is bare until the step, and is left alone after it
  have hsame : b.node (b.declared m.name) = v.node (u.declared m.name) := by
    obtain ⟨hvmem, hvnamed, _⟩ := hv.lookup?_of_mem hname
    rw [hv.declared_grows hname hvb.toGrows,
      hvb.same _ (hv.fit.kept _ hvmem) fun _ hne => hne hvnamed,
      hu.linking.declared_grows hname hgrowsAt.toGrows]
  rw [hsame, hnode]
  refine ⟨?_, hbody.fills hv.fit hvb.fills⟩
  dsimp only
  rw [hd.declared_grows hname hdu.toGrows, node_of_growsAt hd hm hdu]

/-! ### Properties belong to one model -/

/-- No property is listed twice, in one node or in two. -/
structure Apart (g : Graph) (i j : NodeId) : Prop where
  nodup : (g.node i).properties.Nodup
  disjoint : i ≠ j → (g.node i).properties.Disjoint (g.node j).properties

theorem Apart.congr (h : g.Apart i j) (hi : k.node i = g.node i) (hj : k.node j = g.node j) :
    k.Apart i j where
  nodup := by rw [hi]; exact h.nodup
  disjoint := by rw [hi, hj]; exact h.disjoint

/-- A model gets new properties, so they are those of no other. -/
theorem linkModel_apart (hu : Linking d u) {m : ModelDecl} (hm : m ∈ d.models)
    (hok : u.linkModel m = .ok v) (hi : i ∈ u.declarations) (hj : j ∈ u.declarations)
    (h : u.Apart i j) : v.Apart i j := by
  obtain ⟨hmem, hnamed, _⟩ := hu.lookup?_of_mem (mem_names_model hm)
  obtain ⟨base, properties, hnode, _, hnodup, hfresh⟩ := linkModel_node hu hm hok
  obtain ⟨_, hgrowsAt⟩ := steps_linkModel d u u m v hm (.refl hu) hok
  have hsame : ∀ n ∈ u.declarations, n ≠ u.declared m.name → v.node n = u.node n := by
    intro n hn hne
    refine hgrowsAt.same n (hu.fit.kept n hn) fun _ hname => hne ?_
    exact hu.eq_of_nameOf hn hmem (hname.trans hnamed.symm)
  have hold : ∀ n ∈ u.declarations, properties.Disjoint (u.node n).properties := by
    intro n hn q hq hq'
    have hlt := (hu.shaped hn).lt q (Node.mem_mentions_of_property hq')
    exact absurd (hfresh q hq) (Nat.not_le_of_lt hlt)
  by_cases hmi : i = u.declared m.name
  · subst hmi
    refine ⟨by rw [hnode]; exact hnodup, fun hne => ?_⟩
    rw [hnode, hsame j hj hne.symm]
    exact hold j hj
  · by_cases hmj : j = u.declared m.name
    · subst hmj
      refine ⟨by rw [hsame i hi hmi]; exact h.nodup, fun _ => ?_⟩
      rw [hnode, hsame i hi hmi]
      exact fun q hq hq' => hold i hi hq' hq
    · exact h.congr (hsame i hi hmi) (hsame j hj hmj)

theorem apart_linkBodies (hd : Linking d (ofNames d)) (hb : (ofNames d).linkBodies d = .ok b)
    {m m' : ModelDecl} (hm : m ∈ d.models) (hm' : m' ∈ d.models) :
    b.Apart (b.declared m.name) (b.declared m'.name) := by
  obtain ⟨e, c, he, hbefore, hc, hafter⟩ := linkBodies_models hd hb
  have hmem : ∀ m ∈ d.models, (ofNames d).declared m.name ∈ (ofNames d).declarations :=
    fun m hm => (hd.lookup?_of_mem (mem_names_model hm)).1
  have hdeclared : ∀ m ∈ d.models, b.declared m.name = (ofNames d).declared m.name := by
    intro m hm
    have hgrows := (linkBodies_linking hd hb).grows
    exact hd.declared_grows (mem_names_model hm) hgrows
  have hstart : e.Apart ((ofNames d).declared m.name) ((ofNames d).declared m'.name) := by
    have hm := node_of_growsAt hd hm (hbefore m hm)
    have hm' := node_of_growsAt hd hm' (hbefore m' hm')
    exact ⟨by rw [hm]; exact .nil, fun _ => by rw [hm]; exact List.disjoint_nil_left _⟩
  have hrun : Onward d e c ∧
      c.Apart ((ofNames d).declared m.name) ((ofNames d).declared m'.name) := by
    refine foldlM_induction (P := fun s => Onward d e s ∧
      s.Apart ((ofNames d).declared m.name) ((ofNames d).declared m'.name)) ?_
      ⟨.refl he, hstart⟩ hc
    intro s x t hx hs hstep
    refine ⟨(steps_linkModel d e s x t hx hs.1 hstep).1, ?_⟩
    have hdecl := hs.1.linking.grows.declarations
    refine linkModel_apart hs.1.linking hx hstep ?_ ?_ hs.2
    · rw [hdecl]
      exact hmem m hm
    · rw [hdecl]
      exact hmem m' hm'
  have hsame : ∀ m ∈ d.models,
      b.node ((ofNames d).declared m.name) = c.node ((ofNames d).declared m.name) := by
    intro m hm
    have hgrows := hrun.1.linking.grows
    refine (hafter m hm).same _ ?_ fun _ hne => hne ?_
    · exact Nat.lt_of_lt_of_le (hd.fit.kept _ (hmem m hm)) hgrows.size_le
    · rw [nameOf, hgrows.name _ (hd.fit.kept _ (hmem m hm))]
      exact (hd.lookup?_of_mem (mem_names_model hm)).2.1
  rw [hdeclared m hm, hdeclared m' hm']
  exact hrun.2.congr (hsame m hm) (hsame m' hm')

end Graph

end SchemaLoom

import SchemaLoom.Proofs.ModelBodies

/-!
# Chains of copies

A model that copies another one by name is expanded after it, and so on along the chain.
Where all that is copied is a model, the expansion fails exactly if some chain comes back
to a model it has passed. Otherwise a model ends up with the shape at the end of its chain
in front, then the own properties of all models on the way back to it.

What a document is linked to when something else is copied is not followed here.
-/

namespace SchemaLoom

set_option autoImplicit false

namespace Document
variable {d : Document} {name next : Text} {chain : List Text} {a : Option TypeRef}

/-- The models that a model copies by name, itself first, and the unnamed type that the last of
them copies. -/
inductive CopyChain (d : Document) : Text → List Text → Option TypeRef → Prop
  | bare {name : Text} : d.source? name = none → CopyChain d name [name] none
  | unnamed {name : Text} {t : TypeRef} : d.source? name = some t → t.name = [] →
      CopyChain d name [name] (some t)
  | named {name next : Text} {chain : List Text} {a : Option TypeRef} :
      d.copied? name = some next → CopyChain d next chain a → CopyChain d name (name :: chain) a

/-- A model copies another one by name. -/
def Copies (d : Document) (x y : Text) : Prop := d.copied? x = some y

theorem exists_copyChain (h : Ends d.copied? name) : ∃ chain a, d.CopyChain name chain a := by
  induction h with
  | @last name hnone =>
    cases hsource : d.source? name with
    | none => exact ⟨_, _, .bare hsource⟩
    | some t =>
      refine ⟨_, _, .unnamed hsource ?_⟩
      rw [copied?, hsource, Option.bind_some] at hnone
      by_contra hne
      rw [if_neg hne] at hnone
      cases hnone
  | step hnext _ ih =>
    obtain ⟨chain, a, hchain⟩ := ih
    exact ⟨_, a, .named hnext hchain⟩

theorem mem_models_of_kind?_model (h : d.kind? name = some .model) :
    ∃ m ∈ d.models, m.name = name := by
  have hbuiltIn : ∀ n ∈ builtInNodes, n.kind ≠ .model := by decide
  unfold kind? at h
  split_ifs at h with hscalar hmodel henum hunion
  · cases h
  · exact List.mem_map.mp hmodel
  · cases h
  · cases h
  · obtain ⟨n, hn, hkind⟩ := Option.map_eq_some_iff.mp h
    exact absurd hkind (hbuiltIn n (List.mem_of_find?_eq_some hn))

theorem CopyChain.reached (h : d.CopyChain name chain a) :
    ∀ x ∈ chain, Relation.ReflTransGen d.Copies name x := by
  induction h with
  | bare | unnamed => simp [Relation.ReflTransGen.refl]
  | named hnext _ ih =>
    intro x hx
    rcases List.mem_cons.mp hx with rfl | hx
    · exact .refl
    · exact .head hnext (ih x hx)

theorem CopyChain.nodup (h : d.CopyChain name chain a) (hends : Ends d.copied? name) :
    chain.Nodup := by
  induction h with
  | bare => simp
  | unnamed => simp
  | named hnext hchain ih =>
    refine List.nodup_cons.mpr ⟨fun hmem => ?_, ih (hends.later hnext)⟩
    exact hends.not_loop (.head' hnext (hchain.reached _ hmem))

end Document

namespace Graph
open Result

variable {d : Document} {b g k : Graph} {copies : Copies} {n : NodeId} {t : TypeRef}

/-! ### Copies that come back -/

/-- Copying by name leads from a model around to one that was passed. -/
def Circular (d : Document) (x : Text) : Prop :=
  ∃ y, Relation.ReflTransGen d.Copies x y ∧ Relation.TransGen d.Copies y y

theorem Circular.not_ends {x : Text} (h : Circular d x) : ¬ Ends d.copied? x := by
  obtain ⟨y, hxy, hloop⟩ := h
  intro hends
  induction hxy using Relation.ReflTransGen.head_induction_on with
  | refl => exact hends.not_loop hloop
  | head hstep _ ih => exact ih (hends.later hstep)

theorem Circular.exists_model {x : Text} (h : Circular d x) :
    ∃ m ∈ d.models, m.name = x := by
  obtain ⟨y, hxy, hloop⟩ := h
  have hstep : ∃ z, d.Copies x z := by
    rcases hxy.cases_head with rfl | ⟨z, hz, _⟩
    · obtain ⟨z, hz, _⟩ := Relation.TransGen.head'_iff.mp hloop
      exact ⟨z, hz⟩
    · exact ⟨z, hz⟩
  obtain ⟨z, hz⟩ := hstep
  obtain ⟨t, ht, _⟩ := Document.copied?_eq_some.mp hz
  obtain ⟨m, hm, hname, _⟩ := Document.mem_models_of_source? ht
  exact ⟨m, hm, hname⟩

/-- Where all that is copied is a model, an expansion only fails over a model that comes up again
while it is being expanded. -/
theorem expand_error (hb : Linking d b) (hcopiable : Copiable d b) {fuel : Nat}
    {visiting : List NodeId} (hs : Stage d b (g, copies)) (hn : n ∈ b.declarations)
    (hpassed : ∀ v ∈ visiting, Relation.TransGen d.Copies (b.nameOf v) (b.nameOf n))
    (hwaiting : Waiting copies visiting fuel) {e : Failure}
    (h : expand fuel visiting g copies n = .error e) :
    e.cause = .baseCycle ∧ Circular d (b.nameOf n) := by
  induction fuel generalizing visiting g copies n e with
  | zero => exact absurd hwaiting.fuel_pos (Nat.lt_irrefl 0)
  | succ fuel ih =>
    rw [expand] at h
    split at h
    · cases h
    · rename_i source hsource
      split at h
      · rename_i hvisited
        cases h
        exact ⟨rfl, _, .refl, hpassed n (by simpa using hvisited)⟩
      · rename_i hvisiting
        have hnot : n ∉ visiting := by simpa using hvisiting
        have hpending := hs.pending n source hsource
        obtain ⟨⟨src, k⟩, hsrc, hmodel⟩ := hcopiable n source hpending g hs.onward
        have hk := hs.onward.linking.made (resolve_made hs.onward.linking.fit hsrc)
        have hnext := hs.adds hb hk (resolve_adds hsrc)
        have hwaits := hwaiting.cons hsource hnot
        obtain ⟨f, hf, hcause⟩ : ∃ f, expand fuel (n :: visiting) k copies src = .error f ∧
            e.cause = f.cause := by
          rw [hsrc] at h
          simp only [within, bind, Except.bind, hmodel, bne_self_eq_false, Bool.false_eq_true,
            if_false] at h
          split at h
          · rename_i f hf
            cases h
            exact ⟨_, hf, rfl⟩
          · cases h
        rcases copied?_of_resolve hb hpending hs.onward hsrc hmodel with ⟨hmem, hcopied⟩ | ⟨hmem, _⟩
        · -- a declared model comes next on the chain
          obtain ⟨hbase, y, hy, hloop⟩ := ih hnext hmem (by
            intro v hv
            rcases List.mem_cons.mp hv with rfl | hv
            · exact .single hcopied
            · exact (hpassed v hv).tail hcopied) hwaits hf
          exact ⟨hcause.trans hbase, y, .head hcopied hy, hloop⟩
        · -- any other model has nothing to copy
          have hnone : copies.lookup src = none := by
            by_contra hsome
            obtain ⟨t, ht⟩ := Option.ne_none_iff_exists'.mp hsome
            exact hmem (declared_of_lookup_copiesOf hb (hs.pending src t ht)).1
          cases fuel with
          | zero => exact absurd hwaits.fuel_pos (Nat.lt_irrefl 0)
          | succ fuel =>
            rw [expand, hnone] at hf
            cases hf

theorem expandCopies_error (hb : Linking d b) (hcopiable : Copiable d b) {e : Failure}
    (h : b.expandCopies (b.copiesOf d.models) = .error e) :
    e.cause = .baseCycle ∧ ∃ m ∈ d.models, Circular d m.name := by
  have htells : Tells (b.expandCopies (b.copiesOf d.models)) True fun e =>
      e.cause = .baseCycle ∧ ∃ m ∈ d.models, Circular d m.name := by
    refine (Tells.bind_ok (Tells.foldlM (I := Stage d b) (G := fun _ => True)
      (B := fun n e => e.cause = .baseCycle ∧ Circular d (b.nameOf n)) ?_ ?_ (.start hb))
      fun _ => ⟨_, rfl⟩).mono (fun _ => trivial) ?_
    · exact fun s n r _ hs hok => (expand_expands hb hs (within_eq_ok.mp hok)).stage
    · intro s n hn hs
      refine Tells.within ⟨fun _ _ => trivial, fun e he => ?_⟩ fun e position he => he
      have hwaiting : Waiting s.2 [] (s.2.length + 1) :=
        ⟨.nil, List.nil_subset _, Nat.lt_succ_self _⟩
      exact expand_error hb hcopiable hs hn (by simp) hwaiting he
    · rintro e ⟨before, n, after, _, _, hcause, hcircular⟩
      obtain ⟨m, hm, hname⟩ := hcircular.exists_model
      exact ⟨hcause, m, hm, hname ▸ hcircular⟩
  exact htells.error e h

/-- Where all that is copied is a model, copies expand unless some chain comes back. -/
theorem expandCopies_baseCycle_iff (hb : Linking d b) (hcopiable : Copiable d b) :
    (b.expandCopies (b.copiesOf d.models)).cause? = some .baseCycle ↔
      ∃ m ∈ d.models, Circular d m.name := by
  constructor
  · intro h
    obtain ⟨e, he, _⟩ := cause?_eq_some.mp h
    exact (expandCopies_error hb hcopiable he).2
  · rintro ⟨m, hm, hcircular⟩
    cases hexpand : b.expandCopies (b.copiesOf d.models) with
    | error e => exact congrArg some (expandCopies_error hb hcopiable hexpand).1
    | ok g =>
      obtain ⟨hmem, hnamed, _⟩ := hb.lookup?_of_mem (mem_names_model hm)
      have hends := (expandCopies_expanded hb hexpand).ends _ hmem
      rw [hnamed] at hends
      exact absurd hends hcircular.not_ends

/-! ### What is copied is a model -/

/-- Everything the models of a document copy is a model, as far as the bodies are linked. -/
def CopiesModels (d : Document) (b : Graph) : Prop :=
  ∀ m ∈ d.models, ∀ t, m.source = some t →
    ∃ r : NodeId × Graph, b.resolve t = .ok r ∧ (r.2.node r.1).kind = .model

theorem matched_self (hd : Linking d (ofNames d)) (hb : (ofNames d).linkBodies d = .ok b) :
    Matched d d b b := by
  have hpaired : Paired d d (ofNames d) (ofNames d) :=
    ⟨⟨.refl _, .refl _, .refl _, .refl _⟩, hd, hd⟩
  exact ((linkBodies_agree hpaired (alikeAt_ofNames hpaired)).of_ok hb hb).1

/-- What is a model before copies are expanded is one while they are. -/
theorem CopiesModels.copiable (hd : Linking d (ofNames d)) (hb : (ofNames d).linkBodies d = .ok b)
    (h : CopiesModels d b) : Copiable d b := by
  have hmatched := matched_self hd hb
  intro i t ht k hk
  obtain ⟨m, hm, hsource⟩ : ∃ m ∈ d.models, m.source = some t := by
    obtain ⟨m, hm, heq⟩ := List.mem_filterMap.mp (mem_of_lookup ht)
    obtain ⟨t', hsource, heq⟩ := Option.map_eq_some_iff.mp heq
    exact ⟨m, hm, by rw [hsource, (Prod.mk.inj heq).2]⟩
  obtain ⟨r, hr, hmodel⟩ := h m hm t hsource
  have hbk := hmatched.onward (.refl hmatched.left) hk
  have hagree := resolve_agree hbk t
  obtain ⟨r', hr'⟩ := hagree.ok_iff.mp ⟨r, hr⟩
  have hreached := hagree.of_ok hr hr'
  refine ⟨r', hr', ?_⟩
  rw [← ((hbk.resolved hr hr' hreached).eq_of_same hreached.related.same).1, hmodel]

/-! ### What is copied -/

/-- An unnamed model is made when it is copied: its properties are new, and it extends nothing. -/
theorem resolve_unnamed_model (hg : g.Fit) (ht : t.name = []) {i : NodeId}
    (hok : g.resolve t = .ok (i, k)) (hmodel : (k.node i).kind = .model) :
    (k.node i).base = none ∧ (k.node i).properties.Nodup ∧
      ∀ q ∈ (k.node i).properties, g.nodes.size ≤ q := by
  obtain ⟨name, array, record, literal, union, tuple, object, member⟩ := t
  dsimp only at ht
  subst ht
  have hname : ¬ (!List.isEmpty ([] : Text)) = true := by simp
  cases array with
  | some t =>
    rw [resolve, if_neg hname] at hok
    obtain ⟨⟨elem, l⟩, _, hok⟩ := bind_eq_ok.mp hok
    cases hok
    simp [node, node?, arrayNode]
  | none =>
  cases record with
  | some t =>
    rw [resolve, if_neg hname] at hok
    obtain ⟨⟨value, l⟩, _, hok⟩ := bind_eq_ok.mp hok
    cases hok
    simp [node, node?, recordNode]
  | none =>
  cases literal with
  | some v =>
    rw [resolve, if_neg hname] at hok
    obtain ⟨n, hn, hok⟩ := map_eq_ok.mp hok
    cases hok
    obtain ⟨_, kind, rfl | rfl | rfl, rfl⟩ := literalNode_eq_ok hn
    all_goals simp [node, node?] at hmodel
  | none =>
  cases union with
  | some ts =>
    rw [resolve, if_neg hname] at hok
    obtain ⟨⟨types, l⟩, _, hok⟩ := bind_eq_ok.mp hok
    cases hok
    simp [node, node?] at hmodel
  | none =>
  cases tuple with
  | some ts =>
    rw [resolve, if_neg hname] at hok
    obtain ⟨⟨elements, l⟩, _, hok⟩ := bind_eq_ok.mp hok
    cases hok
    simp [node, node?] at hmodel
  | none =>
  cases object with
  | some ps =>
    rw [resolve, if_neg hname] at hok
    obtain ⟨⟨properties, l⟩, hl, hok⟩ := bind_eq_ok.mp hok
    cases hok
    simpa [node, node?] using linkProperties_fresh hl
  | none =>
    rw [resolve, if_neg hname] at hok
    split at hok
    · obtain ⟨j, hj, hok⟩ := map_eq_ok.mp hok
      cases hok
      rw [(kind_resolveMember hg hj).2] at hmodel
      cases hmodel
    · exact absurd hok fail_ne_ok

/-! ### Shapes -/

/-- The own properties of the models that are copied, those copied last first. -/
def ownProperties (b : Graph) (chain : List Text) : List NodeId :=
  chain.reverse.flatMap fun x => (b.node (b.declared x)).properties

/-- What a model holds when its copies are expanded: the shape of the unnamed type at the end of
its chain, and the own bodies of the models on it. -/
structure Shape (b g : Graph) (n : Node) (chain : List Text) (a : Option NodeId) : Prop where
  properties : n.properties =
    (a.toList.flatMap fun i => (g.node i).properties) ++ b.ownProperties chain
  indexer : n.indexer = a.bind fun i => (g.node i).indexer
  base : n.base = chain.findSome? fun x => (b.node (b.declared x)).base

/-- The unnamed type at the end of a chain; its properties were made when it was copied. -/
structure Source (b g : Graph) (a : Option NodeId) (t : Option TypeRef) : Prop where
  stands : Option.Rel g.StandsFor a t
  nodup : (a.toList.flatMap fun i => (g.node i).properties).Nodup
  fresh : ∀ q ∈ a.toList.flatMap fun i => (g.node i).properties, b.nodes.size ≤ q

/-- The end of a chain and what it makes of the model it begins at. -/
structure Traced (d : Document) (b g : Graph) (name : Text) (chain : List Text)
    (t : Option TypeRef) (a : Option NodeId) : Prop where
  models : ∀ x ∈ chain, ∃ m ∈ d.models, m.name = x
  source : Source b g a t
  shape : Shape b g (g.node (b.declared name)) chain a

section Traced
variable {name next : Text} {chain : List Text} {a : Option TypeRef}

theorem lookup_copiesOf_declared (hb : Linking d b) {m : ModelDecl} (hm : m ∈ d.models) :
    (b.copiesOf d.models).lookup (b.declared m.name) = d.source? m.name := by
  obtain ⟨hmem, hnamed, _⟩ := hb.lookup?_of_mem (mem_names_model hm)
  rw [lookup_copiesOf_models hb hmem, hnamed]

/-- A model that copies nothing stays as its body was linked. -/
theorem Expanded.traced_bare (hd : Linking d (ofNames d))
    (hbodies : (ofNames d).linkBodies d = .ok b) (h : Expanded d b g) {m : ModelDecl}
    (hm : m ∈ d.models) (hsource : d.source? m.name = none) :
    Traced d b g m.name [m.name] none none := by
  have hb := linkBodies_linking hd hbodies
  have hmem := (hb.lookup?_of_mem (mem_names_model hm)).1
  have hindexer := (model_of_linkBodies hd hbodies hm).1
  have hsame := h.same _ (hb.fit.kept _ hmem) ((lookup_copiesOf_declared hb hm).trans hsource)
  refine ⟨by simpa using ⟨m, hm, rfl⟩, ⟨.none, by simp, by simp⟩, ?_⟩
  rw [hsame]
  exact ⟨by simp [ownProperties], by simpa using hindexer, by simp⟩

/-- A model that copies an unnamed type is put behind what that type was made into. -/
theorem Expanded.traced_unnamed (hd : Linking d (ofNames d))
    (hbodies : (ofNames d).linkBodies d = .ok b) (h : Expanded d b g) {m : ModelDecl}
    (hm : m ∈ d.models) (hsource : d.source? m.name = some t) (ht : t.name = []) :
    ∃ a, Traced d b g m.name [m.name] (some t) a := by
  have hb := linkBodies_linking hd hbodies
  obtain ⟨k, ⟨src, l⟩, hk, hr, hmodel, hfills, hnode⟩ :=
    h.copied _ t ((lookup_copiesOf_declared hb hm).trans hsource)
  obtain ⟨hbase, hnodup, hfresh⟩ := resolve_unnamed_model hk.linking.fit ht hr hmodel
  have hsame : g.node src = l.node src := by
    rcases resolve_model hk.linking hr hmodel with ⟨hne, _⟩ | ⟨_, _, hnot⟩
    · exact absurd ht hne
    · exact hfills.same src (resolve_made hk.linking.fit hr).lt fun hmem => absurd hmem hnot
  refine ⟨some src, by simpa using ⟨m, hm, rfl⟩, ⟨.some ⟨k, l, hr, hfills⟩, ?_, ?_⟩, ?_⟩
  · simpa [hsame] using hnodup
  · intro q hq
    exact Nat.le_trans hk.fills.size_le (hfresh q (by simpa [hsame] using hq))
  · rw [hnode]
    exact ⟨by simp [Node.copying, ownProperties], by simp [Node.copying],
      by simp [Node.copying, hsame, hbase]⟩

/-- A model that copies another one is put behind what that one has become. -/
theorem Expanded.copied_named (hb : Linking d b) (h : Expanded d b g) {m : ModelDecl}
    (hm : m ∈ d.models) (hnext : d.copied? m.name = some next) :
    ∃ m' ∈ d.models, m'.name = next ∧
      g.node (b.declared m.name) =
        (b.node (b.declared m.name)).copying (g.node (b.declared next)) := by
  obtain ⟨t, hsource, hne, rfl⟩ := Document.copied?_eq_some.mp hnext
  obtain ⟨k, ⟨src, l⟩, hk, hr, hmodel, _, hnode⟩ :=
    h.copied _ t ((lookup_copiesOf_declared hb hm).trans hsource)
  rcases resolve_model hk.linking hr hmodel with ⟨_, rfl, hsrc, hnamed⟩ | ⟨hnil, _⟩
  · obtain ⟨m', hm', hname⟩ := Document.mem_models_of_kind?_model
      (hnamed ▸ (hk.linking.kind_declared hsrc).trans (congrArg some hmodel))
    have hmem := hname ▸ mem_names_model hm'
    obtain ⟨_, _, hlookup⟩ := hk.linking.lookup?_of_mem hmem
    have hlookup' := hk.linking.lookup?_nameOf hsrc
    rw [hnamed, hlookup] at hlookup'
    refine ⟨m', hm', hname, ?_⟩
    rw [← hb.declared_grows hmem hk.fills.toGrows, Option.some.inj hlookup']
    exact hnode
  · exact absurd hnil hne

theorem Expanded.traced_named (hb : Linking d b) (h : Expanded d b g) {m : ModelDecl}
    (hm : m ∈ d.models) (hnext : d.copied? m.name = some next) {s : Option NodeId}
    (htraced : Traced d b g next chain a s) : Traced d b g m.name (m.name :: chain) a s := by
  obtain ⟨_, _, _, hnode⟩ := h.copied_named hb hm hnext
  obtain ⟨hmodels, hsource, hshape⟩ := htraced
  refine ⟨?_, hsource, ?_⟩
  · intro x hx
    rcases List.mem_cons.mp hx with rfl | hx
    · exact ⟨m, hm, rfl⟩
    · exact hmodels x hx
  · rw [hnode]
    refine ⟨by simp [Node.copying, hshape.properties, ownProperties], hshape.indexer, ?_⟩
    cases hbase : (b.node (b.declared m.name)).base with
    | none => simp [Node.copying, hbase, hshape.base]
    | some x => simp [Node.copying, hbase]

theorem Expanded.traced (hd : Linking d (ofNames d)) (hbodies : (ofNames d).linkBodies d = .ok b)
    (h : Expanded d b g) (hchain : d.CopyChain name chain a) {m : ModelDecl} (hm : m ∈ d.models)
    (hname : m.name = name) : ∃ s, Traced d b g name chain a s := by
  have hb := linkBodies_linking hd hbodies
  induction hchain generalizing m with
  | bare hsource =>
    subst hname
    exact ⟨none, h.traced_bare hd hbodies hm hsource⟩
  | unnamed hsource ht =>
    subst hname
    exact h.traced_unnamed hd hbodies hm hsource ht
  | named hnext _ ih =>
    subst hname
    obtain ⟨m', hm', hname', _⟩ := h.copied_named hb hm hnext
    obtain ⟨s, hs⟩ := ih hm' hname'
    exact ⟨s, h.traced_named hb hm hnext hs⟩

/-- Nothing is put into a model twice. -/
theorem Traced.nodup (hd : Linking d (ofNames d)) (hbodies : (ofNames d).linkBodies d = .ok b)
    {s : Option NodeId} (h : Traced d b g name chain a s) (hchain : chain.Nodup) :
    (g.node (b.declared name)).properties.Nodup := by
  have hb := linkBodies_linking hd hbodies
  have hown : (b.ownProperties chain).Nodup := by
    refine List.nodup_flatMap.mpr ⟨?_, ?_⟩
    · intro x hx
      obtain ⟨m, hm, rfl⟩ := h.models x (List.mem_reverse.mp hx)
      exact (apart_linkBodies hd hbodies hm hm).nodup
    · refine (List.nodup_reverse.mpr hchain).imp_of_mem ?_
      intro x y hx hy hne
      obtain ⟨m, hm, rfl⟩ := h.models x (List.mem_reverse.mp hx)
      obtain ⟨m', hm', rfl⟩ := h.models y (List.mem_reverse.mp hy)
      refine (apart_linkBodies hd hbodies hm hm').disjoint fun heq => hne ?_
      rw [← (hb.lookup?_of_mem (mem_names_model hm)).2.1, heq,
        (hb.lookup?_of_mem (mem_names_model hm')).2.1]
  rw [h.shape.properties]
  refine List.nodup_append.mpr ⟨h.source.nodup, hown, ?_⟩
  rintro q hq _ hq' rfl
  obtain ⟨x, hx, hq'⟩ := List.mem_flatMap.mp hq'
  obtain ⟨m, hm, rfl⟩ := h.models x (List.mem_reverse.mp hx)
  have hshaped := hb.shaped (hb.lookup?_of_mem (mem_names_model hm)).1
  exact absurd (h.source.fresh q hq)
    (Nat.not_le_of_lt (hshaped.lt q (Node.mem_mentions_of_property hq')))

end Traced

/-! ### Documents -/

/-- Copies fail to expand exactly if a chain of them comes back, given that they copy models. In a
linked document every model has one chain, and holds what its chain says, each property once. -/
theorem copies_expand (d : Document) (b : Graph)
    (hb : (do let g ← declareNames d; g.linkBodies d) = .ok b) :
    (CopiesModels d b → ((b.expandCopies (b.copiesOf d.models)).cause? = some .baseCycle ↔
      ∃ m ∈ d.models, ∃ x, Relation.ReflTransGen d.Copies m.name x ∧
        Relation.TransGen d.Copies x x)) ∧
    ∀ g, link d = .ok g → ∀ m ∈ d.models,
      g.ModelBody m (b.node (b.declared m.name)).base (b.node (b.declared m.name)).properties ∧
      (∃ chain a, d.CopyChain m.name chain a) ∧
      ∀ chain a, d.CopyChain m.name chain a →
        ∃ s, Option.Rel g.StandsFor s a ∧ Shape b g (g.node (g.declared m.name)) chain s ∧
          (g.node (g.declared m.name)).properties.Nodup := by
  obtain ⟨_, hnames, hbodies⟩ := bind_eq_ok.mp hb
  obtain ⟨rfl, hdeclarable, hunique⟩ := declareNames_eq_ok.mp hnames
  have hd : Linking d (ofNames d) := ⟨fit_ofNames hdeclarable, .refl _, hdeclarable, hunique⟩
  have hlinked := linkBodies_linking hd hbodies
  refine ⟨fun h => expandCopies_baseCycle_iff hlinked (h.copiable hd hbodies), ?_⟩
  intro g hg m hm
  obtain ⟨b', _, hbodies', hexpand, _⟩ := link_eq_ok.mp hg
  obtain rfl : b = b' := Except.ok.inj (hbodies.symm.trans hbodies')
  have hexpanded := expandCopies_expanded hlinked hexpand
  obtain ⟨hmem, hnamed, _⟩ := hlinked.lookup?_of_mem (mem_names_model hm)
  have hends := hexpanded.ends _ hmem
  rw [hnamed] at hends
  refine ⟨(model_of_linkBodies hd hbodies hm).2.fills hlinked.fit hexpanded.onward.fills,
    Document.exists_copyChain hends, fun chain a hchain => ?_⟩
  obtain ⟨s, htraced⟩ := hexpanded.traced hd hbodies hchain hm rfl
  rw [hlinked.declared_grows (mem_names_model hm) hexpanded.onward.fills.toGrows]
  exact ⟨s, htraced.source.stands, htraced.shape, htraced.nodup hd hbodies (hchain.nodup hends)⟩

end Graph

/-- Two models that copy each other, and one that copies one of them. -/
def carousel : Document where
  models :=
    [{ name := "Rider", source := some (.named "Horse") },
     { name := "Horse", source := some (.named "Swan") },
     { name := "Swan", source := some (.named "Horse") }]

/-- A chain of copies that ends at an unnamed model, with a base on the way. -/
def ladder : Document where
  models :=
    [{ name := "Top", source := some (.named "Middle"),
       properties := [{ name := "top", type := .named "string" }] },
     { name := "Middle", source := some (.named "Bottom"), base := some (.named "Wall"),
       properties := [{ name := "middle", type := .named "string" }] },
     { name := "Bottom", properties := [{ name := "bottom", type := .named "string" }],
       source := some { object := some [{ name := "ground", type := .named "int32" }] } },
     { name := "Wall" }]

theorem copyChain_ladder : ladder.CopyChain "Top" ["Top", "Middle", "Bottom"]
    (some { object := some [{ name := "ground", type := .named "int32" }] }) := by
  have htop : ladder.copied? "Top" = some "Middle" := rfl
  have hmiddle : ladder.copied? "Middle" = some "Bottom" := rfl
  exact .named htop (.named hmiddle (.unnamed rfl rfl))

set_option maxRecDepth 100000 in
theorem copies_expand_carousel_ladder :
    (∃ b, (do let g ← Graph.declareNames carousel; g.linkBodies carousel) = .ok b ∧
      Graph.CopiesModels carousel b ∧
      (b.expandCopies (b.copiesOf carousel.models)).cause? = some .baseCycle) ∧
    ∃ b g s, (do let g ← Graph.declareNames ladder; g.linkBodies ladder) = .ok b ∧
      Graph.link ladder = .ok g ∧
      (g.node (g.declared "Top")).properties.map g.nameOf =
        ["ground", "bottom", "middle", "top"] ∧
      Graph.Shape b g (g.node (g.declared "Top")) ["Top", "Middle", "Bottom"] s := by
  constructor
  · have hrun : ((do let g ← Graph.declareNames carousel; g.linkBodies carousel).map
        fun b : Graph => carousel.models.all fun m => m.source.all fun t =>
          (b.resolve t).toOption.any fun r : NodeId × Graph => (r.2.node r.1).kind == Kind.model) =
        .ok true := by
      decide +kernel
    obtain ⟨b, hb, hcopies⟩ := Result.map_eq_ok.mp hrun
    have hmodels : Graph.CopiesModels carousel b := by
      intro m hm t ht
      have hkind := List.all_eq_true.mp hcopies m hm
      rw [ht, Option.all_some, Option.any_eq_true] at hkind
      obtain ⟨r, hr, hkind⟩ := hkind
      exact ⟨r, Result.ok_of_toOption hr, by simpa using hkind⟩
    refine ⟨b, hb, hmodels, ((Graph.copies_expand carousel b hb).1 hmodels).mpr ?_⟩
    have hstep : ∀ x y, carousel.copied? x = some y → carousel.Copies x y := fun _ _ h => h
    exact ⟨carousel.models[0], by simp [carousel], "Horse", .single (hstep _ _ rfl),
      .tail (.single (hstep _ "Swan" rfl)) (hstep _ _ rfl)⟩
  · have hrun : ((Graph.link ladder).map fun g =>
        (g.node (g.declared "Top")).properties.map g.nameOf) =
        .ok ["ground", "bottom", "middle", "top"] := by
      decide +kernel
    obtain ⟨g, hg, hnames⟩ := Result.map_eq_ok.mp hrun
    obtain ⟨a, ha, hg'⟩ := Result.bind_eq_ok.mp hg
    obtain ⟨b, hb, _⟩ := Result.bind_eq_ok.mp hg'
    have hbodies : (do let g ← Graph.declareNames ladder; g.linkBodies ladder) = .ok b :=
      Result.bind_eq_ok.mpr ⟨a, ha, hb⟩
    obtain ⟨s, _, hshape, _⟩ := ((Graph.copies_expand ladder b hbodies).2 g hg ladder.models[0]
      (by simp [ladder])).2.2 _ _ copyChain_ladder
    exact ⟨b, g, s, hbodies, hg, hnames, hshape⟩

end SchemaLoom

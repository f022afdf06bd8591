import SchemaLoom.Proofs.Expansion

/-!
# The order of declarations

A document links to the same graph whichever way its declarations are put: the nodes
stand at other positions, but every name denotes the same. Bodies are filled in
independently of each other, each chain of copies is followed from its end, and base
chains are compared step by step.

Only declarations of one kind change places; the kinds are linked in a fixed order.
-/

namespace SchemaLoom

set_option autoImplicit false

namespace Graph
open Result

variable {d e : Document} {g h k l : Graph} {name : Text}

/-! ### Names -/

section Names

/-- A node that has a kind and a name only. -/
def Bare (n : Node) : Prop := n = { kind := n.kind, name := n.name }

theorem bare_withNames (hg : g.Kept) (kind : Kind) (names : List Text)
    (h : ∀ n ∈ g.declarations.map g.node, Bare n) :
    ∀ n ∈ (g.withNames kind names).declarations.map (g.withNames kind names).node, Bare n := by
  intro n hn
  rw [map_node_withNames hg] at hn
  rcases List.mem_append.mp hn with hn | hn
  · exact h n hn
  · obtain ⟨name, _, rfl⟩ := List.mem_map.mp hn
    rfl

theorem bare_ofNames {i : NodeId} (hi : i ∈ (ofNames d).declarations) :
    Bare ((ofNames d).node i) := by
  have h₁ : (empty.withNames .scalar (d.scalars.map (·.name))).Kept := kept_withNames kept_empty
  have h₂ : (Graph.withNames _ .model (d.models.map (·.name))).Kept := kept_withNames h₁
  have h₃ : (Graph.withNames _ .enum (d.enums.map (·.name))).Kept := kept_withNames h₂
  refine bare_withNames h₃ _ _ (bare_withNames h₂ _ _ (bare_withNames h₁ _ _
    (bare_withNames kept_empty _ _ ?_))) _ (List.mem_map_of_mem hi)
  simp [empty]

theorem alikeAt_ofNames (hgh : Paired d e (ofNames d) (ofNames e)) (name : Text) :
    AlikeAt (ofNames d) (ofNames e) name := by
  intro i j hi hj
  by_cases hname : name ∈ d.names
  · obtain ⟨hmem, _, hlookup⟩ := hgh.left.lookup?_of_mem hname
    obtain ⟨hmem', _, hlookup'⟩ :=
      hgh.right.lookup?_of_mem (hgh.permuted.names.mem_iff.mp hname)
    have hij := hgh.lookup? name
    rw [hi, hj] at hij
    obtain ⟨hkind, hnames⟩ := hgh.eq_of_same (Option.rel_some_some.mp hij).same
    cases hlookup.symm.trans hi
    cases hlookup'.symm.trans hj
    rw [bare_ofNames hmem, bare_ofNames hmem', ← hkind, ← nameOf, ← nameOf, hnames]
    exact .of_base _ _ _ _ .none
  · rw [hgh.left.lookup?_of_not_mem hname] at hi
    rw [hgh.right.lookup?_of_not_mem (mt hgh.permuted.names.mem_iff.mpr hname)] at hj
    cases hi.symm.trans hj
    have hlt := (builtin?_eq_some hi).1
    have hnode : empty.node? i = some (empty.node i) := node?_of_lt (by simpa [empty] using hlt)
    have hd : (ofNames d).node i = empty.node i := by
      rw [node, node?_ofNames_of_lt d hlt, node, node?, empty, List.getElem?_toArray]
    have he : (ofNames e).node i = empty.node i := by
      rw [node, node?_ofNames_of_lt e hlt, node, node?, empty, List.getElem?_toArray]
    rw [hd, he]
    rcases node?_empty hnode with ⟨x, base, heq, hbase⟩ | ⟨x, heq, _⟩
    · rw [heq]
      refine .of_base _ _ _ _ ?_
      cases base with
      | none => exact .none
      | some b => exact .some fun _ _ _ _ => .builtIn (Nat.lt_trans (hbase b rfl).1 hlt)
    · rw [heq]
      exact .of_base _ _ _ _ .none

end Names

/-! ### Bodies -/

section Bodies

theorem linkScalars_agree (hgh : Paired d e g h) (hstart : ∀ name, AlikeAt g h name) :
    Agree (fun k l => Linking d k ∧ Linking e l ∧ ∀ name, AlikeAt k l name)
      (d.scalars.foldlM linkScalar g) (e.scalars.foldlM linkScalar h) := by
  have hp := hgh.permuted
  exact (steps_linkScalar d).agree (steps_linkScalar e) hp.scalars (nodup_parts hgh.left.unique).1
    (fun k l hk hl => ⟨hp, hk, hl⟩) (fun k l s hs hk hl => linkScalar_agree ⟨hp, hk, hl⟩ hs)
    hgh.left hgh.right hstart

theorem foldlM_linkEnum (xs : List EnumDecl) (g : Graph) :
    xs.foldlM (fun g x => (.ok (g.linkEnum x) : Result Graph)) g = .ok (xs.foldl linkEnum g) :=
  List.foldlM_pure

/-- After the enums the members of a declaration are the same in both graphs. -/
theorem linkEnums_matched (hgh : Paired d e g h) (hstart : ∀ name, AlikeAt g h name) :
    Matched d e (d.enums.foldl linkEnum g) (e.enums.foldl linkEnum h) ∧
      ∀ name, AlikeAt (d.enums.foldl linkEnum g) (e.enums.foldl linkEnum h) name := by
  have hp := hgh.permuted
  have hruns : Agree (fun k l => Linking d k ∧ Linking e l ∧ ∀ name, AlikeAt k l name)
      (d.enums.foldlM (fun g x => (.ok (g.linkEnum x) : Result Graph)) g)
      (e.enums.foldlM (fun g x => (.ok (g.linkEnum x) : Result Graph)) h) := by
    exact (steps_linkEnum d).agree (steps_linkEnum e) hp.enums
      (nodup_parts hgh.left.unique).2.2.1 (fun k l hk hl => ⟨hp, hk, hl⟩)
      (fun k l x hx hk hl => .ok (linkEnum_alike ⟨hp, hk, hl⟩ hx)) hgh.left hgh.right hstart
  obtain ⟨hk, hl, halike⟩ := hruns.of_ok (foldlM_linkEnum _ g) (foldlM_linkEnum _ h)
  exact ⟨⟨⟨hp, hk, hl⟩, fun name i j hi hj => (halike name i j hi hj).members_rel⟩, halike⟩

theorem Matched.onward (hgh : Matched d e g h) (hk : Onward d g k) (hl : Onward e h l) :
    Matched d e k l :=
  hgh.later hk.linking hl.linking hk.fills hl.fills hk.members hl.members

theorem linkModels_agree (hgh : Matched d e g h) (hstart : ∀ name, AlikeAt g h name) :
    Agree (fun k l => Onward d g k ∧ Onward e h l ∧ ∀ name, AlikeAt k l name)
      (d.models.foldlM linkModel g) (e.models.foldlM linkModel h) := by
  exact (steps_linkModel d g).agree (steps_linkModel e h) hgh.permuted.models
    (nodup_parts hgh.left.unique).2.1 (fun k l hk hl => (hgh.onward hk hl).toPaired)
    (fun k l m hm hk hl => linkModel_agree (hgh.onward hk hl) hm) (.refl hgh.left)
    (.refl hgh.right) hstart

theorem linkUnions_agree (hgh : Matched d e g h) (hstart : ∀ name, AlikeAt g h name) :
    Agree (fun k l => Onward d g k ∧ Onward e h l ∧ ∀ name, AlikeAt k l name)
      (d.unions.foldlM linkUnion g) (e.unions.foldlM linkUnion h) := by
  exact (steps_linkUnion d g).agree (steps_linkUnion e h) hgh.permuted.unions
    (nodup_parts hgh.left.unique).2.2.2 (fun k l hk hl => (hgh.onward hk hl).toPaired)
    (fun k l u hu hk hl => linkUnion_agree (hgh.onward hk hl) hu) (.refl hgh.left)
    (.refl hgh.right) hstart

theorem linkBodies_agree (hgh : Paired d e g h) (hstart : ∀ name, AlikeAt g h name) :
    Agree (fun k l => Matched d e k l ∧ ∀ name, AlikeAt k l name) (g.linkBodies d)
      (h.linkBodies e) := by
  refine .bind (linkScalars_agree hgh hstart) ?_
  rintro k l _ _ ⟨hk, hl, halike⟩
  obtain ⟨hmatched, halike⟩ := linkEnums_matched ⟨hgh.permuted, hk, hl⟩ halike
  refine .bind (linkModels_agree hmatched halike) ?_
  rintro k' l' _ _ ⟨hk', hl', halike⟩
  have hmatched := hmatched.onward hk' hl'
  refine (linkUnions_agree hmatched halike).mono ?_
  rintro k'' l'' ⟨hk'', hl'', halike⟩
  exact ⟨hmatched.onward hk'' hl'', halike⟩

end Bodies

/-! ### Copies -/

section Copies
variable {b b' : Graph} {x y : Text} {t : TypeRef}

theorem source?_of_mem (hunique : d.names.Nodup) {m : ModelDecl} (hm : m ∈ d.models) :
    d.source? m.name = m.source := by
  cases hfind : d.models.find? (·.name == m.name) with
  | none => simpa using List.find?_eq_none.mp hfind m hm
  | some m' =>
    have hname : m'.name = m.name := by simpa using List.find?_some hfind
    have hm' := List.mem_of_find?_eq_some hfind
    obtain rfl := List.inj_on_of_nodup_map (nodup_parts hunique).2.1 hm' hm hname
    rw [Document.source?, hfind, Option.bind_some]

theorem source?_of_permuted (hp : d.Permuted e) (hunique : d.names.Nodup) (x : Text) :
    d.source? x = e.source? x := by
  have hle : ∀ {d e : Document}, d.Permuted e → d.names.Nodup → ∀ t, d.source? x = some t →
      e.source? x = some t := by
    intro d e hp hunique t ht
    obtain ⟨m, hm, rfl, hsource⟩ := Document.mem_models_of_source? ht
    rw [source?_of_mem (hp.names.nodup_iff.mp hunique) (hp.models.mem_iff.mp hm), hsource]
  apply Option.ext
  exact fun t => ⟨hle hp hunique t, hle hp.symm (hp.names.nodup_iff.mp hunique) t⟩

theorem copied?_of_permuted (hp : d.Permuted e) (hunique : d.names.Nodup) :
    d.copied? = e.copied? := by
  funext x
  rw [Document.copied?, Document.copied?, source?_of_permuted hp hunique]

theorem Linking.lookup?_nameOf (hg : Linking d g) {i : NodeId} (hi : i ∈ g.declarations) :
    g.lookup? (g.nameOf i) = some i := by
  have hname : g.nameOf i ∈ d.names := by
    rw [← hg.names]
    exact List.mem_map_of_mem hi
  obtain ⟨hmem, hnamed, hlookup⟩ := hg.lookup?_of_mem hname
  rw [hlookup, hg.eq_of_nameOf hmem hi hnamed]

theorem lookup_copiesOf_of_not_mem (hb : Linking d b) (hname : x ∉ d.names) {i : NodeId}
    (hi : b.lookup? x = some i) : (b.copiesOf d.models).lookup i = none := by
  by_contra hsome
  obtain ⟨t, ht⟩ := Option.ne_none_iff_exists'.mp hsome
  have hmem := List.mem_map_of_mem (f := b.nameOf) (declared_of_lookup_copiesOf hb ht).1
  rw [hb.nameOf_lookup? hi] at hmem
  exact hname (hb.names ▸ hmem)

/-- What a name copies is the same in both documents. -/
theorem Paired.lookup_copiesOf (hbb : Paired d e b b') {i j : NodeId}
    (hi : b.lookup? x = some i) (hj : b'.lookup? x = some j) :
    (b.copiesOf d.models).lookup i = (b'.copiesOf e.models).lookup j := by
  by_cases hname : x ∈ d.names
  · obtain ⟨hmem, hnamed, hlookup⟩ := hbb.left.lookup?_of_mem hname
    obtain ⟨hmem', hnamed', hlookup'⟩ :=
      hbb.right.lookup?_of_mem (hbb.permuted.names.mem_iff.mp hname)
    cases hlookup.symm.trans hi
    cases hlookup'.symm.trans hj
    rw [lookup_copiesOf_models hbb.left hmem, lookup_copiesOf_models hbb.right hmem', hnamed,
      hnamed', source?_of_permuted hbb.permuted hbb.left.unique]
  · rw [lookup_copiesOf_of_not_mem hbb.left hname hi,
      lookup_copiesOf_of_not_mem hbb.right (mt hbb.permuted.names.mem_iff.mpr hname) hj]

/-- What a name of both graphs denotes is alike in the end. -/
def EndsAlike (b b' g h : Graph) (x : Text) : Prop :=
  ∀ i j, b.lookup? x = some i → b'.lookup? x = some j →
    (g.node i).Alike (g.Same h) (h.node j)

/-- A copy is alike if what it copies is, given that the chain of copies is alike further on. -/
theorem Expanded.alike_of_next (hbb : Matched d e b b') (hstart : AlikeAt b b' x)
    (hg : Expanded d b g) (hh : Expanded e b' h)
    (hnext : ∀ y, d.copied? x = some y → EndsAlike b b' g h y) : EndsAlike b b' g h x := by
  intro i j hi hj
  have hsame := hbb.lookup_copiesOf hi hj
  have hown : (b.node i).Alike (g.Same h) (b'.node j) :=
    (hstart i j hi hj).mono fun _ _ hij => hij g h hg.onward.fills hh.onward.fills
  cases hsource : (b.copiesOf d.models).lookup i with
  | none =>
    rw [hg.same i (hbb.left.fit.lookup?_lt hi) hsource,
      hh.same j (hbb.right.fit.lookup?_lt hj) (hsame ▸ hsource)]
    exact hown
  | some t =>
    obtain ⟨k, ⟨src, u⟩, hk, hr, hmodel, hfills, hnode⟩ := hg.copied i t hsource
    obtain ⟨l, ⟨src', v⟩, hl, hr', hmodel', hfills', hnode'⟩ := hh.copied j t (hsame ▸ hsource)
    have hkl := hbb.onward hk hl
    have hlast := (resolve_agree hkl t).of_ok hr hr'
    have hsrc : g.Same h src src' := hlast.related g h hfills hfills'
    have hdecl := (declared_of_lookup_copiesOf hbb.left hsource).1
    rw [lookup_copiesOf_models hbb.left hdecl, hbb.left.nameOf_lookup? hi] at hsource
    rw [hnode, hnode']
    refine hown.copying ?_
    -- a declared source is the next on the chain; one of its own was made alike in both graphs
    rcases resolve_model hk.linking hr hmodel with ⟨hname, -, hmem, hnamed⟩ | ⟨hname, hle, hnot⟩
    · rcases resolve_model hl.linking hr' hmodel' with ⟨-, -, hmem', hnamed'⟩ | ⟨hname', -, -⟩
      · have hlookup := hk.linking.lookup?_nameOf hmem
        have hlookup' := hl.linking.lookup?_nameOf hmem'
        rw [hnamed, hk.fills.lookup? hbb.left.fit.kept] at hlookup
        rw [hnamed', hl.fills.lookup? hbb.right.fit.kept] at hlookup'
        exact hnext t.name (Document.copied?_eq_some.mpr ⟨t, hsource, hname, rfl⟩) src src' hlookup
          hlookup'
      · exact absurd hname' hname
    · cases hsrc with
      | builtIn hlt => exact absurd hlt (Nat.not_lt.mpr hle)
      | declared hmem _ _ =>
        rw [hfills.declarations] at hmem
        exact absurd hmem hnot
      | anonymous _ _ _ _ hnodes => exact hnodes

/-- Copies are followed to the end of their chain. -/
theorem Expanded.endsAlike (hbb : Matched d e b b') (hstart : ∀ x, AlikeAt b b' x)
    (hg : Expanded d b g) (hh : Expanded e b' h) (x : Text) : EndsAlike b b' g h x := by
  by_cases hname : x ∈ d.names
  · obtain ⟨hmem, hnamed, -⟩ := hbb.left.lookup?_of_mem hname
    have hends := hg.ends _ hmem
    rw [hnamed] at hends
    clear hname hmem hnamed
    -- both documents copy along the same chain, so one of them is enough for the induction
    induction hends with
    | last hnone =>
      refine hg.alike_of_next hbb (hstart _) hh ?_
      intro y hy
      rw [hnone] at hy
      cases hy
    | step hstep _ ih =>
      refine hg.alike_of_next hbb (hstart _) hh ?_
      intro y hy
      rw [hstep] at hy
      cases hy
      exact ih
  · refine hg.alike_of_next hbb (hstart x) hh ?_
    intro y hy
    obtain ⟨t, ht, _⟩ := Document.copied?_eq_some.mp hy
    obtain ⟨m, hm, rfl, _⟩ := Document.mem_models_of_source? ht
    exact absurd (mem_names_model hm) hname

/-- Copies that can be expanded in one graph can be expanded in the other. -/
theorem Expanded.exists_ok (hbb : Matched d e b b') (hg : Expanded d b g) :
    ∃ h, b'.expandCopies (b'.copiesOf e.models) = .ok h := by
  have hunique := hbb.left.unique
  have hfound : ∀ j ∈ b'.declarations, ∃ i ∈ b.declarations, b.nameOf i = b'.nameOf j ∧
      (b.copiesOf d.models).lookup i = (b'.copiesOf e.models).lookup j := by
    intro j hj
    have hname : b'.nameOf j ∈ d.names := by
      rw [hbb.permuted.names.mem_iff, ← hbb.right.names]
      exact List.mem_map_of_mem hj
    obtain ⟨hmem, hnamed, hlookup⟩ := hbb.left.lookup?_of_mem hname
    exact ⟨_, hmem, hnamed, hbb.lookup_copiesOf hlookup (hbb.right.lookup?_nameOf hj)⟩
  refine expandCopies_ok hbb.right ?_ ?_
  · intro j t ht l hl
    obtain ⟨i, _, _, hsame⟩ := hfound j (declared_of_lookup_copiesOf hbb.right ht).1
    obtain ⟨k, r, hk, hr, hmodel, _, _⟩ := hg.copied i t (hsame.trans ht)
    have hkl := hbb.onward hk hl
    have hagree := resolve_agree hkl t
    obtain ⟨r', hr'⟩ := hagree.ok_iff.mp ⟨r, hr⟩
    have hreached := hagree.of_ok hr hr'
    refine ⟨r', hr', ?_⟩
    rw [← ((hkl.resolved hr hr' hreached).eq_of_same hreached.related.same).1, hmodel]
  · intro j hj
    obtain ⟨i, hi, hnamed, _⟩ := hfound j hj
    rw [← copied?_of_permuted hbb.permuted hunique, ← hnamed]
    exact hg.ends i hi

end Copies

/-! ### Base chains -/

section Bases

/-- Everything a name denotes is the same and alike in two finished graphs. -/
structure Alike (d e : Document) (g h : Graph) : Prop extends Paired d e g h where
  named : ∀ name i j, g.lookup? name = some i → h.lookup? name = some j →
    (g.node i).Alike (g.Same h) (h.node j)

theorem builtin?_nameOf {i : NodeId} (hi : i < builtInNodes.length) :
    builtin? (empty.nameOf i) = some i := by
  have hall : ∀ i < builtInNodes.length, builtin? (empty.nameOf i) = some i := by decide
  exact hall i hi

theorem Linking.lookup?_builtIn (hg : Linking d g) {i : NodeId} (hi : i < builtInNodes.length) :
    g.lookup? (empty.nameOf i) = some i := by
  have hname : empty.nameOf i ∉ d.names := by
    intro hmem
    have hnone := (hg.declarable _ hmem).not_builtin
    rw [builtin?_nameOf hi] at hnone
    cases hnone
  rw [hg.lookup?_of_not_mem hname, builtin?_nameOf hi]

namespace Alike
variable {i j : NodeId}

theorem of_same (hgh : Alike d e g h) (hij : g.Same h i j) :
    (g.node i).Alike (g.Same h) (h.node j) := by
  cases hij with
  | builtIn hi => exact hgh.named _ i i (hgh.left.lookup?_builtIn hi) (hgh.right.lookup?_builtIn hi)
  | declared hi hj hname =>
    exact hgh.named _ i j (hgh.left.lookup?_nameOf hi) (hname ▸ hgh.right.lookup?_nameOf hj)
  | anonymous _ _ _ _ hnodes => exact hnodes

/-- Base chains of the same nodes end both or neither. -/
theorem base_ends (hgh : Alike d e g h) (hij : g.Same h i j)
    (hends : Ends (fun i => (g.node i).base) i) : Ends (fun j => (h.node j).base) j := by
  induction hends generalizing j with
  | last hnone =>
    have hbase := (hgh.of_same hij).base_rel
    rw [hnone] at hbase
    cases hb : (h.node j).base with
    | none => exact .last hb
    | some b =>
      rw [hb] at hbase
      cases hbase
  | step hstep _ ih =>
    have hbase := (hgh.of_same hij).base_rel
    rw [hstep] at hbase
    cases hb : (h.node j).base with
    | none => exact .last hb
    | some b =>
      rw [hb] at hbase
      exact .step hb (ih (Option.rel_some_some.mp hbase))

theorem checkBases (hgh : Alike d e g h) (hg : g.checkBases = .ok ()) :
    h.checkBases = .ok () := by
  rw [checkBases_eq_ok] at hg ⊢
  intro j hj
  have hname : h.nameOf j ∈ d.names := by
    rw [hgh.permuted.names.mem_iff, ← hgh.right.names]
    exact List.mem_map_of_mem hj
  obtain ⟨hi, hnamed, _⟩ := hgh.left.lookup?_of_mem hname
  exact hgh.base_ends (.declared hi hj hnamed) (hg _ hi)

end Alike

end Bases

/-! ### Documents -/

theorem link_eq_ok : link d = .ok g ↔ ∃ b, Linking d (ofNames d) ∧
    (ofNames d).linkBodies d = .ok b ∧ b.expandCopies (b.copiesOf d.models) = .ok g ∧
    g.checkBases = .ok () := by
  constructor
  · intro h
    obtain ⟨b, hnames, hb, _, hg, _, hcheck⟩ := link_phases h
    exact ⟨b, hnames, hb, hg, hcheck⟩
  · rintro ⟨b, hnames, hb, hg, hcheck⟩
    have hdeclared : declareNames d = .ok (ofNames d) :=
      declareNames_eq_ok.mpr ⟨rfl, hnames.declarable, hnames.unique⟩
    refine bind_eq_ok.mpr ⟨_, hdeclared, bind_eq_ok.mpr ⟨b, hb, bind_eq_ok.mpr ⟨g, hg, ?_⟩⟩⟩
    rw [hcheck]
    rfl

theorem exists_link_of_permuted (hp : d.Permuted e) (hg : link d = .ok g) :
    ∃ h, link e = .ok h ∧ Alike d e g h := by
  obtain ⟨b, hnames, hb, hexpand, hcheck⟩ := link_eq_ok.mp hg
  have hdeclarable : ∀ name ∈ e.names, Declarable name :=
    fun name hname => hnames.declarable name (hp.names.mem_iff.mpr hname)
  have hnames' : Linking e (ofNames e) :=
    ⟨fit_ofNames hdeclarable, .refl _, hdeclarable, hp.names.nodup_iff.mp hnames.unique⟩
  have hpaired : Paired d e (ofNames d) (ofNames e) := ⟨hp, hnames, hnames'⟩
  have hbodies := linkBodies_agree hpaired (alikeAt_ofNames hpaired)
  obtain ⟨b', hb'⟩ := hbodies.ok_iff.mp ⟨b, hb⟩
  obtain ⟨hmatched, halike⟩ := hbodies.of_ok hb hb'
  have hleft := expandCopies_expanded hmatched.left hexpand
  obtain ⟨h, hh⟩ := hleft.exists_ok hmatched
  have hright := expandCopies_expanded hmatched.right hh
  have hend : Alike d e g h := by
    refine ⟨⟨hp, hleft.onward.linking, hright.onward.linking⟩, ?_⟩
    intro name i j hi hj
    rw [hleft.onward.fills.lookup? hmatched.left.fit.kept] at hi
    rw [hright.onward.fills.lookup? hmatched.right.fit.kept] at hj
    exact hleft.endsAlike hmatched halike hright name i j hi hj
  exact ⟨h, link_eq_ok.mpr ⟨b', hnames', hb', hh, hend.checkBases hcheck⟩, hend⟩

/-- The order of declarations does not matter: either order links if the other does, and every name
then denotes the same. -/
theorem link_permuted (hp : d.Permuted e) :
    ((∃ g, link d = .ok g) ↔ ∃ h, link e = .ok h) ∧
    ∀ g h, link d = .ok g → link e = .ok h → ∀ name,
      Option.Rel (fun i j => g.Same h i j ∧ (g.node i).Alike (g.Same h) (h.node j))
        (g.lookup? name) (h.lookup? name) := by
  refine ⟨⟨?_, ?_⟩, ?_⟩
  · rintro ⟨g, hg⟩
    obtain ⟨h, hh, _⟩ := exists_link_of_permuted hp hg
    exact ⟨h, hh⟩
  · rintro ⟨h, hh⟩
    obtain ⟨g, hg, _⟩ := exists_link_of_permuted hp.symm hh
    exact ⟨g, hg⟩
  · intro g h hg hh name
    obtain ⟨h', hh', hend⟩ := exists_link_of_permuted hp hg
    cases hh.symm.trans hh'
    exact optionRel_mono (fun _ _ hij => ⟨hij.same, hend.of_same hij.same⟩) (hend.lookup? name)

end Graph

/-- The document with its declarations the other way round. -/
def Document.reversed (d : Document) : Document where
  scalars := d.scalars.reverse
  models := d.models.reverse
  enums := d.enums.reverse
  unions := d.unions.reverse

theorem Document.permuted_reversed (d : Document) : d.Permuted d.reversed :=
  ⟨(List.reverse_perm _).symm, (List.reverse_perm _).symm, (List.reverse_perm _).symm,
    (List.reverse_perm _).symm⟩

/-- A copy that comes before what it copies, which extends what comes later still. -/
def parcels : Document where
  scalars := [{ name := "Code", base := "Id" }, { name := "Id", base := "string" }]
  models :=
    [{ name := "Return", source := some (.named "Parcel"),
       properties := [{ name := "reason", type := .named "Code" }] },
     { name := "Parcel", base := some (.named "Item"),
       properties := [{ name := "state", type := { member := "State.sent" } },
                      { name := "tags", type := { array := some (.named "Code") } }] },
     { name := "Item", properties := [{ name := "id", type := .named "Id" }] }]
  enums := [{ name := "State", members := [{ name := "packed" }, { name := "sent" }] }]
  unions := [{ name := "Delivery", variants :=
    [{ name := "out", type := .named "Parcel" }, { name := "back", type := .named "Return" }] }]

theorem link_permuted_parcels : parcels.Permuted parcels.reversed ∧
    ∃ g h, Graph.link parcels = .ok g ∧ Graph.link parcels.reversed = .ok h ∧
      ∀ name, Option.Rel (fun i j => g.Same h i j ∧ (g.node i).Alike (g.Same h) (h.node j))
        (g.lookup? name) (h.lookup? name) := by
  have hlinks : (Graph.link parcels).cause? = none := by decide +kernel
  obtain ⟨g, hg⟩ := Result.cause?_eq_none.mp hlinks
  obtain ⟨hiff, hsame⟩ := Graph.link_permuted parcels.permuted_reversed
  obtain ⟨h, hh⟩ := hiff.mp ⟨g, hg⟩
  exact ⟨parcels.permuted_reversed, g, h, hg, hh, hsame g h hg hh⟩

end SchemaLoom

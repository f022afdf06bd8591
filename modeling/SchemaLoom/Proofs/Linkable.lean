import SchemaLoom.Proofs.Chains
import SchemaLoom.Proofs.Resolving

/-!
# Imported documents that link

The names of an imported document are all different and all known, so linking it can
only fail over what they stand for: a name that may not be declared, a base or a copied
type of the wrong kind, a literal of the wrong kind, or a chain that comes back to
itself. The last of these is a base cycle; the others are told apart from it here.

The order matters: copies are expanded one after another, and the first that cannot be
decides how linking fails.
-/

namespace SchemaLoom

set_option autoImplicit false

namespace Document

/-- What the model with a name copies. -/
def source? (d : Document) (name : Text) : Option TypeRef :=
  (d.models.find? (·.name == name)).bind (·.source)

/-- The declaration that the model with a name copies. -/
def copied? (d : Document) (name : Text) : Option Text :=
  (d.source? name).bind fun t => if t.name = [] then none else some t.name

/-- Following copies leads to something that cannot be copied. -/
inductive Stuck (d : Document) : Text → Prop
  | here {name : Text} {t : TypeRef} : d.source? name = some t → ¬ d.ModelRef t → Stuck d name
  | later {name next : Text} : d.copied? name = some next → Stuck d next → Stuck d name

/-- Following copies comes to an end at something that can be copied. -/
structure Expandable (d : Document) (name : Text) : Prop where
  ends : Ends d.copied? name
  free : ¬ d.Stuck name

/-- Every declaration is of a kind that linking takes. A copy that leads to something else does no
harm behind one that comes back to itself. -/
structure Linkable (d : Document) : Prop where
  names : ∀ name ∈ d.names, Graph.Declarable name
  scalars : ∀ s ∈ d.scalars, d.kind? s.base = some .scalar
  bases : ∀ m ∈ d.models, ∀ t, m.base = some t → d.ModelRef t
  properties : ∀ m ∈ d.models, ∀ p ∈ m.properties, p.type.Plain
  variants : ∀ u ∈ d.unions, ∀ v ∈ u.variants, v.type.Plain
  copies : ∀ before name after, d.names = before ++ name :: after → d.Stuck name →
    ∃ x ∈ before, ¬ Ends d.copied? x

/-! ### Copies -/

section Copies
variable {d : Document} {name next : Text} {t : TypeRef}

theorem mem_models_of_source? (h : d.source? name = some t) :
    ∃ m ∈ d.models, m.name = name ∧ m.source = some t := by
  obtain ⟨m, hm, ht⟩ := Option.bind_eq_some_iff.mp h
  exact ⟨m, List.mem_of_find?_eq_some hm, by simpa using List.find?_some hm, ht⟩

theorem mem_names_of_kind?_model (h : d.kind? name = some .model) : name ∈ d.names := by
  have hbuiltIn : ∀ n ∈ builtInNodes, n.kind ≠ .model := by decide
  by_contra hnot
  simp only [names, List.mem_append, not_or] at hnot
  obtain ⟨⟨⟨hscalar, hmodel⟩, henum⟩, hunion⟩ := hnot
  rw [kind?, if_neg hscalar, if_neg hmodel, if_neg henum, if_neg hunion] at h
  obtain ⟨n, hn, hkind⟩ := Option.map_eq_some_iff.mp h
  exact hbuiltIn n (List.mem_of_find?_eq_some hn) hkind

theorem copied?_eq_some :
    d.copied? name = some next ↔ ∃ t, d.source? name = some t ∧ next ≠ [] ∧ t.name = next := by
  rw [copied?, Option.bind_eq_some_iff]
  apply exists_congr
  intro t
  apply and_congr_right
  intro _
  split
  · rename_i hname
    simp only [reduceCtorEq, hname, false_iff, not_and]
    exact fun hne heq => hne heq.symm
  · rename_i hname
    rw [Option.some.injEq]
    exact ⟨fun heq => ⟨heq ▸ hname, heq⟩, And.right⟩

theorem Stuck.exists_source (h : d.Stuck name) : ∃ t, d.source? name = some t := by
  cases h with
  | here ht _ => exact ⟨_, ht⟩
  | later hnext _ =>
    obtain ⟨t, ht, _⟩ := copied?_eq_some.mp hnext
    exact ⟨t, ht⟩

theorem expandable_of_source?_none (h : d.source? name = none) : d.Expandable name where
  ends := .last (by rw [copied?, h]; rfl)
  free := by
    intro hstuck
    obtain ⟨t, ht⟩ := hstuck.exists_source
    rw [h] at ht
    cases ht

theorem ModelRef.expandable (href : d.ModelRef t) (ht : d.source? name = some t)
    (hnext : ∀ next, d.copied? name = some next → d.Expandable next) : d.Expandable name where
  ends := by
    cases hcopied : d.copied? name with
    | none => exact .last hcopied
    | some next => exact .step hcopied (hnext next hcopied).ends
  free := by
    intro hstuck
    cases hstuck with
    | here hu hnot =>
      rw [ht] at hu
      cases hu
      exact hnot href
    | later hcopied hstuck => exact (hnext _ hcopied).free hstuck

/-- A chain of copies that leads to something else ends there. -/
theorem Stuck.ends (hd : d.Imported d.names) (hunique : d.names.Nodup) (h : d.Stuck name) :
    Ends d.copied? name := by
  induction h with
  | later hnext _ ih => exact .step hnext ih
  | @here name t ht hnot =>
    cases hcopied : d.copied? name with
    | none => exact .last hcopied
    | some next =>
      refine .step hcopied (.last ?_)
      obtain ⟨u, hu, hne, rfl⟩ := copied?_eq_some.mp hcopied
      rw [ht] at hu
      cases hu
      obtain ⟨m, hm, _, hsource⟩ := mem_models_of_source? ht
      have hnamed := ((hd.models m hm).source t hsource).eq_named hne
      cases hnone : d.copied? t.name with
      | none => rfl
      | some next =>
        obtain ⟨u, hu, _⟩ := copied?_eq_some.mp hnone
        obtain ⟨m', hm', hname', _⟩ := mem_models_of_source? hu
        refine absurd ⟨?_, ?_⟩ hnot
        · rw [hnamed]
          exact .named trivial
        · rw [IsModel, if_neg hne, ← hname']
          exact Graph.kind?_model hunique hm'

/-- How the expansion of a model fails. -/
def Fails (d : Document) (name : Text) (e : Failure) : Prop :=
  (e.cause = .baseCycle ∧ ¬ Ends d.copied? name) ∨ (e.cause ≠ .baseCycle ∧ d.Stuck name)

theorem Fails.later {e : Failure} (hnext : d.copied? name = some next) (h : d.Fails next e) :
    d.Fails name e := by
  rcases h with ⟨hcause, hloop⟩ | ⟨hcause, hstuck⟩
  · exact .inl ⟨hcause, fun hends => hloop (hends.later hnext)⟩
  · exact .inr ⟨hcause, .later hnext hstuck⟩

end Copies

end Document

namespace Graph
open Result

variable {d : Document} {g : Graph}

theorem Linking.names (hg : Linking d g) : g.names = d.names := by
  rw [← names_ofNames d, Graph.names, Graph.names, hg.grows.declarations]
  apply List.map_congr_left
  intro i hi
  exact hg.grows.name i (kept_ofNames d i hi)

theorem Linking.eq_of_nameOf (hg : Linking d g) {m n : NodeId} (hm : m ∈ g.declarations)
    (hn : n ∈ g.declarations) (h : g.nameOf m = g.nameOf n) : m = n := by
  have hnodup : (g.declarations.map g.nameOf).Nodup := by
    rw [← Graph.names, hg.names]
    exact hg.unique
  exact List.inj_on_of_nodup_map hnodup hm hn h

theorem Linking.declaration? (hg : Linking d g) {name : Text} (hname : name ∈ d.names) :
    ∃ i ∈ g.declarations, g.nameOf i = name ∧ g.declaration? name = some i := by
  rw [← hg.names] at hname
  obtain ⟨i, hi⟩ := Option.isSome_iff_exists.mp (isSome_declaration?.mpr hname)
  obtain ⟨hmem, hnameOf⟩ := mem_of_declaration? hi
  exact ⟨i, hmem, hnameOf, hi⟩

theorem lookup_filter_ne (copies : Copies) (m n : NodeId) :
    (copies.filter fun c => c.1 != n).lookup m = if m = n then none else copies.lookup m := by
  induction copies with
  | nil => simp
  | cons c copies ih => grind

theorem lookup_copiesOf (hg : Linking d g) {n : NodeId} (hn : n ∈ g.declarations)
    {ms : List ModelDecl} (hms : ∀ m ∈ ms, m ∈ d.models) (hnodup : (ms.map (·.name)).Nodup) :
    (g.copiesOf ms).lookup n = (ms.find? (·.name == g.nameOf n)).bind (·.source) := by
  induction ms with
  | nil => rfl
  | cons m ms ih =>
    rw [List.map_cons, List.nodup_cons] at hnodup
    have hrest := ih (fun x hx => hms x (List.mem_cons_of_mem _ hx)) hnodup.2
    obtain ⟨i, hi, hname, hdecl⟩ :=
      hg.declaration? (mem_names_model (hms m List.mem_cons_self))
    have hdeclared : g.declared m.name = i := by rw [declared, hdecl]; rfl
    have hcons : g.copiesOf (m :: ms) =
        (m.source.map fun t => (i, t)).toList ++ g.copiesOf ms := by
      rw [← hdeclared]
      cases hsource : m.source <;> simp [copiesOf, hsource]
    rw [hcons, List.lookup_append, hrest, List.find?_cons]
    by_cases heq : m.name = g.nameOf n
    · obtain rfl : i = n := hg.eq_of_nameOf hi hn (hname.trans heq)
      have hnone : ms.find? (·.name == g.nameOf i) = none := by
        rw [List.find?_eq_none]
        intro x hx hxname
        refine hnodup.1 (List.mem_map.mpr ⟨x, hx, ?_⟩)
        rw [heq]
        simpa using hxname
      simp only [heq, beq_self_eq_true, Option.bind_some, hnone, Option.bind_none, Option.or_none]
      cases m.source <;> simp
    · have hne : n ≠ i := by
        rintro rfl
        exact heq hname.symm
      simp only [beq_eq_false_iff_ne.mpr heq]
      cases m.source <;> simp [List.lookup_cons, beq_eq_false_iff_ne.mpr hne]

/-- Within a kind, too, no name is declared twice. -/
theorem nodup_parts (hd : d.names.Nodup) :
    (d.scalars.map (·.name)).Nodup ∧ (d.models.map (·.name)).Nodup ∧
      (d.enums.map (·.name)).Nodup ∧ (d.unions.map (·.name)).Nodup := by
  simp only [Document.names, List.nodup_append] at hd
  exact ⟨hd.1.1.1, hd.1.1.2.1, hd.1.2.1, hd.2.1⟩

theorem lookup_copiesOf_models (hg : Linking d g) {n : NodeId} (hn : n ∈ g.declarations) :
    (g.copiesOf d.models).lookup n = d.source? (g.nameOf n) :=
  lookup_copiesOf hg hn (fun _ hm => hm) (nodup_parts hg.unique).2.1

/-- The copies that are still to be expanded; all others are or need not be. -/
structure Remaining (d : Document) (g : Graph) (copies : Copies) : Prop where
  copyable : g.Copyable copies
  source : ∀ n ∈ g.declarations, ∀ t, copies.lookup n = some t → d.source? (g.nameOf n) = some t
  done : ∀ n ∈ g.declarations, copies.lookup n = none → d.Expandable (g.nameOf n)

theorem remaining_copiesOf (hg : Linking d g) : Remaining d g (g.copiesOf d.models) := by
  refine ⟨copyable_copiesOf hg, ?_, ?_⟩
  · intro n hn t ht
    rw [← lookup_copiesOf_models hg hn, ht]
  · intro n hn hnone
    rw [lookup_copiesOf_models hg hn] at hnone
    exact Document.expandable_of_source?_none hnone

section Remaining
variable {copies : Copies} {n : NodeId}

theorem Remaining.grows (h : Remaining d g copies) (hg : g.Kept) {k : Graph} (hgk : g.Grows k) :
    Remaining d k copies := by
  have hname : ∀ n ∈ g.declarations, k.nameOf n = g.nameOf n := fun n hn => hgk.name n (hg n hn)
  refine ⟨h.copyable.grows hg hgk, ?_, ?_⟩
  · intro n hn t ht
    rw [hgk.declarations] at hn
    rw [hname n hn]
    exact h.source n hn t ht
  · intro n hn hnone
    rw [hgk.declarations] at hn
    rw [hname n hn]
    exact h.done n hn hnone

theorem Remaining.filter (h : Remaining d g copies) (hn : d.Expandable (g.nameOf n)) :
    Remaining d g (copies.filter fun c => c.1 != n) := by
  refine ⟨fun c hc => h.copyable c (List.mem_of_mem_filter hc), ?_, ?_⟩
  · intro m hm t ht
    rw [lookup_filter_ne] at ht
    split at ht
    · cases ht
    · exact h.source m hm t ht
  · intro m hm hnone
    rw [lookup_filter_ne] at hnone
    split at hnone
    · rename_i heq
      rw [heq]
      exact hn
    · exact h.done m hm hnone

end Remaining

/-- The expansion of `n` has come through the models in `visiting`. -/
structure Expanding (d : Document) (g : Graph) (copies : Copies) (visiting : List NodeId)
    (n : NodeId) : Prop where
  linking : Linking d g
  remaining : Remaining d g copies
  declared : n ∈ g.declarations
  passed : ∀ v ∈ visiting,
    Relation.TransGen (fun a b => d.copied? a = some b) (g.nameOf v) (g.nameOf n)
  nodup : visiting.Nodup
  keys : visiting ⊆ copies.map (·.1)

namespace Expanding
variable {copies : Copies} {visiting : List NodeId} {n : NodeId} {t : TypeRef}

theorem length_le (h : Expanding d g copies visiting n) : visiting.length ≤ copies.length := by
  simpa using (h.nodup.subperm h.keys).length_le

theorem length_lt (h : Expanding d g copies visiting n) (ht : copies.lookup n = some t)
    (hnot : n ∉ visiting) : visiting.length < copies.length := by
  have hsub : n :: visiting ⊆ copies.map (·.1) :=
    List.cons_subset.mpr ⟨List.mem_map_of_mem (mem_of_lookup ht), h.keys⟩
  have hle := ((List.nodup_cons.mpr ⟨hnot, h.nodup⟩).subperm hsub).length_le
  rw [List.length_cons, List.length_map] at hle
  exact hle

theorem known (h : Expanding d g copies visiting n) (hd : d.Imported d.names)
    (ht : copies.lookup n = some t) : t.Known d.names := by
  obtain ⟨m, hm, _, hsource⟩ :=
    Document.mem_models_of_source? (h.remaining.source n h.declared t ht)
  exact (hd.models m hm).source t hsource

/-- The copied model comes next. -/
theorem next (h : Expanding d g copies visiting n) (ht : copies.lookup n = some t)
    (hnot : n ∉ visiting) {src : NodeId} (hsrc : src ∈ g.declarations)
    (hcopied : d.copied? (g.nameOf n) = some (g.nameOf src)) :
    Expanding d g copies (n :: visiting) src where
  linking := h.linking
  remaining := h.remaining
  declared := hsrc
  passed := by
    intro v hv
    rcases List.mem_cons.mp hv with rfl | hv
    · exact .single hcopied
    · exact (h.passed v hv).tail hcopied
  nodup := List.nodup_cons.mpr ⟨hnot, h.nodup⟩
  keys := by
    intro v hv
    rcases List.mem_cons.mp hv with rfl | hv
    · exact List.mem_map_of_mem (mem_of_lookup ht)
    · exact h.keys hv

/-- What a copied type resolves to: a declared model, or a model of its own. -/
theorem resolve_source (h : Expanding d g copies visiting n) (ht : copies.lookup n = some t)
    (hknown : t.Known d.names) {src : NodeId} {k : Graph} (hok : g.resolve t = .ok (src, k))
    (hmodel : d.IsModel t) :
    (k = g ∧ src ∈ g.declarations ∧ d.copied? (g.nameOf n) = some (g.nameOf src)) ∨
    (src ∉ k.declarations ∧ d.copied? (g.nameOf n) = none) := by
  have hsource := h.remaining.source n h.declared t ht
  rcases resolve_cases hknown h.linking hok with ⟨hne, rfl, hsrc⟩ | ⟨hname, hreferred, _⟩
  · left
    rw [Document.IsModel, if_neg hne] at hmodel
    obtain ⟨i, hi, hname, hdecl⟩ :=
      h.linking.declaration? (Document.mem_names_of_kind?_model hmodel)
    have hlookup : k.resolveName t.name = .ok i := by
      rw [resolveName, lookup?, hdecl]
      rfl
    rw [hlookup] at hsrc
    cases hsrc
    refine ⟨rfl, hi, Document.copied?_eq_some.mpr ⟨t, hsource, ?_, hname.symm⟩⟩
    rw [hname]
    exact hne
  · right
    have hmade := resolve_made h.linking.fit hok
    constructor
    · intro hmem
      have hdeclared := (hmade.fit.fits_of_lt hmade.lt).declared_iff.mpr hmem
      rw [hreferred] at hdeclared
      cases hdeclared
    · rw [Document.copied?, hsource, Option.bind_some, if_pos hname]

theorem expand_source (h : Expanding d g copies visiting n) (ht : copies.lookup n = some t)
    (hknown : t.Known d.names) (hnot : n ∉ visiting) {src : NodeId} {k : Graph}
    (hok : g.resolve t = .ok (src, k)) (hmodel : d.IsModel t) {fuel : Nat}
    (hfuel : copies.length < fuel + 1 + visiting.length)
    (ih : Expanding d g copies (n :: visiting) src →
      (∃ r, expand fuel (n :: visiting) g copies src = .ok r ∧ d.Expandable (g.nameOf src) ∧
        Remaining d r.1 r.2) ∨
      ∃ e, expand fuel (n :: visiting) g copies src = .error e ∧ d.Fails (g.nameOf src) e) :
    (∃ r, expand fuel (n :: visiting) k copies src = .ok r ∧
      (∀ next, d.copied? (g.nameOf n) = some next → d.Expandable next) ∧ Remaining d r.1 r.2) ∨
    ∃ e, expand fuel (n :: visiting) k copies src = .error e ∧ d.Fails (g.nameOf n) e := by
  rcases h.resolve_source ht hknown hok hmodel with ⟨rfl, hsrc, hcopied⟩ | ⟨hsrc, hcopied⟩
  · rcases ih (h.next ht hnot hsrc hcopied) with ⟨r, hr, hexp, hrest⟩ | ⟨e, he, hfails⟩
    · refine .inl ⟨r, hr, ?_, hrest⟩
      intro next hnext
      rw [hcopied] at hnext
      cases hnext
      exact hexp
    · exact .inr ⟨e, he, hfails.later hcopied⟩
  · have hlt := h.length_lt ht hnot
    obtain ⟨more, rfl⟩ : ∃ more, fuel = more + 1 := ⟨fuel - 1, by omega⟩
    have hmade := resolve_made h.linking.fit hok
    have hcopies := h.remaining.grows h.linking.fit.kept hmade.grows
    have hnone : copies.lookup src = none := by
      cases hlookup : copies.lookup src with
      | none => rfl
      | some u => exact absurd (hcopies.copyable _ (mem_of_lookup hlookup)).1 hsrc
    refine .inl ⟨(k, copies), by rw [expand, hnone], ?_, hcopies⟩
    intro next hnext
    rw [hcopied] at hnext
    cases hnext

end Expanding

/-- The outcomes of an expansion: the chain of copies ends at a model, comes back to itself, or
leads to something else. The models passed are all different, so the fuel lasts. -/
theorem expand_outcome (hd : d.Imported d.names) {fuel : Nat} {visiting : List NodeId}
    {copies : Copies} {n : NodeId} (h : Expanding d g copies visiting n)
    (hfuel : copies.length < fuel + visiting.length) :
    (∃ r, expand fuel visiting g copies n = .ok r ∧ d.Expandable (g.nameOf n) ∧
      Remaining d r.1 r.2) ∨
    ∃ e, expand fuel visiting g copies n = .error e ∧ d.Fails (g.nameOf n) e := by
  induction fuel generalizing visiting g n with
  | zero =>
    have hle := h.length_le
    omega
  | succ fuel ih =>
    rw [expand]
    cases ht : copies.lookup n with
    | none => exact .inl ⟨_, rfl, h.remaining.done n h.declared ht, h.remaining⟩
    | some t =>
      have hsource := h.remaining.source n h.declared t ht
      have hknown := h.known hd ht
      dsimp only
      by_cases hvisited : n ∈ visiting
      · right
        rw [if_pos (by simpa using hvisited)]
        exact ⟨_, rfl, .inl ⟨rfl, fun hends => hends.not_loop (h.passed n hvisited)⟩⟩
      rw [if_neg (by simpa using hvisited)]
      rcases (resolve_hinges hknown h.linking).ok_or_error with
        ⟨hplain, ⟨src, k⟩, hok⟩ | ⟨hplain, e, he, hcause⟩
      · have hkind := kind_resolve hknown h.linking hok
        rw [hok]
        simp only [within, bind, Except.bind]
        by_cases hmodel : (k.node src).kind = .model
        · have href : d.ModelRef t := ⟨hplain, hkind.mp hmodel⟩
          rw [if_neg (by simpa using hmodel)]
          rcases h.expand_source ht hknown hvisited hok href.model hfuel
              fun hnext => ih hnext (by rw [List.length_cons]; omega) with
            ⟨⟨l, rest⟩, hr, hnext, hrest⟩ | ⟨e, he, hfails⟩
          · left
            have hexp := href.expandable hsource hnext
            have hmade := resolve_made h.linking.fit hok
            obtain ⟨hl, hgrows, _⟩ := expand_linking (h.linking.made hmade)
              (h.remaining.copyable.grows h.linking.fit.kept hmade.grows) hr
            have hall := hmade.grows.trans (hgrows.trans (grows_copyShape l n src))
            rw [hr]
            refine ⟨_, rfl, hexp, ?_⟩
            refine (hrest.grows hl.fit.kept (grows_copyShape l n src)).filter ?_
            rw [nameOf, hall.name n (h.linking.fit.kept n h.declared)]
            exact hexp
          · right
            rw [he]
            exact ⟨e, rfl, hfails⟩
        · right
          rw [if_pos (by simpa using hmodel)]
          exact ⟨_, rfl, .inr ⟨by simp, .here hsource fun href => hmodel (hkind.mpr href.model)⟩⟩
      · right
        rw [he]
        exact ⟨_, rfl, .inr ⟨hcause, .here hsource fun href => hplain href.plain⟩⟩

/-- Some declarations are expanded. -/
structure Partway (d : Document) (g : Graph) (s : Graph × Copies) : Prop where
  linking : Linking d s.1
  grows : g.Grows s.1
  remaining : Remaining d s.1 s.2

theorem Partway.outcome {s : Graph × Copies} (h : Partway d g s) (hd : d.Imported d.names)
    (hg : g.Kept) {n : NodeId} (hn : n ∈ g.declarations) :
    (∃ r, expand (s.2.length + 1) [] s.1 s.2 n = .ok r ∧ d.Expandable (g.nameOf n) ∧
      Partway d g r) ∨
    ∃ e, expand (s.2.length + 1) [] s.1 s.2 n = .error e ∧ d.Fails (g.nameOf n) e := by
  have hname : s.1.nameOf n = g.nameOf n := h.grows.name n (hg n hn)
  have hdeclared : n ∈ s.1.declarations := by
    rw [h.grows.declarations]
    exact hn
  have hexpanding : Expanding d s.1 s.2 [] n :=
    ⟨h.linking, h.remaining, hdeclared, nofun, .nil, List.nil_subset _⟩
  rw [← hname]
  rcases expand_outcome hd hexpanding (Nat.lt_succ_self _) with ⟨r, hr, hexp, hrest⟩ | hfails
  · obtain ⟨hlinking, hgrows, _⟩ := expand_linking h.linking h.remaining.copyable hr
    exact .inl ⟨r, hr, hexp, hlinking, h.grows.trans hgrows, hrest⟩
  · exact .inr hfails

/-- Copies are expanded in the order of the names; the first that cannot be decides. -/
theorem expandCopies_tells (hg : Linking d g) (hd : d.Imported d.names) :
    Tells (g.expandCopies (g.copiesOf d.models)) (∀ name ∈ d.names, d.Expandable name) fun e =>
      ∃ before name after, d.names = before ++ name :: after ∧
        (∀ x ∈ before, d.Expandable x) ∧ d.Fails name e := by
  refine (Tells.bind_ok (Tells.foldlM (I := Partway d g) (G := fun n => d.Expandable (g.nameOf n))
    (B := fun n => d.Fails (g.nameOf n)) ?_ ?_ ⟨hg, .refl g, remaining_copiesOf hg⟩)
    fun _ => ⟨_, rfl⟩).mono ?_ ?_
  · intro s n r hn hs hok
    have hok := within_eq_ok.mp hok
    rcases hs.outcome hd hg.fit.kept hn with ⟨r', hr', _, hrest⟩ | ⟨e, he, _⟩
    · obtain rfl := Except.ok.inj (hok.symm.trans hr')
      exact hrest
    · cases hok.symm.trans he
  · intro s n hn hs
    refine Tells.within ?_ fun e position he => he
    rcases hs.outcome hd hg.fit.kept hn with ⟨r, hr, hexp, _⟩ | ⟨e, he, hfails⟩
    · exact .of_ok hr hexp
    · refine ⟨fun r hr => (nomatch he.symm.trans hr), fun f hf => ?_⟩
      obtain rfl := Except.error.inj (he.symm.trans hf)
      exact hfails
  · intro h name hname
    rw [← hg.names] at hname
    obtain ⟨n, hn, rfl⟩ := List.mem_map.mp hname
    exact h n hn
  · rintro e ⟨before, n, after, heq, hbefore, hfails⟩
    refine ⟨before.map g.nameOf, g.nameOf n, after.map g.nameOf, ?_, ?_, hfails⟩
    · rw [← hg.names, Graph.names, heq, List.map_append, List.map_cons]
    · intro x hx
      obtain ⟨m, hm, rfl⟩ := List.mem_map.mp hx
      exact hbefore m hm

/-! ### Documents -/

theorem cause_declare {n : NodeId} {e : Failure} (h : g.declare n = .error e) :
    e.cause ≠ .baseCycle := by
  unfold declare at h
  dsimp only at h
  split_ifs at h
  all_goals
    cases h
    nofun

theorem cause_declareAll {kind : Kind} {names : List Text} {e : Failure}
    (h : g.declareAll kind names = .error e) : e.cause ≠ .baseCycle := by
  have hfold := Tells.foldlM (I := fun _ => True) (G := fun _ => True)
    (B := fun _ e => e.cause ≠ .baseCycle)
    (f := fun (g : Graph) name => (g.push { kind, name }).2.declare (g.push { kind, name }).1)
    (fun _ _ _ _ _ _ => trivial) (fun g name (_ : name ∈ names) _ =>
      ⟨fun _ _ => trivial, fun e he => cause_declare he⟩) (s := g) trivial
  obtain ⟨_, _, _, _, _, hcause⟩ := hfold.error e h
  exact hcause

theorem declareNames_hinges (hunique : d.names.Nodup) :
    HingesOn (declareNames d) (∀ name ∈ d.names, Declarable name) := by
  constructor
  · intro g hg
    exact (declareNames_eq_ok.mp hg).2.1
  · intro e he
    constructor
    · intro hnames
      have hok := declareNames_eq_ok.mpr ⟨rfl, hnames, hunique⟩
      cases hok.symm.trans he
    · unfold declareNames at he
      rcases bind_eq_error.mp he with he | ⟨_, _, he⟩
      · exact cause_declareAll he
      rcases bind_eq_error.mp he with he | ⟨_, _, he⟩
      · exact cause_declareAll he
      rcases bind_eq_error.mp he with he | ⟨_, _, he⟩
      · exact cause_declareAll he
      · exact cause_declareAll he

/-- Copies pass unless one leads to something else before any comes back to itself. -/
theorem expandCopies_passes_iff (hg : Linking d g) (hd : d.Imported d.names) :
    Passes (g.expandCopies (g.copiesOf d.models)) ↔
      ∀ before name after, d.names = before ++ name :: after → d.Stuck name →
        ∃ x ∈ before, ¬ Ends d.copied? x := by
  have htells := expandCopies_tells hg hd
  cases hcopies : g.expandCopies (g.copiesOf d.models) with
  | ok k =>
    have hall := htells.ok k hcopies
    constructor
    · intro _ before name after heq hstuck
      exact absurd hstuck (hall name (by simp [heq])).free
    · exact fun _ => .inl ⟨k, rfl⟩
  | error e =>
    obtain ⟨before, name, after, heq, hbefore, ⟨hcause, hloop⟩ | ⟨hcause, hstuck⟩⟩ :=
      htells.error e hcopies
    · constructor
      · intro _ before' name' after' heq' hstuck'
        -- the two splits of the names are compared: the stuck name comes later
        rw [heq, List.append_eq_append_iff] at heq'
        rcases heq' with ⟨l, rfl, hl⟩ | ⟨l, rfl, hl⟩
        · cases l with
          | nil =>
            obtain ⟨rfl, _⟩ := List.cons.inj hl
            exact absurd (hstuck'.ends hd hg.unique) hloop
          | cons x l =>
            obtain ⟨rfl, _⟩ := List.cons.inj hl
            exact ⟨name, by simp, hloop⟩
        · cases l with
          | nil =>
            obtain ⟨rfl, _⟩ := List.cons.inj hl
            exact absurd (hstuck'.ends hd hg.unique) hloop
          | cons x l =>
            obtain ⟨rfl, _⟩ := List.cons.inj hl
            exact absurd hstuck' (hbefore name' (by simp)).free
      · exact fun _ => .inr (congrArg some hcause)
    · constructor
      · rintro (⟨k, hk⟩ | hcycle)
        · cases hk
        · exact absurd (Option.some.inj hcycle) hcause
      · intro h
        obtain ⟨x, hx, hloop⟩ := h before name after heq hstuck
        exact absurd (hbefore x hx).ends hloop

theorem checkBases_passes (g : Graph) : Passes g.checkBases := by
  unfold checkBases
  split
  · exact .inr rfl
  · exact .inl ⟨_, rfl⟩

/-- An imported document links, or fails to over a base cycle, exactly if every declaration is of a
kind that linking takes. -/
theorem link_toDocument_iff {root : Schema} {name : Text} {d : Document} (hroot : root.Distinct)
    (h : root.toDocument name = .ok d) :
    ((∃ g, link d = .ok g) ∨ (link d).cause? = some .baseCycle) ↔ d.Linkable := by
  obtain ⟨hunique, _, hd⟩ := Schema.toDocument_imported hroot h
  have hlinking : ∀ g, declareNames d = .ok g → Linking d g := by
    intro g hg
    obtain ⟨rfl, hnames, _⟩ := declareNames_eq_ok.mp hg
    exact ⟨fit_ofNames hnames, .refl _, hnames, hunique⟩
  have hend : ∀ g : Graph, Passes (do g.checkBases; .ok g) := by
    intro g
    exact (passes_bind fun _ => .inl ⟨g, rfl⟩).mpr (checkBases_passes g)
  have hcopies : ∀ g, Linking d g →
      (Passes (do
        let g ← g.expandCopies (g.copiesOf d.models)
        g.checkBases
        .ok g) ↔ ∀ before name after, d.names = before ++ name :: after → d.Stuck name →
          ∃ x ∈ before, ¬ Ends d.copied? x) := by
    intro g hg
    rw [passes_bind hend]
    exact expandCopies_passes_iff hg hd
  change Passes (link d) ↔ d.Linkable
  unfold link
  rw [(declareNames_hinges hunique).passes_bind_iff]
  constructor
  · rintro ⟨hnames, hrest⟩
    have hdecl := declareNames_eq_ok.mpr ⟨rfl, hnames, hunique⟩
    have hbodies := linkBodies_hinges (hlinking _ hdecl) hd
    obtain ⟨hall, hrest⟩ := hbodies.passes_bind_iff.mp (hrest _ hdecl)
    obtain ⟨b, hb⟩ := hbodies.exists_ok hall
    exact
      { names := hnames
        scalars := hall.1
        bases := fun m hm => (hall.2.1 m hm).1
        properties := fun m hm => (hall.2.1 m hm).2
        variants := hall.2.2
        copies := (hcopies b (linkBodies_linking (hlinking _ hdecl) hb)).mp (hrest b hb) }
  · intro hlinkable
    refine ⟨hlinkable.names, ?_⟩
    intro g hg
    refine (linkBodies_hinges (hlinking g hg) hd).passes_bind_iff.mpr ⟨⟨hlinkable.scalars,
      fun m hm => ⟨hlinkable.bases m hm, hlinkable.properties m hm⟩, hlinkable.variants⟩, ?_⟩
    intro b hb
    exact (hcopies b (linkBodies_linking (hlinking g hg) hb)).mpr hlinkable.copies

end Graph

/-- A definition that stands for another, which is an object. -/
def modelAlias : Schema :=
  .node { defOrder := some ["Alias", "Pet"] }
    [(.def_ "Alias", .node { ref := "#/$defs/Pet" } []),
     (.def_ "Pet", .node { type := "object" } [(.property "tag", .node { type := "string" } [])])]

theorem orderedDefs_modelAlias : modelAlias.orderedDefs = ["Alias", "Pet"] := by cbv

set_option maxRecDepth 100000 in
theorem link_toDocument_iff_modelAlias : modelAlias.Distinct ∧
    ∃ d, modelAlias.toDocument [] = .ok d ∧ (∃ g, Graph.link d = .ok g) ∧ d.Linkable := by
  have hdistinct : modelAlias.Distinct := by
    unfold Schema.Distinct
    decide
  have hlinks : (modelAlias.toDocument [] >>= Graph.link).cause? = none := by
    simp only [Schema.toDocument, Import.document, orderedDefs_modelAlias]
    decide +kernel
  obtain ⟨g, hg⟩ := Result.cause?_eq_none.mp hlinks
  obtain ⟨d, hd, hlink⟩ := Result.bind_eq_ok.mp hg
  refine ⟨hdistinct, d, hd, ⟨g, hlink⟩, ?_⟩
  exact (Graph.link_toDocument_iff hdistinct hd).mp (.inl ⟨g, hlink⟩)

/-- A definition that stands for another, which enumerates values of a type. -/
def enumAlias : Schema :=
  .node { defOrder := some ["Color", "Alias"] }
    [(.def_ "Alias", .node { ref := "#/$defs/Color" } []),
     (.def_ "Color", .node { type := "string", enum := some [.string "a", .string "b"] } [])]

theorem orderedDefs_enumAlias : enumAlias.orderedDefs = ["Color", "Alias"] := by cbv

set_option maxRecDepth 100000 in
/-- It is imported as a scalar that extends an enum, which does not link. -/
theorem enumAlias_not_linked : enumAlias.Distinct ∧
    ∃ d, enumAlias.toDocument [] = .ok d ∧
      (Graph.link d).cause? = some (.notExtendable "enum Color") := by
  have hdistinct : enumAlias.Distinct := by
    unfold Schema.Distinct
    decide
  have himports : (enumAlias.toDocument []).cause? = none := by
    simp only [Schema.toDocument, Import.document, orderedDefs_enumAlias]
    decide +kernel
  have hfails : (enumAlias.toDocument [] >>= Graph.link).cause? =
      some (.notExtendable "enum Color") := by
    simp only [Schema.toDocument, Import.document, orderedDefs_enumAlias]
    decide +kernel
  obtain ⟨d, hd⟩ := Result.cause?_eq_none.mp himports
  rw [hd] at hfails
  exact ⟨hdistinct, d, hd, hfails⟩

end SchemaLoom

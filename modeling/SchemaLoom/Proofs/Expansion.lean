import SchemaLoom.Proofs.AlikeBodies

/-!
# Expanding copies

A model is expanded after the model that it copies, and neither changes any more once it
is expanded. So in the end a copy consists of its own body and of what the copied type
has become, in whatever order the copies are reached.
-/

namespace SchemaLoom

set_option autoImplicit false

/-- A node with the shape of another in front of its own. -/
def Node.copying (n m : Node) : Node :=
  { n with indexer := m.indexer, base := n.base.or m.base,
           properties := m.properties ++ n.properties }

theorem Node.Alike.copying {R : NodeId → NodeId → Prop} {n n' m m' : Node} (hn : n.Alike R n')
    (hm : m.Alike R m') : (n.copying m).Alike R (n'.copying m') := by
  have hbase := optionRel_or hn.base_rel hm.base_rel
  cases hn
  cases hm
  constructor <;> first | assumption | exact List.rel_append ‹_› ‹_›

namespace Graph
open Result

variable {d : Document} {b g k l : Graph} {copies : Copies} {i n : NodeId} {t : TypeRef}

theorem copyShape_eq (g : Graph) (n src : NodeId) :
    g.copyShape n src = g.modify n fun m => m.copying (g.node src) := rfl

/-! ### What a copied type denotes -/

section Sources

theorem resolve_unnamed (ht : t.name = []) (hok : g.resolve t = .ok (i, k)) :
    (∃ l m, g.Adds l ∧ l.push m = (i, k)) ∨ k = g ∧ g.resolveMember t.member = .ok i := by
  obtain ⟨name, array, record, literal, union, tuple, object, member⟩ := t
  dsimp only at ht
  subst ht
  have hname : ¬ (!List.isEmpty ([] : Text)) = true := by simp
  cases array with
  | some t =>
    rw [resolve, if_neg hname] at hok
    obtain ⟨⟨elem, l⟩, hl, hok⟩ := bind_eq_ok.mp hok
    exact .inl ⟨l, _, resolve_adds hl, Except.ok.inj hok⟩
  | none =>
  cases record with
  | some t =>
    rw [resolve, if_neg hname] at hok
    obtain ⟨⟨value, l⟩, hl, hok⟩ := bind_eq_ok.mp hok
    exact .inl ⟨l, _, resolve_adds hl, Except.ok.inj hok⟩
  | none =>
  cases literal with
  | some v =>
    rw [resolve, if_neg hname] at hok
    obtain ⟨m, _, hok⟩ := map_eq_ok.mp hok
    exact .inl ⟨g, m, .refl _ g, hok⟩
  | none =>
  cases union with
  | some ts =>
    rw [resolve, if_neg hname] at hok
    obtain ⟨⟨types, l⟩, hl, hok⟩ := bind_eq_ok.mp hok
    have hvariants := (pushVariants_appends (Q := fun _ => True) l types).adds
    exact .inl ⟨_, _, (resolveAll_adds hl).trans hvariants, Except.ok.inj hok⟩
  | none =>
  cases tuple with
  | some ts =>
    rw [resolve, if_neg hname] at hok
    obtain ⟨⟨elements, l⟩, hl, hok⟩ := bind_eq_ok.mp hok
    exact .inl ⟨l, _, resolveAll_adds hl, Except.ok.inj hok⟩
  | none =>
  cases object with
  | some ps =>
    rw [resolve, if_neg hname] at hok
    obtain ⟨⟨properties, l⟩, hl, hok⟩ := bind_eq_ok.mp hok
    exact .inl ⟨l, _, linkProperties_adds hl, Except.ok.inj hok⟩
  | none =>
    rw [resolve, if_neg hname] at hok
    split at hok
    · obtain ⟨j, hj, hok⟩ := map_eq_ok.mp hok
      cases hok
      exact .inr ⟨rfl, hj⟩
    · exact absurd hok fail_ne_ok

/-- A type that denotes a model is named after a declaration, or is a model of its own. -/
theorem resolve_model (hg : Linking d g) (hok : g.resolve t = .ok (i, k))
    (hmodel : (k.node i).kind = .model) :
    (t.name ≠ [] ∧ k = g ∧ i ∈ g.declarations ∧ g.nameOf i = t.name) ∨
    (t.name = [] ∧ builtInNodes.length ≤ i ∧ i ∉ k.declarations) := by
  by_cases hname : t.name = []
  · refine .inr ⟨hname, ?_⟩
    rcases resolve_unnamed hname hok with ⟨l, m, hgl, hpush⟩ | ⟨rfl, hmember⟩
    · obtain rfl : (l.push m).1 = i := congrArg Prod.fst hpush
      obtain rfl : (l.push m).2 = k := congrArg Prod.snd hpush
      refine ⟨Nat.le_trans hg.fit.size_le hgl.size_le, ?_⟩
      exact fun hmem => Nat.lt_irrefl _ (hgl.kept hg.fit.kept _ hmem)
    · rw [(kind_resolveMember hg.fit hmember).2] at hmodel
      cases hmodel
  · refine .inl ⟨hname, ?_⟩
    obtain ⟨name, array, record, literal, union, tuple, object, member⟩ := t
    rw [resolve.eq_def] at hok
    simp only [if_pos (show (!name.isEmpty) = true by simpa using hname)] at hok
    obtain ⟨j, hj, hok⟩ := map_eq_ok.mp hok
    cases hok
    unfold resolveName at hj
    split at hj
    · rename_i hlookup
      cases hj
      have hkind := hg.kind_lookup? name
      rw [hlookup, Option.map_some, hmodel] at hkind
      obtain ⟨hmem, hnameOf, hlookup'⟩ :=
        hg.lookup?_of_mem (Document.mem_names_of_kind?_model hkind.symm)
      cases hlookup'.symm.trans hlookup
      exact ⟨rfl, hmem, hnameOf⟩
    · simp at hj

theorem declared_of_lookup_copiesOf (hb : Linking d b)
    (h : (b.copiesOf d.models).lookup i = some t) :
    i ∈ b.declarations ∧ (b.node i).kind = .model := copyable_copiesOf hb _ (mem_of_lookup h)

end Sources

/-! ### Stages -/

/-- A model that is expanded: what it copies was resolved on the way, has been settled, and stands
in front of its own body. -/
structure Copied (d : Document) (b : Graph) (s : Graph × Copies) (i : NodeId) (t : TypeRef)
    (k : Graph) (r : NodeId × Graph) : Prop where
  onward : Onward d b k
  resolved : k.resolve t = .ok r
  model : (r.2.node r.1).kind = .model
  fills : r.2.Fills s.1
  settled : s.2.lookup r.1 = none
  node : s.1.node i = (b.node i).copying (s.1.node r.1)

/-- A stage in the expansion of the copies of `b`. -/
structure Stage (d : Document) (b : Graph) (s : Graph × Copies) : Prop where
  onward : Onward d b s.1
  pending : ∀ i t, s.2.lookup i = some t → (b.copiesOf d.models).lookup i = some t
  same : ∀ i < b.nodes.size, (b.copiesOf d.models).lookup i = none ∨ s.2.lookup i ≠ none →
    s.1.node i = b.node i
  copied : ∀ i t, (b.copiesOf d.models).lookup i = some t → s.2.lookup i = none →
    ∃ k r, Copied d b s i t k r
  ends : ∀ i ∈ b.declarations, s.2.lookup i = none → Ends d.copied? (b.nameOf i)

section Stages

theorem lookup_filter_eq_none {j : NodeId} :
    (copies.filter fun c => c.1 != n).lookup j = none ↔ j = n ∨ copies.lookup j = none := by
  rw [lookup_filter_ne]
  split <;> simp_all

theorem copyShape_fills (hn : n ∈ l.declarations) (src : NodeId) : l.Fills (l.copyShape n src) :=
  (GrowsAt.modify hn (f := fun m => m.copying (l.node src)) (fun _ => rfl) fun _ => rfl).fills

theorem node_copyShape_of_ne {j : NodeId} (hj : j ≠ n) (src : NodeId) :
    (l.copyShape n src).node j = l.node j := node_modify_of_ne hj.symm _

theorem Copied.lt {s : Graph × Copies} {r : NodeId × Graph} (h : Copied d b s i t k r) :
    r.1 < s.1.nodes.size :=
  Nat.lt_of_lt_of_le (resolve_made h.onward.linking.fit h.resolved).lt h.fills.size_le

theorem Copied.later {s s' : Graph × Copies} {r : NodeId × Graph} (h : Copied d b s i t k r)
    (hfills : s.1.Fills s'.1) (hsettled : s'.2.lookup r.1 = none)
    (hi : s'.1.node i = s.1.node i) (hr : s'.1.node r.1 = s.1.node r.1) :
    Copied d b s' i t k r where
  onward := h.onward
  resolved := h.resolved
  model := h.model
  fills := h.fills.trans hfills
  settled := hsettled
  node := by rw [hi, hr, h.node]

/-- What a model copies is the next declaration on its chain, or a model of its own. -/
theorem copied?_of_resolve (hb : Linking d b) (hi : (b.copiesOf d.models).lookup i = some t)
    (hk : Onward d b k) {r : NodeId × Graph} (hr : k.resolve t = .ok r)
    (hmodel : (r.2.node r.1).kind = .model) :
    r.1 ∈ b.declarations ∧ d.copied? (b.nameOf i) = some (b.nameOf r.1) ∨
    r.1 ∉ b.declarations ∧ d.copied? (b.nameOf i) = none := by
  have hsource := lookup_copiesOf_models hb (declared_of_lookup_copiesOf hb hi).1
  rw [hi, eq_comm] at hsource
  rcases resolve_model hk.linking hr hmodel with ⟨hname, _, hsrc, hnamed⟩ | ⟨hname, _, hsrc⟩
  · rw [hk.fills.declarations] at hsrc
    rw [nameOf, hk.fills.name _ (hb.fit.kept _ hsrc), ← nameOf] at hnamed
    exact .inl ⟨hsrc, Document.copied?_eq_some.mpr ⟨t, hsource, hnamed ▸ hname, hnamed.symm⟩⟩
  · rw [(resolve_adds hr).declarations, hk.fills.declarations] at hsrc
    exact .inr ⟨hsrc, by rw [Document.copied?, hsource, Option.bind_some, if_pos hname]⟩

/-- A chain of copies ends if the chain of what is copied does. -/
theorem ends_of_resolve (hb : Linking d b) (hi : (b.copiesOf d.models).lookup i = some t)
    (hk : Onward d b k) {r : NodeId × Graph} (hr : k.resolve t = .ok r)
    (hmodel : (r.2.node r.1).kind = .model)
    (hends : r.1 ∈ b.declarations → Ends d.copied? (b.nameOf r.1)) :
    Ends d.copied? (b.nameOf i) := by
  rcases copied?_of_resolve hb hi hk hr hmodel with ⟨hsrc, hnext⟩ | ⟨_, hnone⟩
  · exact .step hnext (hends hsrc)
  · exact .last hnone

theorem Stage.start (hb : Linking d b) : Stage d b (b, b.copiesOf d.models) where
  onward := .refl hb
  pending := fun _ _ h => h
  same := fun _ _ _ => rfl
  copied := by
    intro i t hi hnone
    rw [hi] at hnone
    cases hnone
  ends := by
    intro i hi hnone
    rw [lookup_copiesOf_models hb hi] at hnone
    exact .last (by rw [Document.copied?, hnone]; rfl)

theorem Stage.adds (hb : Linking d b) (hs : Stage d b (g, copies)) (hk : Linking d k)
    (hgk : g.Adds k) : Stage d b (k, copies) := by
  have hnode : ∀ i < b.nodes.size, k.node i = g.node i :=
    fun i hi => hgk.node (Nat.lt_of_lt_of_le hi hs.onward.fills.size_le)
  refine ⟨⟨hk, hs.onward.fills.trans hgk.fills, ?_⟩, hs.pending, ?_, ?_, hs.ends⟩
  · intro i hi
    rw [hnode i hi, hs.onward.members i hi]
  · intro i hi h
    rw [hnode i hi]
    exact hs.same i hi h
  · intro i t hi hnone
    obtain ⟨u, r, hcopied⟩ := hs.copied i t hi hnone
    have hlt := hb.fit.kept i (declared_of_lookup_copiesOf hb hi).1
    exact ⟨u, r, hcopied.later hgk.fills hcopied.settled (hnode i hlt) (hgk.node hcopied.lt)⟩

/-- A model that copies what is expanded is expanded. -/
theorem Stage.copy (hb : Linking d b) (hs : Stage d b (l, copies))
    (hn : copies.lookup n = some t) (hk : Onward d b k) {r : NodeId × Graph}
    (hr : k.resolve t = .ok r) (hmodel : (r.2.node r.1).kind = .model) (hfills : r.2.Fills l)
    (hsettled : copies.lookup r.1 = none) :
    Stage d b (l.copyShape n r.1, copies.filter fun c => c.1 != n) := by
  have hmade := resolve_made hk.linking.fit hr
  have hpending := hs.pending n t hn
  obtain ⟨hdecl, hkind⟩ := declared_of_lookup_copiesOf hb hpending
  have hlt := hb.fit.kept n hdecl
  have hdecl' : n ∈ l.declarations := by
    rw [hs.onward.fills.declarations]
    exact hdecl
  have hcopy := copyShape_fills hdecl' r.1
  -- what is settled is not the model that is expanded now
  have hne : ∀ j, copies.lookup j = none → j ≠ n := by
    rintro j hnone rfl
    rw [hn] at hnone
    cases hnone
  have hnode : (l.copyShape n r.1).node n = (b.node n).copying (l.node r.1) := by
    rw [copyShape_eq, node_modify_self (hs.onward.linking.fit.kept n hdecl'),
      hs.same n hlt (.inr (by simp [hn]))]
  refine ⟨⟨?_, hs.onward.fills.trans hcopy, ?_⟩, ?_, ?_, ?_, ?_⟩
  · refine copyShape_linking hs.onward.linking hdecl' ?_
      (Nat.lt_of_lt_of_le hmade.lt hfills.size_le) ?_
    · rw [hs.onward.fills.kind n hlt, hkind]
    · rw [hfills.kind r.1 hmade.lt, hmodel]
  · intro i hi
    rw [← hs.onward.members i hi]
    exact members_modify (f := fun m => m.copying (l.node r.1)) (fun _ => rfl) n i
  · intro i t' hi
    rw [lookup_filter_ne] at hi
    split at hi
    · cases hi
    · exact hs.pending i t' hi
  · intro i hi h
    rw [Ne, lookup_filter_eq_none, not_or] at h
    have hin : i ≠ n := by
      rintro rfl
      rcases h with h | h
      · rw [hpending] at h
        cases h
      · exact h.1 rfl
    rw [node_copyShape_of_ne hin]
    exact hs.same i hi (h.imp_right And.right)
  · intro i t' hi hnone
    rcases lookup_filter_eq_none.mp hnone with rfl | hnone
    · obtain rfl := Option.some.inj (hpending.symm.trans hi)
      refine ⟨k, r, hk, hr, hmodel, hfills.trans hcopy,
        lookup_filter_eq_none.mpr (.inr hsettled), ?_⟩
      rw [hnode, node_copyShape_of_ne (hne _ hsettled)]
    · obtain ⟨v, r', hcopied⟩ := hs.copied i t' hi hnone
      exact ⟨v, r', hcopied.later hcopy (lookup_filter_eq_none.mpr (.inr hcopied.settled))
        (node_copyShape_of_ne (hne i hnone) _) (node_copyShape_of_ne (hne _ hcopied.settled) _)⟩
  · intro i hi hnone
    rcases lookup_filter_eq_none.mp hnone with rfl | hnone
    · exact ends_of_resolve hb hpending hk hr hmodel fun hsrc => hs.ends _ hsrc hsettled
    · exact hs.ends i hi hnone

end Stages

/-! ### Expansion -/

/-- What the expansion of a model does to a stage. -/
structure Expands (d : Document) (b : Graph) (s : Graph × Copies) (visiting : List NodeId)
    (n : NodeId) (r : Graph × Copies) : Prop where
  stage : Stage d b r
  fills : s.1.Fills r.1
  settled : ∀ i, s.2.lookup i = none → r.2.lookup i = none
  waiting : ∀ v ∈ visiting, r.2.lookup v = s.2.lookup v
  expanded : r.2.lookup n = none

theorem expand_expands (hb : Linking d b) {fuel : Nat} {visiting : List NodeId}
    {r : Graph × Copies} (hs : Stage d b (g, copies))
    (hok : expand fuel visiting g copies n = .ok r) : Expands d b (g, copies) visiting n r := by
  induction fuel generalizing visiting g copies n r with
  | zero => simp [expand] at hok
  | succ fuel ih =>
    rw [expand] at hok
    split at hok
    · rename_i hnone
      cases hok
      exact ⟨hs, .refl _ g, fun _ h => h, fun _ _ => rfl, hnone⟩
    · rename_i source hsource
      split at hok
      · simp at hok
      · rename_i hvisiting
        obtain ⟨⟨src, k⟩, hsrc, hok⟩ := bind_eq_ok.mp hok
        have hsrc := within_eq_ok.mp hsrc
        dsimp only at hok
        split at hok
        · simp at hok
        · rename_i hmodel
          obtain ⟨⟨l, rest⟩, hrest, hok⟩ := bind_eq_ok.mp hok
          cases hok
          have hadds := resolve_adds hsrc
          have hk := hs.onward.linking.made (resolve_made hs.onward.linking.fit hsrc)
          have hrec := ih (hs.adds hb hk hadds) hrest
          -- the model is visited meanwhile, so it still waits for its copy
          have hwaits : rest.lookup n = some source :=
            (hrec.waiting n List.mem_cons_self).trans hsource
          have hdecl : n ∈ l.declarations := by
            rw [hrec.stage.onward.fills.declarations]
            exact (declared_of_lookup_copiesOf hb (hrec.stage.pending n source hwaits)).1
          refine ⟨hrec.stage.copy hb hwaits hs.onward hsrc (by simpa using hmodel) hrec.fills
            hrec.expanded, ?_, ?_, ?_, ?_⟩
          · exact (hadds.fills.trans hrec.fills).trans (copyShape_fills hdecl src)
          · exact fun i hi => lookup_filter_eq_none.mpr (.inr (hrec.settled i hi))
          · intro v hv
            have hvn : v ≠ n := by
              rintro rfl
              exact hvisiting (by simpa using hv)
            rw [lookup_filter_ne, if_neg hvn]
            exact hrec.waiting v (List.mem_cons_of_mem _ hv)
          · exact lookup_filter_eq_none.mpr (.inl rfl)

/-- All copies of `b` are expanded. -/
structure Expanded (d : Document) (b g : Graph) : Prop where
  onward : Onward d b g
  same : ∀ i < b.nodes.size, (b.copiesOf d.models).lookup i = none → g.node i = b.node i
  copied : ∀ i t, (b.copiesOf d.models).lookup i = some t → ∃ k r, Onward d b k ∧
    k.resolve t = .ok r ∧ (r.2.node r.1).kind = .model ∧ r.2.Fills g ∧
    g.node i = (b.node i).copying (g.node r.1)
  ends : ∀ i ∈ b.declarations, Ends d.copied? (b.nameOf i)

theorem Stage.expanded (hb : Linking d b) {s : Graph × Copies} (hs : Stage d b s)
    (hnone : ∀ i ∈ b.declarations, s.2.lookup i = none) : Expanded d b s.1 where
  onward := hs.onward
  same := fun i hi h => hs.same i hi (.inl h)
  copied := by
    intro i t hi
    obtain ⟨k, r, hcopied⟩ := hs.copied i t hi (hnone i (declared_of_lookup_copiesOf hb hi).1)
    exact ⟨k, r, hcopied.onward, hcopied.resolved, hcopied.model, hcopied.fills, hcopied.node⟩
  ends := fun i hi => hs.ends i hi (hnone i hi)

theorem foldlM_expands (hb : Linking d b) {ns : List NodeId} {s r : Graph × Copies}
    (hs : Stage d b s)
    (hok : ns.foldlM (fun (g, copies) n => Result.within ("model " ++ (g.nameOf n).mentioned)
      (expand (copies.length + 1) [] g copies n)) s = .ok r) :
    Stage d b r ∧ ∀ i, i ∈ ns ∨ s.2.lookup i = none → r.2.lookup i = none := by
  induction ns generalizing s with
  | nil =>
    cases hok
    exact ⟨hs, fun i hi => hi.resolve_left (List.not_mem_nil)⟩
  | cons n ns ih =>
    rw [List.foldlM_cons] at hok
    obtain ⟨u, hu, hok⟩ := bind_eq_ok.mp hok
    have hstep := expand_expands hb hs (within_eq_ok.mp hu)
    obtain ⟨hr, hdone⟩ := ih hstep.stage hok
    refine ⟨hr, ?_⟩
    rintro i (hi | hi)
    · rcases List.mem_cons.mp hi with rfl | hi
      · exact hdone _ (.inr hstep.expanded)
      · exact hdone i (.inl hi)
    · exact hdone i (.inr (hstep.settled i hi))

theorem expandCopies_expanded (hb : Linking d b)
    (hok : b.expandCopies (b.copiesOf d.models) = .ok g) : Expanded d b g := by
  obtain ⟨⟨k, rest⟩, hk, hok⟩ := bind_eq_ok.mp hok
  cases hok
  obtain ⟨hs, hdone⟩ := foldlM_expands hb (.start hb) hk
  exact hs.expanded hb fun i hi => hdone i (.inl hi)

/-! ### Copies that can be expanded -/

/-- Whatever is copied is a model. -/
def Copiable (d : Document) (b : Graph) : Prop :=
  ∀ i t, (b.copiesOf d.models).lookup i = some t → ∀ k, Onward d b k →
    ∃ r, k.resolve t = .ok r ∧ (r.2.node r.1).kind = .model

/-- The models in `visiting` wait for their copies, and the fuel lasts for the others. -/
structure Waiting (copies : Copies) (visiting : List NodeId) (fuel : Nat) : Prop where
  nodup : visiting.Nodup
  keys : visiting ⊆ copies.map (·.1)
  fuel : copies.length < fuel + visiting.length

theorem Waiting.fuel_pos {visiting : List NodeId} {fuel : Nat} (h : Waiting copies visiting fuel) :
    0 < fuel := by
  have hle := (h.nodup.subperm h.keys).length_le
  have hfuel := h.fuel
  rw [List.length_map] at hle
  omega

theorem Waiting.cons {visiting : List NodeId} {fuel : Nat}
    (h : Waiting copies visiting (fuel + 1)) (hn : copies.lookup n = some t)
    (hnot : n ∉ visiting) : Waiting copies (n :: visiting) fuel where
  nodup := List.nodup_cons.mpr ⟨hnot, h.nodup⟩
  keys := List.cons_subset.mpr ⟨List.mem_map_of_mem (mem_of_lookup hn), h.keys⟩
  fuel := by
    have hfuel := h.fuel
    rw [List.length_cons]
    omega

theorem expand_succ {fuel : Nat} {visiting : List NodeId} {src : NodeId} {r : Graph × Copies}
    (hn : copies.lookup n = some t) (hnot : n ∉ visiting) (hsrc : g.resolve t = .ok (src, k))
    (hmodel : (k.node src).kind = .model)
    (hr : expand fuel (n :: visiting) k copies src = .ok r) :
    expand (fuel + 1) visiting g copies n =
      .ok (r.1.copyShape n src, r.2.filter fun c => c.1 != n) := by
  rw [expand, hn]
  dsimp only
  rw [if_neg (by simpa using hnot), hsrc]
  simp [Result.within, bind, Except.bind, hmodel, hr]

theorem expand_ok (hb : Linking d b) (hcopiable : Copiable d b) {fuel : Nat}
    {visiting : List NodeId} (hs : Stage d b (g, copies)) (hn : n ∈ b.declarations)
    (hends : Ends d.copied? (b.nameOf n))
    (hpassed : ∀ v ∈ visiting,
      Relation.TransGen (fun x y => d.copied? x = some y) (b.nameOf v) (b.nameOf n))
    (hwaiting : Waiting copies visiting fuel) : ∃ r, expand fuel visiting g copies n = .ok r := by
  induction fuel generalizing visiting g copies n with
  | zero => exact absurd hwaiting.fuel_pos (Nat.lt_irrefl 0)
  | succ fuel ih =>
    cases hsource : copies.lookup n with
    | none => exact ⟨(g, copies), by rw [expand, hsource]⟩
    | some source =>
      have hnot : n ∉ visiting := fun hmem => hends.not_loop (hpassed n hmem)
      have hpending := hs.pending n source hsource
      obtain ⟨⟨src, k⟩, hsrc, hmodel⟩ := hcopiable n source hpending g hs.onward
      have hk := hs.onward.linking.made (resolve_made hs.onward.linking.fit hsrc)
      have hnext := hs.adds hb hk (resolve_adds hsrc)
      have hwaits := hwaiting.cons hsource hnot
      obtain ⟨r, hr⟩ : ∃ r, expand fuel (n :: visiting) k copies src = .ok r := by
        rcases copied?_of_resolve hb hpending hs.onward hsrc hmodel with ⟨hmem, hcopied⟩ | ⟨hmem, _⟩
        · -- a declared model comes next on the chain
          refine ih hnext hmem (hends.later hcopied) ?_ hwaits
          intro v hv
          rcases List.mem_cons.mp hv with rfl | hv
          · exact .single hcopied
          · exact (hpassed v hv).tail hcopied
        · -- any other model has nothing to copy
          have hnone : copies.lookup src = none := by
            by_contra hsome
            obtain ⟨t, ht⟩ := Option.ne_none_iff_exists'.mp hsome
            exact hmem (declared_of_lookup_copiesOf hb (hs.pending src t ht)).1
          cases fuel with
          | zero => exact absurd hwaits.fuel_pos (Nat.lt_irrefl 0)
          | succ fuel => exact ⟨(k, copies), by rw [expand, hnone]⟩
      exact ⟨_, expand_succ hsource hnot hsrc hmodel hr⟩

theorem expandCopies_ok (hb : Linking d b) (hcopiable : Copiable d b)
    (hends : ∀ i ∈ b.declarations, Ends d.copied? (b.nameOf i)) :
    ∃ g, b.expandCopies (b.copiesOf d.models) = .ok g := by
  have hrun : ∀ ns ⊆ b.declarations, ∀ s : Graph × Copies, Stage d b s →
      ∃ r, ns.foldlM (fun (g, copies) n => Result.within ("model " ++ (g.nameOf n).mentioned)
        (expand (copies.length + 1) [] g copies n)) s = .ok r := by
    intro ns
    induction ns with
    | nil => exact fun _ s _ => ⟨s, rfl⟩
    | cons n ns ih =>
      intro hns s hs
      obtain ⟨hn, hns⟩ := List.cons_subset.mp hns
      have hwaiting : Waiting s.2 [] (s.2.length + 1) :=
        ⟨.nil, List.nil_subset _, Nat.lt_succ_self _⟩
      obtain ⟨u, hu⟩ := expand_ok hb hcopiable hs hn (hends n hn) (by simp) hwaiting
      obtain ⟨r, hr⟩ := ih hns u (expand_expands hb hs hu).stage
      refine ⟨r, ?_⟩
      rw [List.foldlM_cons]
      exact bind_eq_ok.mpr ⟨u, within_eq_ok.mpr hu, hr⟩
  obtain ⟨r, hr⟩ := hrun _ (List.Subset.refl _) _ (.start hb)
  exact ⟨r.1, by rw [expandCopies, hr]; rfl⟩

end Graph

end SchemaLoom

import SchemaLoom.Proofs.Imported
import SchemaLoom.Proofs.Linked

/-!
# Linking what is known

Where every name is known, a type resolves unless a literal in it is of a kind that
cannot stand as a type, and a declaration links unless it also extends something of
another kind. Copies are not expanded here.
-/

namespace SchemaLoom

set_option autoImplicit false

/-- Every literal can stand as a literal type. -/
def TypeRef.Plain (t : TypeRef) : Prop := t.Over (fun _ => True) fun v => v.isPrimitive = true

namespace Document

/-- A reference to a model: to a declared one, or to an array, a map or an object. -/
def IsModel (d : Document) (t : TypeRef) : Prop :=
  if t.name = [] then t.array.isSome ∨ t.record.isSome ∨ t.object.isSome
  else d.kind? t.name = some .model

/-- A reference that can be extended or copied. -/
structure ModelRef (d : Document) (t : TypeRef) : Prop where
  plain : t.Plain
  model : d.IsModel t

end Document

namespace Result
variable {α β : Type} {x : Result α} {f : α → Result β} {P Q : Prop}

/-- A step succeeds exactly if `P` holds, and its failure is no base cycle. -/
def HingesOn (x : Result α) (P : Prop) : Prop := Tells x P fun e => ¬ P ∧ e.cause ≠ .baseCycle

namespace HingesOn

theorem of_ok {a : α} (h : x = .ok a) (hP : P) : HingesOn x P := Tells.of_ok h hP

theorem fail {c : Cause} (hP : ¬ P) (hc : c ≠ .baseCycle) : HingesOn (fail c : Result α) P :=
  .of_fail ⟨hP, hc⟩

theorem congr (h : HingesOn x P) (hPQ : P ↔ Q) : HingesOn x Q :=
  h.mono hPQ.mp fun _ he => he.imp_left (mt hPQ.mpr)

theorem bind (hx : HingesOn x P) (hf : ∀ a, x = .ok a → HingesOn (f a) Q) :
    HingesOn (x >>= f) (P ∧ Q) := by
  refine (Tells.bind hx hf).mono id ?_
  rintro e (⟨hP, hcause⟩ | ⟨hQ, hcause⟩)
  · exact ⟨fun h => hP h.1, hcause⟩
  · exact ⟨fun h => hQ h.2, hcause⟩

theorem bind_ok (hx : HingesOn x P) (hf : ∀ a, ∃ b, f a = .ok b) : HingesOn (x >>= f) P :=
  Tells.bind_ok hx hf

theorem map {f : α → β} (hx : HingesOn x P) : HingesOn (Except.map f x) P := Tells.map hx

theorem within {position : Text} (hx : HingesOn x P) : HingesOn (Result.within position x) P :=
  Tells.within hx fun _ _ he => he

theorem foldlM {σ : Type} {I : σ → Prop} {f : σ → α → Result σ} {xs : List α} {P : α → Prop}
    (hkeep : ∀ s x t, x ∈ xs → I s → f s x = .ok t → I t)
    (hf : ∀ s x, x ∈ xs → I s → HingesOn (f s x) (P x)) {s : σ} (hs : I s) :
    HingesOn (xs.foldlM f s) (∀ x ∈ xs, P x) := by
  refine (Tells.foldlM hkeep hf hs).mono id ?_
  rintro e ⟨before, x, after, rfl, _, hP, hcause⟩
  exact ⟨fun h => hP (h x (by simp)), hcause⟩

/-- The outcomes of a step whose success hinges on `P`. -/
theorem ok_or_error (hx : HingesOn x P) :
    (P ∧ ∃ a, x = .ok a) ∨ (¬ P ∧ ∃ e, x = .error e ∧ e.cause ≠ .baseCycle) := by
  cases h : x with
  | ok a => exact .inl ⟨hx.ok a h, a, rfl⟩
  | error e => exact .inr ⟨(hx.error e h).1, e, rfl, (hx.error e h).2⟩

theorem exists_ok (hx : HingesOn x P) (hP : P) : ∃ a, x = .ok a := by
  rcases hx.ok_or_error with ⟨_, ha⟩ | ⟨hnot, _⟩
  · exact ha
  · exact absurd hP hnot

end HingesOn

/-- A step succeeds or finds a base cycle. -/
def Passes (x : Result α) : Prop := (∃ a, x = .ok a) ∨ x.cause? = some .baseCycle

theorem HingesOn.passes_bind_iff (hx : HingesOn x P) :
    Passes (x >>= f) ↔ P ∧ ∀ a, x = .ok a → Passes (f a) := by
  rcases hx.ok_or_error with ⟨hP, a, rfl⟩ | ⟨hP, e, rfl, hcause⟩
  · constructor
    · rintro hpasses
      refine ⟨hP, ?_⟩
      rintro b ⟨⟩
      exact hpasses
    · exact fun h => h.2 a rfl
  · constructor
    · rintro (⟨b, hb⟩ | hcycle)
      · cases hb
      · exact absurd (Option.some.inj hcycle) hcause
    · exact fun h => absurd h.1 hP

/-- A step that is followed by one that passes. -/
theorem passes_bind (hf : ∀ a, Passes (f a)) : Passes (x >>= f) ↔ Passes x := by
  cases x with
  | ok a => exact ⟨fun _ => .inl ⟨a, rfl⟩, fun _ => hf a⟩
  | error e =>
    constructor
    · rintro (⟨b, hb⟩ | hcycle)
      · cases hb
      · exact .inr hcycle
    · rintro (⟨b, hb⟩ | hcycle)
      · cases hb
      · exact .inr hcycle

end Result

/-! ### Types -/

namespace Document
variable {d : Document}

theorem isSome_kind? {name : Text} (h : InUse d.names name) : (d.kind? name).isSome = true := by
  unfold kind?
  split_ifs with hscalar hmodel henum hunion
  · rfl
  · rfl
  · rfl
  · rfl
  · rcases h with h | h
    · simp only [names, List.mem_append] at h
      tauto
    · obtain ⟨i, hi⟩ := Option.isSome_iff_exists.mp h
      obtain ⟨hlt, hfind⟩ := Graph.builtin?_eq_some hi
      rw [← hfind, List.getElem?_eq_getElem hlt]
      rfl

theorem ne_nil_of_inUse (hd : ∀ name ∈ d.names, Graph.Declarable name) {name : Text}
    (h : InUse d.names name) : name ≠ [] := by
  rcases h with h | h
  · exact (hd name h).ne_nil
  · rintro rfl
    exact absurd h (by decide)

end Document

namespace Graph
open Result

variable {d : Document} {g : Graph}

theorem Linking.kind_lookup? (hg : Linking d g) (name : Text) :
    (g.lookup? name).map (fun i => (g.node i).kind) = d.kind? name := by
  have hkept := kept_ofNames d
  rw [← kind_lookup?_ofNames, hg.grows.lookup? hkept]
  cases hi : (ofNames d).lookup? name with
  | none => rfl
  | some i =>
    have hlt : i < (ofNames d).nodes.size := (fit_ofNames hg.declarable).lookup?_lt hi
    simp only [Option.map_some, hg.grows.kind i hlt]

theorem resolveName_eq_ok (hg : Linking d g) {name : Text} (h : InUse d.names name) :
    ∃ i, g.resolveName name = .ok i ∧ d.kind? name = some (g.node i).kind := by
  have hkind := hg.kind_lookup? name
  have hsome := Document.isSome_kind? h
  cases hi : g.lookup? name with
  | none =>
    rw [hi] at hkind
    rw [← hkind] at hsome
    cases hsome
  | some i =>
    rw [hi] at hkind
    exact ⟨i, by rw [resolveName, hi], hkind.symm⟩

theorem literalNode_hinges (v : Value) : HingesOn (literalNode v) (v.isPrimitive = true) := by
  cases v with
  | string s => exact .of_ok rfl rfl
  | numeric n => exact .of_ok rfl rfl
  | boolean b => exact .of_ok rfl rfl
  | _ => exact .fail (by simp [Value.isPrimitive]) (by simp)

theorem resolveAll_hinges {ts : List TypeRef}
    (h : ∀ t ∈ ts, ∀ g : Graph, Linking d g → HingesOn (g.resolve t) t.Plain)
    (hg : Linking d g) : HingesOn (g.resolveAll ts) (∀ t ∈ ts, t.Plain) := by
  induction ts generalizing g with
  | nil => exact .of_ok rfl nofun
  | cons t ts ih =>
    have hall : (t.Plain ∧ ∀ u ∈ ts, u.Plain) ↔ ∀ u ∈ t :: ts, u.Plain := by simp
    rw [resolveAll]
    refine (HingesOn.bind (h t List.mem_cons_self g hg) ?_).congr hall
    rintro ⟨i, k⟩ hi
    exact .bind_ok (ih (fun u hu => h u (List.mem_cons_of_mem _ hu))
      (hg.made (resolve_made hg.fit hi))) fun _ => ⟨_, rfl⟩

theorem linkProperty_hinges {p : Property} (h : HingesOn (g.resolve p.type) p.type.Plain) :
    HingesOn (g.linkProperty p) p.type.Plain := by
  cases p
  rw [linkProperty]
  exact .bind_ok (.within h) fun _ => ⟨_, rfl⟩

theorem linkProperties_hinges {ps : List Property}
    (h : ∀ p ∈ ps, ∀ g : Graph, Linking d g → HingesOn (g.resolve p.type) p.type.Plain)
    (hg : Linking d g) : HingesOn (g.linkProperties ps) (∀ p ∈ ps, p.type.Plain) := by
  induction ps generalizing g with
  | nil => exact .of_ok rfl nofun
  | cons p ps ih =>
    have hall : (p.type.Plain ∧ ∀ q ∈ ps, q.type.Plain) ↔ ∀ q ∈ p :: ps, q.type.Plain := by simp
    rw [linkProperties]
    refine (HingesOn.bind (linkProperty_hinges (h p List.mem_cons_self g hg)) ?_).congr hall
    rintro ⟨i, k⟩ hi
    exact .bind_ok (ih (fun q hq => h q (List.mem_cons_of_mem _ hq))
      (hg.made (resolve_made_all.2.2.1 g p hg.fit _ hi))) fun _ => ⟨_, rfl⟩

/-- A type with known names resolves unless a literal in it is of another kind. -/
theorem resolve_hinges {t : TypeRef} (ht : t.Known d.names) (hg : Linking d g) :
    HingesOn (g.resolve t) t.Plain := by
  induction ht generalizing g with
  | @named name hname =>
    obtain ⟨i, hi, _⟩ := resolveName_eq_ok hg hname
    have hne := Document.ne_nil_of_inUse hg.declarable hname
    refine .of_ok (a := (i, g)) ?_ (.named trivial)
    rw [resolve, if_pos (by simpa using hne), hi]
    rfl
  | @array t _ ih =>
    have hiff : t.Plain ↔ TypeRef.Plain { array := some t } :=
      ⟨.array, fun h => by cases h; assumption⟩
    rw [resolve]
    exact ((ih hg).bind_ok fun _ => ⟨_, rfl⟩).congr hiff
  | @record t _ ih =>
    have hiff : t.Plain ↔ TypeRef.Plain { record := some t } :=
      ⟨.record, fun h => by cases h; assumption⟩
    rw [resolve]
    exact ((ih hg).bind_ok fun _ => ⟨_, rfl⟩).congr hiff
  | @literal v _ =>
    have hiff : v.isPrimitive = true ↔ TypeRef.Plain { literal := some v } :=
      ⟨fun h => .literal h, fun h => by cases h; assumption⟩
    rw [resolve]
    exact (literalNode_hinges v).map.congr hiff
  | @union ts _ ih =>
    have hiff : (∀ t ∈ ts, t.Plain) ↔ TypeRef.Plain { union := some ts } :=
      ⟨.union, fun h => by cases h; assumption⟩
    rw [resolve]
    exact ((resolveAll_hinges (fun t ht _ hg => ih t ht hg) hg).bind_ok fun _ => ⟨_, rfl⟩).congr hiff
  | @tuple ts _ ih =>
    have hiff : (∀ t ∈ ts, t.Plain) ↔ TypeRef.Plain { tuple := some ts } :=
      ⟨.tuple, fun h => by cases h; assumption⟩
    rw [resolve]
    exact ((resolveAll_hinges (fun t ht _ hg => ih t ht hg) hg).bind_ok fun _ => ⟨_, rfl⟩).congr hiff
  | @object ps _ ih =>
    have hiff : (∀ p ∈ ps, p.type.Plain) ↔ TypeRef.Plain { object := some ps } :=
      ⟨.object, fun h => by cases h; assumption⟩
    rw [resolve]
    exact ((linkProperties_hinges (fun p hp _ hg => ih p hp hg) hg).bind_ok fun _ =>
      ⟨_, rfl⟩).congr hiff

theorem node_of_push {l k : Graph} {n : Node} {i : NodeId} (h : l.push n = (i, k)) :
    k.node i = n := by
  obtain rfl : (l.push n).1 = i := congrArg Prod.fst h
  obtain rfl : (l.push n).2 = k := congrArg Prod.snd h
  rw [push_fst, node_push_self]

/-- A name stands for what it denotes; any other type becomes a node that is not declared. -/
theorem resolve_cases {t : TypeRef} (ht : t.Known d.names) (hg : Linking d g) {i : NodeId}
    {k : Graph} (h : g.resolve t = .ok (i, k)) :
    (t.name ≠ [] ∧ k = g ∧ g.resolveName t.name = .ok i) ∨
    (t.name = [] ∧ (k.node i).isReferred = false ∧
      ((k.node i).kind = .model ↔ t.array.isSome ∨ t.record.isSome ∨ t.object.isSome)) := by
  cases ht with
  | @named name hname =>
    obtain ⟨j, hj, hkind⟩ := resolveName_eq_ok hg hname
    have hne := Document.ne_nil_of_inUse hg.declarable hname
    rw [resolve, if_pos (by simpa using hne), hj] at h
    cases h
    exact .inl ⟨hne, rfl, hj⟩
  | array ht =>
    rw [resolve] at h
    obtain ⟨⟨elem, l⟩, _, h⟩ := bind_eq_ok.mp h
    rw [node_of_push (Except.ok.inj h)]
    exact .inr ⟨rfl, rfl, by simp [arrayNode]⟩
  | record ht =>
    rw [resolve] at h
    obtain ⟨⟨value, l⟩, _, h⟩ := bind_eq_ok.mp h
    rw [node_of_push (Except.ok.inj h)]
    exact .inr ⟨rfl, rfl, by simp [recordNode]⟩
  | literal hv =>
    rw [resolve] at h
    obtain ⟨n, hn, h⟩ := map_eq_ok.mp h
    rw [node_of_push h]
    refine .inr ⟨rfl, (anonymous_literal (g := g) hn).undeclared, ?_⟩
    obtain ⟨_, kind, hkind, rfl⟩ := literalNode_eq_ok hn
    rcases hkind with rfl | rfl | rfl <;> simp
  | union hts =>
    rw [resolve] at h
    obtain ⟨⟨types, l⟩, _, h⟩ := bind_eq_ok.mp h
    rw [node_of_push (Except.ok.inj h)]
    exact .inr ⟨rfl, rfl, by simp⟩
  | tuple hts =>
    rw [resolve] at h
    obtain ⟨⟨elements, l⟩, _, h⟩ := bind_eq_ok.mp h
    rw [node_of_push (Except.ok.inj h)]
    exact .inr ⟨rfl, rfl, by simp⟩
  | object hps =>
    rw [resolve] at h
    obtain ⟨⟨properties, l⟩, _, h⟩ := bind_eq_ok.mp h
    rw [node_of_push (Except.ok.inj h)]
    exact .inr ⟨rfl, rfl, by simp⟩

/-- What a type resolves to is a model exactly if it refers to one. -/
theorem kind_resolve {t : TypeRef} (ht : t.Known d.names) (hg : Linking d g) {i : NodeId}
    {k : Graph} (h : g.resolve t = .ok (i, k)) : (k.node i).kind = .model ↔ d.IsModel t := by
  rcases resolve_cases ht hg h with ⟨hne, rfl, hi⟩ | ⟨hname, _, hkind⟩
  · rw [Document.IsModel, if_neg hne, ← hg.kind_lookup?]
    unfold resolveName at hi
    split at hi
    · rename_i heq
      cases hi
      rw [heq, Option.map_some, Option.some.injEq]
    · simp at hi
  · rw [hkind, Document.IsModel, if_pos hname]

/-! ### Declarations -/

theorem scalarBase_hinges (hg : Linking d g) {name : Text} (hname : InUse d.names name) :
    HingesOn (g.scalarBase name) (d.kind? name = some .scalar) := by
  have hne := Document.ne_nil_of_inUse hg.declarable hname
  obtain ⟨i, hi, hkind⟩ := resolveName_eq_ok hg hname
  rw [scalarBase, if_neg (by simpa using hne), hi, hkind, Option.some.injEq]
  simp only [bind, Except.bind]
  split
  · rename_i hscalar
    exact .of_ok rfl (by simpa using hscalar)
  · rename_i hscalar
    exact .fail (by simpa using hscalar) (by simp)

theorem linkScalar_hinges (hg : Linking d g) {s : ScalarDecl} (hs : s.Known d.names) :
    HingesOn (g.linkScalar s) (d.kind? s.base = some .scalar) := by
  refine .within (.bind_ok (scalarBase_hinges hg hs.base) ?_)
  intro base
  rw [hs.encode]
  exact ⟨_, rfl⟩

theorem modelBase_hinges (hg : Linking d g) {base : Option TypeRef}
    (hbase : ∀ t, base = some t → t.Known d.names) :
    HingesOn (g.modelBase base) (∀ t, base = some t → d.ModelRef t) := by
  cases base with
  | none => exact .of_ok rfl nofun
  | some t =>
    have ht := hbase t rfl
    have hiff : (t.Plain ∧ d.IsModel t) ↔ ∀ u, some t = some u → d.ModelRef u := by
      constructor
      · rintro ⟨hplain, hmodel⟩ u ⟨⟩
        exact ⟨hplain, hmodel⟩
      · intro h
        exact ⟨(h t rfl).plain, (h t rfl).model⟩
    rw [modelBase]
    refine (HingesOn.bind (.within (resolve_hinges ht hg)) ?_).congr hiff
    rintro ⟨b, k⟩ hb
    have hkind := kind_resolve ht hg (within_eq_ok.mp hb)
    dsimp only
    split
    · rename_i hmodel
      exact .of_ok rfl (hkind.mp (by simpa using hmodel))
    · rename_i hmodel
      exact .fail (fun h => hmodel (by simpa using hkind.mpr h)) (by simp)

theorem linkModel_hinges (hg : Linking d g) {m : ModelDecl} (hm : m.Known d.names) :
    HingesOn (g.linkModel m)
      ((∀ t, m.base = some t → d.ModelRef t) ∧ ∀ p ∈ m.properties, p.type.Plain) := by
  refine .within (.bind (modelBase_hinges hg hm.base) ?_)
  rintro ⟨base, k⟩ hbase
  obtain ⟨hfit, hgrows, _⟩ := modelBase_made hg.fit hbase
  have hk : Linking d k := ⟨hfit, hg.grows.trans hgrows, hg.declarable, hg.unique⟩
  exact .bind_ok (linkProperties_hinges (fun p hp _ hg => resolve_hinges (hm.properties p hp) hg)
    hk) fun _ => ⟨_, rfl⟩

theorem linkVariants_hinges {vs : List VariantDecl} (hvs : ∀ v ∈ vs, v.type.Known d.names)
    (hg : Linking d g) {i : Nat} :
    HingesOn (g.linkVariants false i vs) (∀ v ∈ vs, v.type.Plain) := by
  induction vs generalizing g i with
  | nil => exact .of_ok rfl nofun
  | cons v vs ih =>
    have hall : (v.type.Plain ∧ ∀ u ∈ vs, u.type.Plain) ↔ ∀ u ∈ v :: vs, u.type.Plain := by simp
    have hv := hvs v List.mem_cons_self
    rw [linkVariants]
    refine (HingesOn.bind (.within (resolve_hinges hv hg)) ?_).congr hall
    rintro ⟨t, k⟩ ht
    have htype := resolve_made hg.fit (within_eq_ok.mp ht)
    have hn := variant_made htype.fit htype.lt htype.kind v.name
    simp only [Bool.false_and, Bool.false_eq_true, if_false]
    exact .bind_ok (ih (fun u hu => hvs u (List.mem_cons_of_mem _ hu))
      ((hg.made htype).made hn)) fun _ => ⟨_, rfl⟩

theorem linkUnion_hinges (hg : Linking d g) {u : UnionDecl} (hu : u.Known d.names) :
    HingesOn (g.linkUnion u) (∀ v ∈ u.variants, v.type.Plain) := by
  have hvariants := linkVariants_hinges hu.variants hg (i := 0)
  have henvelope : HingesOn (checkEnvelope none) True := .of_ok rfl trivial
  unfold linkUnion
  rw [hu.discriminated]
  refine .within (.congr (.bind henvelope fun _ _ => ?_) (true_and _).to_iff)
  exact .bind_ok hvariants fun _ => ⟨_, rfl⟩

theorem linkBodies_hinges (hg : Linking d g) (hd : d.Imported d.names) :
    HingesOn (g.linkBodies d) ((∀ s ∈ d.scalars, d.kind? s.base = some .scalar) ∧
      (∀ m ∈ d.models, (∀ t, m.base = some t → d.ModelRef t) ∧ ∀ p ∈ m.properties, p.type.Plain) ∧
      ∀ u ∈ d.unions, ∀ v ∈ u.variants, v.type.Plain) := by
  have hscalar : ∀ g s h, s ∈ d.scalars → Linking d g → g.linkScalar s = .ok h → Linking d h :=
    fun _ _ _ hs hg hok => linkScalar_linking hg hs hok
  have hmodel : ∀ g m h, m ∈ d.models → Linking d g → g.linkModel m = .ok h → Linking d h :=
    fun _ _ _ hm hg hok => linkModel_linking hg hm hok
  refine .bind (.foldlM hscalar (fun _ s hs hg => linkScalar_hinges hg (hd.scalars s hs)) hg) ?_
  intro a ha
  have henums := linkEnums_linking (foldlM_induction hscalar hg ha) fun _ he => he
  refine .bind (.foldlM hmodel (fun _ m hm hg => linkModel_hinges hg (hd.models m hm)) henums) ?_
  intro b hb
  exact .foldlM (fun _ _ _ hu hg hok => linkUnion_linking hg hu hok)
    (fun _ u hu hg => linkUnion_hinges hg (hd.unions u hu)) (foldlM_induction hmodel henums hb)

end Graph

end SchemaLoom

import SchemaLoom.Proofs.FreshNames
import SchemaLoom.Proofs.Names
import SchemaLoom.Proofs.Result

/-!
# Imported documents

An import gives every name it takes to one declaration, and mentions no other names
than these and the built-in ones. While it runs, the names taken are those declared
so far together with those still owed: the definitions that are to come, and the
declarations a subschema was met in.

An import that fails leaves no document to speak of.
-/

namespace SchemaLoom

set_option autoImplicit false

/-- A type reference of one form at every level, over some names and some literals. -/
inductive TypeRef.Over (N : Text → Prop) (L : Value → Prop) : TypeRef → Prop
  | named {name : Text} : N name → Over N L { name }
  | array {t : TypeRef} : Over N L t → Over N L { array := some t }
  | record {t : TypeRef} : Over N L t → Over N L { record := some t }
  | literal {v : Value} : L v → Over N L { literal := some v }
  | union {ts : List TypeRef} : (∀ t ∈ ts, Over N L t) → Over N L { union := some ts }
  | tuple {ts : List TypeRef} : (∀ t ∈ ts, Over N L t) → Over N L { tuple := some ts }
  | object {ps : List Property} : (∀ p ∈ ps, Over N L p.type) → Over N L { object := some ps }

theorem TypeRef.Over.mono {N N' : Text → Prop} {L L' : Value → Prop} {t : TypeRef}
    (h : t.Over N L) (hN : ∀ x, N x → N' x) (hL : ∀ v, L v → L' v) : t.Over N' L' := by
  induction h with
  | named h => exact .named (hN _ h)
  | array _ ih => exact .array ih
  | record _ ih => exact .record ih
  | literal h => exact .literal (hL _ h)
  | union _ ih => exact .union ih
  | tuple _ ih => exact .tuple ih
  | object _ ih => exact .object ih

/-- A name that something has: one of the taken names or a built-in type. -/
def InUse (used : List Text) (name : Text) : Prop :=
  name ∈ used ∨ (Graph.builtin? name).isSome = true

theorem InUse.mono {used more : List Text} {name : Text} (h : InUse used name)
    (hsub : used ⊆ more) : InUse more name := h.imp_left fun hmem => hsub hmem

/-- Every name is in use. -/
def TypeRef.Known (used : List Text) (t : TypeRef) : Prop := t.Over (InUse used) fun _ => True

theorem TypeRef.Known.mono {used more : List Text} {t : TypeRef} (h : t.Known used)
    (hsub : used ⊆ more) : t.Known more :=
  Over.mono h (fun _ hname => hname.mono hsub) fun _ hv => hv

theorem TypeRef.Known.eq_named {used : List Text} {t : TypeRef} (h : t.Known used)
    (hne : t.name ≠ []) : t = { name := t.name } := by
  cases h with
  | named => rfl
  | _ => exact absurd rfl hne

structure ScalarDecl.Known (used : List Text) (s : ScalarDecl) : Prop where
  encode : s.encode = none
  base : InUse used s.base

structure ModelDecl.Known (used : List Text) (m : ModelDecl) : Prop where
  base : ∀ t, m.base = some t → t.Known used
  source : ∀ t, m.source = some t → t.Known used
  properties : ∀ p ∈ m.properties, p.type.Known used

structure UnionDecl.Known (used : List Text) (u : UnionDecl) : Prop where
  discriminated : u.discriminated = none
  variants : ∀ v ∈ u.variants, v.type.Known used

/-- A document that mentions only names in use, as an import makes it. -/
structure Document.Imported (used : List Text) (d : Document) : Prop where
  scalars : ∀ s ∈ d.scalars, s.Known used
  models : ∀ m ∈ d.models, m.Known used
  unions : ∀ u ∈ d.unions, u.Known used

section Mono
variable {used more : List Text}

theorem ScalarDecl.Known.mono {s : ScalarDecl} (h : s.Known used) (hsub : used ⊆ more) :
    s.Known more where
  encode := h.encode
  base := h.base.mono hsub

theorem ModelDecl.Known.mono {m : ModelDecl} (h : m.Known used) (hsub : used ⊆ more) :
    m.Known more where
  base := fun t ht => (h.base t ht).mono hsub
  source := fun t ht => (h.source t ht).mono hsub
  properties := fun p hp => (h.properties p hp).mono hsub

theorem UnionDecl.Known.mono {u : UnionDecl} (h : u.Known used) (hsub : used ⊆ more) :
    u.Known more where
  discriminated := h.discriminated
  variants := fun v hv => (h.variants v hv).mono hsub

theorem Document.Imported.mono {d : Document} (h : d.Imported used) (hsub : used ⊆ more) :
    d.Imported more where
  scalars := fun s hs => (h.scalars s hs).mono hsub
  models := fun m hm => (h.models m hm).mono hsub
  unions := fun u hu => (h.unions u hu).mono hsub

end Mono

/-- The names taken are those declared and those owed. -/
structure Importing.Ready (owed : List Text) (s : Importing) : Prop where
  nodup : s.used.Nodup
  perm : s.used.Perm (s.document.names ++ owed)
  imported : s.document.Imported s.used

namespace Import

variable {α β : Type}

/-- Steps that declare what they owe. With the names `used` taken before, they end with no fewer,
and with a result that `P` holds of. -/
def Yields (used paid : List Text) (m : Import α) (P : List Text → α → Prop) : Prop :=
  ∀ owed s a s', used ⊆ s.used → s.Ready (paid ++ owed) → m s = .ok (a, s') →
    s'.Ready owed ∧ s.used ⊆ s'.used ∧ P s'.used a

theorem eachIndexed_eq_mapM (f : Nat → Schema → Import α) (i : Nat) (xs : List Schema) :
    eachIndexed f i xs = (xs.zipIdx i).mapM fun p => f p.2 p.1 := by
  induction xs generalizing i with
  | nil => rfl
  | cons x xs ih => rw [eachIndexed, ih, List.zipIdx_cons, List.mapM_cons]

namespace Yields
variable {used paid : List Text} {m : Import α} {P : List Text → α → Prop}

theorem pure {a : α} (h : ∀ more, used ⊆ more → P more a) : Yields used [] (pure a) P := by
  intro owed s b s' hsub hready hok
  cases hok
  exact ⟨hready, List.Subset.refl _, h _ hsub⟩

theorem fail {c : Cause} : Yields used paid (fail c : Import α) P := by
  intro owed s b s' _ _ hok
  cases hok

theorem bind_append {owing : List Text} {f : α → Import β} {Q : List Text → β → Prop}
    (hm : Yields used paid m P)
    (hf : ∀ a more, used ⊆ more → P more a → Yields more owing (f a) Q) :
    Yields used (paid ++ owing) (m >>= f) Q := by
  intro owed s b s' hsub hready hok
  rw [List.append_assoc] at hready
  obtain ⟨⟨a, t⟩, hat, hok⟩ := Result.bind_eq_ok.mp hok
  obtain ⟨ht, hst, hP⟩ := hm (owing ++ owed) s a t hsub hready hat
  obtain ⟨hs', htt, hQ⟩ :=
    hf a t.used (List.Subset.trans hsub hst) hP owed t b s' (List.Subset.refl _) ht hok
  exact ⟨hs', List.Subset.trans hst htt, hQ⟩

theorem bind {f : α → Import β} {Q : List Text → β → Prop} (hm : Yields used [] m P)
    (hf : ∀ a more, used ⊆ more → P more a → Yields more paid (f a) Q) :
    Yields used paid (m >>= f) Q := hm.bind_append hf

theorem imp {Q : List Text → α → Prop} (hm : Yields used paid m P)
    (h : ∀ more a, used ⊆ more → P more a → Q more a) : Yields used paid m Q := by
  intro owed s a s' hsub hready hok
  obtain ⟨hs', hss, hP⟩ := hm owed s a s' hsub hready hok
  exact ⟨hs', hss, h _ _ (List.Subset.trans hsub hss) hP⟩

theorem ite {c : Prop} [Decidable c] {n : Import α} (hm : c → Yields used paid m P)
    (hn : ¬ c → Yields used paid n P) : Yields used paid (if c then m else n) P := by
  by_cases hc : c
  · rw [if_pos hc]
    exact hm hc
  · rw [if_neg hc]
    exact hn hc

theorem within {position : Text} (hm : Yields used paid m P) :
    Yields used paid (within position m) P := by
  intro owed s a s' hsub hready hok
  exact hm owed s a s' hsub hready (Result.within_eq_ok.mp hok)

theorem lift {r : Result α} : Yields used [] (lift r) fun _ _ => True := by
  intro owed s a s' _ hready hok
  obtain ⟨_, _, heq⟩ := Result.map_eq_ok.mp hok
  cases heq
  exact ⟨hready, List.Subset.refl _, trivial⟩

theorem mapM {f : α → Import β} {xs : List α} {Q : List Text → β → Prop}
    (hQ : ∀ used more b, used ⊆ more → Q used b → Q more b)
    (hf : ∀ x ∈ xs, ∀ more, used ⊆ more → Yields more [] (f x) Q) :
    Yields used [] (xs.mapM f) fun used bs => ∀ b ∈ bs, Q used b := by
  induction xs generalizing used with
  | nil =>
    rw [List.mapM_nil]
    exact .pure (by simp)
  | cons x xs ih =>
    rw [List.mapM_cons]
    refine .bind (hf x List.mem_cons_self used (List.Subset.refl _)) ?_
    intro b more hmore hb
    refine .bind (ih fun y hy more' hmore' =>
      hf y (List.mem_cons_of_mem _ hy) more' (List.Subset.trans hmore hmore')) ?_
    intro bs more' hmore' hbs
    refine .pure ?_
    intro last hlast c hc
    rcases List.mem_cons.mp hc with rfl | hc
    · exact hQ _ _ _ (List.Subset.trans hmore' hlast) hb
    · exact hQ _ _ _ hlast (hbs c hc)

theorem eachIndexed {f : Nat → Schema → Import β} {i : Nat} {xs : List Schema}
    {Q : List Text → β → Prop} (hQ : ∀ used more b, used ⊆ more → Q used b → Q more b)
    (hf : ∀ i x more, used ⊆ more → Yields more [] (f i x) Q) :
    Yields used [] (eachIndexed f i xs) fun used bs => ∀ b ∈ bs, Q used b := by
  rw [eachIndexed_eq_mapM]
  exact .mapM hQ fun p _ => hf p.2 p.1

theorem declares {name : Text} (add : Document → Document)
    (hnames : ∀ d x, (add d).names.count x = d.names.count x + [name].count x)
    (hadd : ∀ d more, used ⊆ more → d.Imported more → (add d).Imported more) :
    Yields used [name] (modify fun s => { s with document := add s.document })
      fun _ _ => True := by
  intro owed s a s' hsub hready hok
  cases hok
  refine ⟨⟨hready.nodup, ?_, hadd _ _ hsub hready.imported⟩, List.Subset.refl _, trivial⟩
  refine hready.perm.trans (List.perm_iff_count.mpr fun x => ?_)
  simp only [List.count_append, hnames]
  omega

/-- A name that is taken is owed to what comes next. -/
theorem unique_bind {hint : Text} {f : Text → Import α}
    (hf : ∀ name more, used ⊆ more → name ∈ more → Yields more [name] (f name) P) :
    Yields used [] (unique hint >>= f) P := by
  intro owed s a s' hsub hready hok
  let fresh := freshName hint s.used
  have hcons : s.used ⊆ fresh :: s.used := List.subset_cons_self _ _
  have hready' : Importing.Ready ([fresh] ++ owed) { s with used := fresh :: s.used } :=
    { nodup := List.nodup_cons.mpr ⟨freshName_not_mem hint s.used, hready.nodup⟩
      perm := (hready.perm.cons _).trans List.perm_middle.symm
      imported := hready.imported.mono hcons }
  obtain ⟨hs', hgrow, hP⟩ := hf fresh (fresh :: s.used) (List.Subset.trans hsub hcons)
    List.mem_cons_self owed _ a s' (List.Subset.refl _) hready' hok
  exact ⟨hs', List.Subset.trans hcons hgrow, hP⟩

end Yields

/-! ### Declarations -/

section Add
variable {used : List Text}

theorem addScalar_yields {name : Text} {d : ScalarDecl} (hname : d.name = name)
    (hd : d.Known used) :
    Yields used [name] (addScalar d) fun _ _ => True := by
  subst hname
  refine .declares (fun doc => { doc with scalars := doc.scalars ++ [d] }) ?_ ?_
  · intro doc x
    simp only [Document.names, List.map_append, List.count_append, List.map_cons, List.map_nil]
    omega
  · intro doc more hsub hdoc
    have hmore : ∀ s ∈ [d], s.Known more := List.forall_mem_singleton.mpr (hd.mono hsub)
    exact ⟨List.forall_mem_append.mpr ⟨hdoc.scalars, hmore⟩, hdoc.models, hdoc.unions⟩

theorem addModel_yields {name : Text} {d : ModelDecl} (hname : d.name = name)
    (hd : d.Known used) :
    Yields used [name] (addModel d) fun _ _ => True := by
  subst hname
  refine .declares (fun doc => { doc with models := doc.models ++ [d] }) ?_ ?_
  · intro doc x
    simp only [Document.names, List.map_append, List.count_append, List.map_cons, List.map_nil]
    omega
  · intro doc more hsub hdoc
    have hmore : ∀ m ∈ [d], m.Known more := List.forall_mem_singleton.mpr (hd.mono hsub)
    exact ⟨hdoc.scalars, List.forall_mem_append.mpr ⟨hdoc.models, hmore⟩, hdoc.unions⟩

theorem addEnum_yields {name : Text} {d : EnumDecl} (hname : d.name = name) :
    Yields used [name] (addEnum d) fun _ _ => True := by
  subst hname
  refine .declares (fun doc => { doc with enums := doc.enums ++ [d] }) ?_ ?_
  · intro doc x
    simp only [Document.names, List.map_append, List.count_append, List.map_cons, List.map_nil]
    omega
  · intro doc more _ hdoc
    exact ⟨hdoc.scalars, hdoc.models, hdoc.unions⟩

theorem addUnion_yields {name : Text} {doc : String} {types : List TypeRef}
    (htypes : ∀ t ∈ types, t.Known used) :
    Yields used [name] (addUnion (unionOf name doc types)) fun _ _ => True := by
  have hknown : (unionOf name doc types).Known used := by
    refine ⟨rfl, ?_⟩
    intro v hv
    obtain ⟨t, ht, rfl⟩ := List.mem_map.mp hv
    exact htypes t ht
  refine .declares (fun d => { d with unions := d.unions ++ [unionOf name doc types] }) ?_ ?_
  · intro d x
    simp only [Document.names, List.map_append, List.count_append, List.map_cons, List.map_nil,
      unionOf]
    omega
  · intro d more hsub hd
    have hmore : ∀ u ∈ [unionOf name doc types], u.Known more :=
      List.forall_mem_singleton.mpr (hknown.mono hsub)
    exact ⟨hd.scalars, hd.models, List.forall_mem_append.mpr ⟨hd.unions, hmore⟩⟩

theorem known_literalRef (v : Value) : (literalRef v).Known used := .literal trivial

theorem declareEnum_yields (name : Text) (s : Schema) :
    Yields used [name] (declareEnum name s) fun _ _ => True := by
  refine .bind .lift ?_
  intro values more _ _
  refine .ite (fun _ => addEnum_yields rfl) fun _ => addUnion_yields ?_
  intro t ht
  obtain ⟨v, _, rfl⟩ := List.mem_map.mp ht
  exact known_literalRef v

theorem isSome_builtInType (s : Schema) : (Graph.builtin? s.builtInType).isSome = true := by
  unfold Schema.builtInType
  dsimp only
  split
  · decide
  · decide
  · decide
  · split
    case h_9 => decide
    all_goals
      rename_i hformat
      rw [hformat]
      decide
  · split <;> decide
  · decide

theorem declareScalar_yields (name : Text) (s : Schema) :
    Yields used [name] (declareScalar name s) fun _ _ => True :=
  .ite (fun _ => addScalar_yields rfl ⟨rfl, .inr (isSome_builtInType s)⟩) fun _ => .fail

end Add

/-! ### References -/

/-- The names of the definitions are taken. -/
def Lists (used : List Text) (defs : Schema) : Prop :=
  ∀ k, (defs.def? k).isSome = true → Text.ofString k ∈ used

theorem Lists.mono {used more : List Text} {defs : Schema} (h : Lists used defs)
    (hsub : used ⊆ more) : Lists more defs := fun k hk => hsub (h k hk)

section Refer
variable {used : List Text} {defs : Schema}

theorem refType_yields (hdefs : Lists used defs) (s : Schema) :
    Yields used [] (refType defs s) fun used t => ∃ name ∈ used, t = TypeRef.named name := by
  unfold refType
  dsimp only
  split
  · exact .fail
  · rename_i name hname
    refine .ite (fun hsome => .pure ?_) fun _ => .fail
    intro more hmore
    have hwhole := Reference.whole_defName? (Text.whole_ofString _) hname
    refine ⟨name, hmore ?_, rfl⟩
    rw [← hwhole.ofString_toDisplay]
    exact hdefs _ hsome

theorem known_named {name : Text} (h : name ∈ used) : (TypeRef.named name).Known used :=
  .named (.inl h)

theorem refType_known (hdefs : Lists used defs) (s : Schema) :
    Yields used [] (refType defs s) fun used t => t.Known used := by
  refine (refType_yields hdefs s).imp ?_
  rintro more _ _ ⟨name, hname, rfl⟩
  exact known_named hname

theorem declareAlias_yields (hdefs : Lists used defs) (name : Text) (s : Schema) :
    Yields used [name] (declareAlias defs name s) fun _ _ => True := by
  refine .bind (refType_yields hdefs s) ?_
  rintro _ more _ ⟨target, htarget, rfl⟩
  dsimp only
  split
  · exact .fail
  · exact .fail
  · refine .ite (fun _ => ?_) fun _ => .ite (fun _ => ?_) fun _ => ?_
    · refine addModel_yields rfl ⟨nofun, ?_, nofun⟩
      rintro t ⟨⟩
      exact known_named htarget
    · exact addScalar_yields rfl ⟨rfl, .inl htarget⟩
    · refine addUnion_yields ?_
      intro t ht
      obtain rfl := List.mem_singleton.mp ht
      exact known_named htarget

end Refer

/-! ### Schemas -/

/-- What every function of the importer does with some fuel. -/
structure Frames (defs : Schema) (fuel : Nat) : Prop where
  declare : ∀ used name s, Lists used defs →
    Yields used [name] (declare defs fuel name s) fun _ _ => True
  model : ∀ used name s, Lists used defs →
    Yields used [] (model defs fuel name s) fun used m => m.name = name ∧ m.Known used
  allParts : ∀ used name parts base props, Lists used defs →
    (∀ t, base = some t → t.Known used) → (∀ p ∈ props, p.type.Known used) →
    Yields used [] (allParts defs fuel name parts base props) fun used r =>
      (∀ t, r.1 = some t → t.Known used) ∧ ∀ p ∈ r.2, p.type.Known used
  properties : ∀ used owner s, Lists used defs →
    Yields used [] (properties defs fuel owner s) fun used ps => ∀ p ∈ ps, p.type.Known used
  property : ∀ used owner required key s, Lists used defs →
    Yields used [] (property defs fuel owner required key s) fun used p => p.type.Known used
  inlineRef : ∀ used hint s, Lists used defs →
    Yields used [] (inlineRef defs fuel hint s) fun used t => t.Known used
  hoist : ∀ used hint s, Lists used defs →
    Yields used [] (hoist defs fuel hint s) fun used t => t.Known used
  typeRef : ∀ used hint s, Lists used defs →
    Yields used [] (typeRef defs fuel hint s) fun used r => r.1.Known used
  arrayRef : ∀ used hint s, Lists used defs →
    Yields used [] (arrayRef defs fuel hint s) fun used r => r.1.Known used
  objectRef : ∀ used hint s, Lists used defs →
    Yields used [] (objectRef defs fuel hint s) fun used r => r.1.Known used
  variants : ∀ used hint s, Lists used defs →
    Yields used [] (variants defs fuel hint s) fun used ts => ∀ t ∈ ts, t.Known used

theorem frames_zero (defs : Schema) : Frames defs 0 := by
  constructor <;> intros <;> exact .fail

namespace Frames
variable {defs : Schema} {fuel : Nat} {used : List Text}

theorem declare_succ (hf : Frames defs fuel) (hdefs : Lists used defs) (name : Text) (s : Schema) :
    Yields used [name] (Import.declare defs (fuel + 1) name s) fun _ _ => True := by
  cases s with
  | null => exact .fail
  | node k cs =>
    refine .ite (fun _ => declareAlias_yields hdefs _ _) fun _ => ?_
    refine .ite (fun _ => declareEnum_yields _ _) fun _ => ?_
    refine .ite (fun _ => ?_) fun _ => .ite (fun _ => ?_) fun _ => .ite (fun _ => ?_) fun _ => ?_
    · refine .bind (hf.variants _ _ _ hdefs) ?_
      intro types more _ htypes
      exact addUnion_yields htypes
    · refine .bind (hf.typeRef _ _ _ hdefs) ?_
      intro r more _ hr
      refine .ite (fun _ => addUnion_yields ?_) fun _ => addModel_yields rfl ⟨nofun, ?_, nofun⟩
      · intro t ht
        obtain rfl := List.mem_singleton.mp ht
        exact hr
      · rintro t ⟨⟩
        exact hr
    · refine .bind (hf.model _ _ _ hdefs) ?_
      rintro m more _ ⟨hname, hm⟩
      exact addModel_yields hname hm
    · exact declareScalar_yields _ _

theorem model_succ (hf : Frames defs fuel) (hdefs : Lists used defs) (name : Text) (s : Schema) :
    Yields used [] (Import.model defs (fuel + 1) name s) fun used m =>
      m.name = name ∧ m.Known used := by
  refine .bind (hf.allParts _ _ _ _ _ hdefs nofun nofun) ?_
  rintro ⟨base, inherited⟩ more₁ h₁ ⟨hbase, hinherited⟩
  refine .bind (hf.properties _ _ _ (hdefs.mono h₁)) ?_
  intro own more₂ h₂ hown
  have hrest : ∀ (source : Option TypeRef) (more₃ : List Text), more₂ ⊆ more₃ →
      (∀ t : TypeRef, source = some t → t.Known more₃) →
      ModelDecl.Known more₃
        { name, base, source, properties := inherited ++ own,
          decorators := { doc := s.keywords.description } } := by
    intro source more₃ h₃ hsource
    refine ⟨fun t ht => (hbase t ht).mono (List.Subset.trans h₂ h₃), hsource, ?_⟩
    intro p hp
    rcases List.mem_append.mp hp with hp | hp
    · exact (hinherited p hp).mono (List.Subset.trans h₂ h₃)
    · exact (hown p hp).mono h₃
  dsimp only
  split
  · rw [pure_bind]
    exact .pure fun more₃ h₃ => ⟨rfl, hrest none more₃ h₃ nofun⟩
  · refine .bind (hf.inlineRef _ _ _ (hdefs.mono (List.Subset.trans h₁ h₂))) ?_
    intro value more₃ h₃ hvalue
    rw [pure_bind]
    refine .pure fun more₄ h₄ => ⟨rfl, hrest _ more₄ (List.Subset.trans h₃ h₄) ?_⟩
    rintro t ⟨⟩
    exact .record (hvalue.mono h₄)

theorem allParts_succ (hf : Frames defs fuel) (hdefs : Lists used defs) (name : Text)
    (parts : List Schema) {base : Option TypeRef} {props : List Property}
    (hbase : ∀ t, base = some t → t.Known used) (hprops : ∀ p ∈ props, p.type.Known used) :
    Yields used [] (Import.allParts defs (fuel + 1) name parts base props) fun used r =>
      (∀ t, r.1 = some t → t.Known used) ∧ ∀ p ∈ r.2, p.type.Known used := by
  cases parts with
  | nil =>
    refine .pure ?_
    intro more hmore
    exact ⟨fun t ht => (hbase t ht).mono hmore, fun p hp => (hprops p hp).mono hmore⟩
  | cons part rest =>
    refine .ite (fun _ => .fail) fun _ => .ite (fun _ => ?_) fun _ => .ite (fun _ => ?_) fun _ =>
      .fail
    · refine .ite (fun _ => .fail) fun _ => ?_
      refine .bind (refType_known hdefs part) ?_
      intro b more hmore hb
      refine hf.allParts _ _ _ _ _ (hdefs.mono hmore) ?_ fun p hp => (hprops p hp).mono hmore
      rintro t ⟨⟩
      exact hb
    · refine .bind (hf.properties _ _ _ hdefs) ?_
      intro own more hmore hown
      refine hf.allParts _ _ _ _ _ (hdefs.mono hmore) (fun t ht => (hbase t ht).mono hmore) ?_
      intro p hp
      rcases List.mem_append.mp hp with hp | hp
      · exact (hprops p hp).mono hmore
      · exact hown p hp

theorem property_succ (hf : Frames defs fuel) (hdefs : Lists used defs) (owner : Text)
    (required : Bool) (key : String) (s : Schema) :
    Yields used [] (Import.property defs (fuel + 1) owner required key s) fun used p =>
      p.type.Known used := by
  refine .bind (.within (hf.typeRef _ _ _ hdefs)) ?_
  rintro ⟨type, d⟩ more _ htype
  dsimp only
  split
  · rw [pure_bind]
    exact .pure fun more' hmore' => htype.mono hmore'
  · refine .bind (.within .lift) ?_
    intro v more' hmore' _
    rw [pure_bind]
    exact .pure fun last hlast => htype.mono (List.Subset.trans hmore' hlast)

theorem hoist_succ (hf : Frames defs fuel) (hdefs : Lists used defs) (hint : Text) (s : Schema) :
    Yields used [] (Import.hoist defs (fuel + 1) hint s) fun used t => t.Known used := by
  refine .unique_bind ?_
  intro name more hmore hname
  refine .bind_append (hf.declare more name s (hdefs.mono hmore)) ?_
  intro _ more' hmore' _
  exact .pure fun last hlast => known_named (hlast (hmore' hname))

theorem typeRef_succ (hf : Frames defs fuel) (hdefs : Lists used defs) (hint : Text) (s : Schema) :
    Yields used [] (Import.typeRef defs (fuel + 1) hint s) fun used r => r.1.Known used := by
  have hhoist : ∀ s, Yields used [] (do let t ← Import.hoist defs fuel hint s; pure (t, {}))
      fun used (r : TypeRef × Decorators) => r.1.Known used := by
    intro s
    refine .bind (hf.hoist _ _ _ hdefs) ?_
    intro t more _ ht
    exact .pure fun more' hmore' => ht.mono hmore'
  cases s with
  | null => exact .fail
  | node k cs =>
    refine .ite (fun _ => ?_) fun _ => .ite (fun _ => ?_) fun _ => .ite (fun _ => ?_) fun _ => ?_
    · refine .bind (refType_known hdefs _) ?_
      intro t more _ ht
      exact .pure fun more' hmore' => ht.mono hmore'
    · refine .bind .lift ?_
      intro values more _ _
      split
      · exact .pure fun _ _ => known_literalRef _
      · refine .pure fun more' _ => .union ?_
        intro t ht
        obtain ⟨v, _, rfl⟩ := List.mem_map.mp ht
        exact known_literalRef v
    · refine .bind (hf.variants _ _ _ hdefs) ?_
      intro types more _ htypes
      split
      · exact .pure fun more' hmore' => (htypes _ List.mem_cons_self).mono hmore'
      · exact .pure fun more' hmore' => .union fun t ht => (htypes t ht).mono hmore'
    · split
      · exact .ite (fun _ => hhoist _) fun _ => hf.typeRef _ _ _ hdefs
      · exact hhoist _
      · refine .ite (fun _ => hf.arrayRef _ _ _ hdefs) fun _ =>
          .ite (fun _ => hf.objectRef _ _ _ hdefs) fun _ => .pure fun _ _ => ?_
        exact .named (.inr (isSome_builtInType _))

theorem properties_succ (hf : Frames defs fuel) (hdefs : Lists used defs) (owner : Text)
    (s : Schema) :
    Yields used [] (Import.properties defs (fuel + 1) owner s) fun used ps =>
      ∀ p ∈ ps, p.type.Known used := by
  rw [Import.properties]
  refine .mapM (fun _ _ _ hsub h => h.mono hsub) ?_
  intro key _ more hmore
  exact hf.property _ _ _ _ _ (hdefs.mono hmore)

theorem inlineRef_succ (hf : Frames defs fuel) (hdefs : Lists used defs) (hint : Text)
    (s : Schema) :
    Yields used [] (Import.inlineRef defs (fuel + 1) hint s) fun used t => t.Known used := by
  refine .bind (hf.typeRef _ _ _ hdefs) ?_
  rintro ⟨t, d⟩ more hmore ht
  refine .ite (fun _ => .pure fun more' hmore' => ht.mono hmore') fun _ => ?_
  exact hf.hoist _ _ _ (hdefs.mono hmore)

theorem arrayRef_succ (hf : Frames defs fuel) (hdefs : Lists used defs) (hint : Text)
    (s : Schema) :
    Yields used [] (Import.arrayRef defs (fuel + 1) hint s) fun used r => r.1.Known used := by
  rw [Import.arrayRef]
  split
  · split
    · rw [pure_bind]
      exact .pure fun _ _ => .array (.named (.inr (by decide)))
    · refine .bind (hf.inlineRef _ _ _ hdefs) ?_
      intro elem more _ helem
      exact .pure fun more' hmore' => .array (helem.mono hmore')
  · refine .bind (.eachIndexed (Q := fun used t => TypeRef.Known used t)
      (fun _ _ _ hsub h => h.mono hsub) ?_) ?_
    · intro i item more hmore
      exact hf.inlineRef _ _ _ (hdefs.mono hmore)
    · intro elems more _ helems
      exact .pure fun more' hmore' => .tuple fun t ht => (helems t ht).mono hmore'

theorem objectRef_succ (hf : Frames defs fuel) (hdefs : Lists used defs) (hint : Text)
    (s : Schema) :
    Yields used [] (Import.objectRef defs (fuel + 1) hint s) fun used r => r.1.Known used := by
  rw [Import.objectRef]
  split
  · refine .ite (fun _ => ?_) fun _ => ?_
    · refine .bind (hf.inlineRef _ _ _ hdefs) ?_
      intro value more _ hvalue
      exact .pure fun more' hmore' => .record (hvalue.mono hmore')
    · refine .bind (hf.hoist _ _ _ hdefs) ?_
      intro t more _ ht
      exact .pure fun more' hmore' => ht.mono hmore'
  · refine .bind (hf.properties _ _ _ hdefs) ?_
    intro props more _ hprops
    exact .pure fun more' hmore' => .object fun p hp => (hprops p hp).mono hmore'

theorem variants_succ (hf : Frames defs fuel) (hdefs : Lists used defs) (hint : Text)
    (s : Schema) :
    Yields used [] (Import.variants defs (fuel + 1) hint s) fun used ts =>
      ∀ t ∈ ts, t.Known used := by
  refine .bind (.eachIndexed (Q := fun used t => TypeRef.Known used t)
      (fun _ _ _ hsub h => h.mono hsub) ?_) ?_
  · intro i v more hmore
    exact hf.inlineRef _ _ _ (hdefs.mono hmore)
  · intro ts more hmore hts
    refine .bind (.mapM (Q := fun used t => TypeRef.Known used t)
      (fun _ _ _ hsub h => h.mono hsub) ?_) ?_
    · intro type _ more' hmore'
      refine .ite (fun _ => .pure fun _ _ => .named (.inr (by decide))) fun _ => ?_
      exact hf.inlineRef _ _ _ (hdefs.mono (List.Subset.trans hmore hmore'))
    · intro us more' hmore' hus
      refine .pure fun last hlast t ht => ?_
      rcases List.mem_append.mp ht with ht | ht
      · exact (hts t ht).mono (List.Subset.trans hmore' hlast)
      · exact (hus t ht).mono hlast

end Frames

theorem frames (defs : Schema) (fuel : Nat) : Frames defs fuel := by
  induction fuel with
  | zero => exact frames_zero defs
  | succ fuel ih =>
    exact
      { declare := fun _ name s hdefs => ih.declare_succ hdefs name s
        model := fun _ name s hdefs => ih.model_succ hdefs name s
        allParts := fun _ name parts _ _ hdefs => ih.allParts_succ hdefs name parts
        properties := fun _ owner s hdefs => ih.properties_succ hdefs owner s
        property := fun _ owner required key s hdefs =>
          ih.property_succ hdefs owner required key s
        inlineRef := fun _ hint s hdefs => ih.inlineRef_succ hdefs hint s
        hoist := fun _ hint s hdefs => ih.hoist_succ hdefs hint s
        typeRef := fun _ hint s hdefs => ih.typeRef_succ hdefs hint s
        arrayRef := fun _ hint s hdefs => ih.arrayRef_succ hdefs hint s
        objectRef := fun _ hint s hdefs => ih.objectRef_succ hdefs hint s
        variants := fun _ hint s hdefs => ih.variants_succ hdefs hint s }

/-! ### Documents -/

/-- Declarations one after another pay what each of them owes. -/
theorem forM_yields {xs : List α} {f : α → Import PUnit} {name : α → Text} {used : List Text}
    (hf : ∀ x ∈ xs, ∀ more, used ⊆ more → Yields more [name x] (f x) fun _ _ => True) :
    Yields used (xs.map name) (xs.forM f) fun _ _ => True := by
  induction xs generalizing used with
  | nil => exact .pure fun _ _ => trivial
  | cons x xs ih =>
    refine .bind_append (hf x List.mem_cons_self used (List.Subset.refl _)) ?_
    intro _ more hmore _
    exact ih fun y hy more' hmore' =>
      hf y (List.mem_cons_of_mem _ hy) more' (List.Subset.trans hmore hmore')

theorem lists_orderedDefs (root : Schema) :
    Lists (root.orderedDefs.map Text.ofString) root := by
  intro k hk
  exact List.mem_map_of_mem (Schema.mem_orderedDefs.mpr hk)

theorem imported_empty {used : List Text} : Document.Imported used {} :=
  ⟨fun _ h => absurd h List.not_mem_nil, fun _ h => absurd h List.not_mem_nil,
    fun _ h => absurd h List.not_mem_nil⟩

/-- Before the first declaration, all that is taken is owed. -/
theorem ready_start {used : List Text} (h : used.Nodup) : Importing.Ready used { used } where
  nodup := h
  perm := List.Perm.refl used
  imported := imported_empty

/-- After the last one, nothing is owed. -/
theorem ready_document {root : Schema} {name : Text} {s : Importing} (hroot : root.Distinct)
    (h : document root name {} = .ok ((), s)) :
    s.Ready [] ∧ root.orderedDefs.map Text.ofString ⊆ s.used := by
  unfold document at h
  cases hnull : root.isNull with
  | true =>
    rw [hnull] at h
    cases h
  | false =>
    rw [hnull] at h
    obtain ⟨⟨_, mid⟩, hmid, h⟩ := Result.bind_eq_ok.mp h
    have hnodup : (root.orderedDefs.map Text.ofString).Nodup :=
      hroot.nodup_orderedDefs.map fun _ _ h => Text.ofString_injective h
    have hlists := lists_orderedDefs root
    have hdeclare := (frames root (fuelFor root)).declare
    have hdefs : mid.Ready [] ∧ root.orderedDefs.map Text.ofString ⊆ mid.used := by
      obtain ⟨hready, hsub, _⟩ := forM_yields (fun n _ more hmore =>
        .within (hdeclare more (Text.ofString n) _ (hlists.mono hmore))) [] _ _ mid
        (List.Subset.refl _) (by rw [List.append_nil]; exact ready_start hnodup) hmid
      exact ⟨hready, hsub⟩
    have htail : Yields (root.orderedDefs.map Text.ofString) []
        (if root.isObject then do
          let fresh ← unique (if name.isEmpty then "Root" else name)
          within (Text.mentioned (if name.isEmpty then "Root" else name))
            (declare root (fuelFor root) fresh root)
        else pure ()) fun _ _ => True := by
      refine .ite (fun _ => .unique_bind ?_) fun _ => .pure fun _ _ => trivial
      intro fresh more hmore _
      exact .within (hdeclare more fresh root (hlists.mono hmore))
    obtain ⟨hready, hsub, _⟩ := htail [] mid () s hdefs.2 hdefs.1 h
    exact ⟨hready, List.Subset.trans hdefs.2 hsub⟩

end Import

/-- An imported document declares the definitions and no name twice, and it mentions only what it
declares and built-in types. -/
theorem Schema.toDocument_imported {root : Schema} {name : Text} {d : Document}
    (hroot : root.Distinct) (h : root.toDocument name = .ok d) :
    d.names.Nodup ∧ root.orderedDefs.map Text.ofString ⊆ d.names ∧ d.Imported d.names := by
  obtain ⟨⟨_, s⟩, hs, h⟩ := Result.bind_eq_ok.mp h
  cases h
  obtain ⟨hready, hdefs⟩ := Import.ready_document hroot hs
  have hperm : s.used.Perm s.document.names := by simpa using hready.perm
  refine ⟨hperm.nodup_iff.mp hready.nodup, ?_, hready.imported.mono hperm.subset⟩
  exact List.Subset.trans hdefs hperm.subset

/-! ### Mentioned names -/

/-- A name stands somewhere in a type reference, be it as the enum of a member. -/
inductive TypeRef.Mentions (x : Text) : TypeRef → Prop
  | name {t : TypeRef} : t.name = x → x ≠ [] → Mentions x t
  | array {t u : TypeRef} : t.array = some u → Mentions x u → Mentions x t
  | record {t u : TypeRef} : t.record = some u → Mentions x u → Mentions x t
  | union {t u : TypeRef} {ts : List TypeRef} : t.union = some ts → u ∈ ts → Mentions x u →
      Mentions x t
  | tuple {t u : TypeRef} {ts : List TypeRef} : t.tuple = some ts → u ∈ ts → Mentions x u →
      Mentions x t
  | object {t : TypeRef} {p : Property} {ps : List Property} : t.object = some ps → p ∈ ps →
      Mentions x p.type → Mentions x t
  | member {t : TypeRef} {m : Text} : Graph.splitMember? t.member = some (x, m) → Mentions x t

/-- A name stands somewhere in a document for a type. -/
inductive Document.Mentions (d : Document) (x : Text) : Prop
  | scalarBase {s : ScalarDecl} : s ∈ d.scalars → s.base = x → x ≠ [] → Mentions d x
  | encoding {s : ScalarDecl} {e : EncodingDecl} : s ∈ d.scalars → s.encode = some e →
      e.type = x → x ≠ [] → Mentions d x
  | modelBase {m : ModelDecl} {t : TypeRef} : m ∈ d.models → m.base = some t → t.Mentions x →
      Mentions d x
  | source {m : ModelDecl} {t : TypeRef} : m ∈ d.models → m.source = some t → t.Mentions x →
      Mentions d x
  | property {m : ModelDecl} {p : Property} : m ∈ d.models → p ∈ m.properties →
      p.type.Mentions x → Mentions d x
  | variant {u : UnionDecl} {v : VariantDecl} : u ∈ d.unions → v ∈ u.variants →
      v.type.Mentions x → Mentions d x

theorem TypeRef.Over.of_mentions {N : Text → Prop} {L : Value → Prop} {t : TypeRef} {x : Text}
    (h : t.Over N L) (hx : t.Mentions x) : N x := by
  induction hx with
  | name heq hne =>
    cases h with
    | named hname => exact heq ▸ hname
    | _ => exact absurd heq.symm hne
  | array heq _ ih =>
    cases h <;> cases heq
    exact ih (by assumption)
  | record heq _ ih =>
    cases h <;> cases heq
    exact ih (by assumption)
  | union heq hmem _ ih =>
    cases h <;> cases heq
    rename_i hall
    exact ih (hall _ hmem)
  | tuple heq hmem _ ih =>
    cases h <;> cases heq
    rename_i hall
    exact ih (hall _ hmem)
  | object heq hmem _ ih =>
    cases h <;> cases heq
    rename_i hall
    exact ih (hall _ hmem)
  | member heq => cases h <;> cases heq

theorem Document.Imported.of_mentions {used : List Text} {d : Document} {x : Text}
    (hd : d.Imported used) (hx : d.Mentions x) : InUse used x := by
  cases hx with
  | scalarBase hs heq _ => exact heq ▸ (hd.scalars _ hs).base
  | encoding hs heq _ _ =>
    rw [(hd.scalars _ hs).encode] at heq
    cases heq
  | modelBase hm ht hx => exact ((hd.models _ hm).base _ ht).of_mentions hx
  | source hm ht hx => exact ((hd.models _ hm).source _ ht).of_mentions hx
  | property hm hp hx => exact ((hd.models _ hm).properties _ hp).of_mentions hx
  | variant hu hv hx => exact ((hd.unions _ hu).variants _ hv).of_mentions hx

/-- An imported document declares each definition once and no name twice, and whatever name it
mentions is declared or built in. -/
theorem Schema.toDocument_closed {root : Schema} {name : Text} {d : Document}
    (hroot : root.Distinct) (h : root.toDocument name = .ok d) :
    d.names.Nodup ∧
    (∀ k, (root.def? k).isSome = true → d.names.count (Text.ofString k) = 1) ∧
    ∀ x, d.Mentions x → x ∈ d.names ∨ x ∈ builtInNames := by
  obtain ⟨hunique, hdefs, himported⟩ := Schema.toDocument_imported hroot h
  refine ⟨hunique, ?_, ?_⟩
  · intro k hk
    apply List.count_eq_one_of_mem hunique
    exact hdefs (List.mem_map_of_mem (Schema.mem_orderedDefs.mpr hk))
  · intro x hx
    rw [mem_builtInNames]
    exact himported.of_mentions hx

/-- Two names made up for items meet a definition of that name, and the root meets another one. -/
def kennel : Schema :=
  .node { type := "object", propertyOrder := some ["pets"],
          defOrder := some ["Pet", "PetTagsItem", "Root", "Named"] }
    [(.property "pets", .node { type := "array" }
        [(.prefixItem 0, .node { ref := "#/$defs/Pet" } []),
         (.prefixItem 1, .node { type := "string", maxLength := some 8 } [])]),
     (.def_ "Named", .node {} [(.property "name", .node { type := "string" } [])]),
     (.def_ "Pet", .node {}
        [(.property "tags", .node { type := "array" }
            [(.items, .node { type := "string", minLength := some 1 } [])]),
         (.allOf 0, .node { ref := "#/definitions/Named" } [])]),
     (.def_ "PetTagsItem", .node { type := "integer" } []),
     (.definition "Root", .node { ref := "#/$defs/Pet" } [])]

def kennelNames : List Text :=
  ["PetTagsItem2", "PetTagsItem", "Root2PetsItem1", "Pet", "Root", "Named", "Root2"]

theorem orderedDefs_kennel :
    kennel.orderedDefs = ["Pet", "PetTagsItem", "Root", "Named"] := by cbv

set_option maxRecDepth 100000 in
theorem toDocument_closed_kennel : kennel.Distinct ∧
    ∃ d, kennel.toDocument [] = .ok d ∧
      d.names = kennelNames ∧
      d.names.Nodup ∧ d.names.count (Text.ofString "PetTagsItem") = 1 ∧
      ∀ x, d.Mentions x → x ∈ d.names ∨ x ∈ builtInNames := by
  have hdistinct : kennel.Distinct := by
    unfold Schema.Distinct
    decide
  have hnames : (kennel.toDocument []).toOption.map Document.names = some kennelNames := by
    simp only [Schema.toDocument, Import.document, orderedDefs_kennel]
    decide +kernel
  cases hd : kennel.toDocument [] with
  | error e =>
    rw [hd] at hnames
    cases hnames
  | ok d =>
    rw [hd] at hnames
    obtain ⟨hunique, hdefs, hclosed⟩ := Schema.toDocument_closed hdistinct hd
    exact ⟨hdistinct, d, rfl, Option.some.inj hnames, hunique, hdefs "PetTagsItem" (by decide),
      hclosed⟩

end SchemaLoom

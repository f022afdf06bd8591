import SchemaLoom.Proofs.PropertySlots

/-!
# What imported documents are made of

An import puts type references together from names and from lists of properties. A name is
that of a definition, of a built-in type, or of a declaration made on the way. A list stands
for one schema that the import comes to and has the properties of that schema in its order,
behind those of the parts of its conjunction.

Whatever holds of such names and such lists therefore holds throughout the document. It is
left open here which schema a type reference stands for.
-/

namespace SchemaLoom

set_option autoImplicit false

/-- A type reference with some names and some lists of properties in it. -/
inductive TypeRef.MadeOf (N : Text → Prop) (Q : List Property → Prop) : TypeRef → Prop
  | named {name : Text} : N name → MadeOf N Q { name }
  | array {t : TypeRef} : MadeOf N Q t → MadeOf N Q { array := some t }
  | record {t : TypeRef} : MadeOf N Q t → MadeOf N Q { record := some t }
  | literal {v : Value} : MadeOf N Q { literal := some v }
  | union {ts : List TypeRef} : (∀ t ∈ ts, MadeOf N Q t) → MadeOf N Q { union := some ts }
  | tuple {ts : List TypeRef} : (∀ t ∈ ts, MadeOf N Q t) → MadeOf N Q { tuple := some ts }
  | object {ps : List Property} : Q ps → (∀ p ∈ ps, MadeOf N Q p.type) →
      MadeOf N Q { object := some ps }

structure ModelDecl.MadeOf (N : Text → Prop) (L Q : List Property → Prop) (m : ModelDecl) :
    Prop where
  base : ∀ t, m.base = some t → t.MadeOf N Q
  source : ∀ t, m.source = some t → t.MadeOf N Q
  listed : L m.properties
  properties : ∀ p ∈ m.properties, p.type.MadeOf N Q

structure Document.MadeOf (N : Text → Prop) (L Q : List Property → Prop) (d : Document) :
    Prop where
  scalars : ∀ s ∈ d.scalars, s.encode = none ∧ N s.base
  models : ∀ m ∈ d.models, m.MadeOf N L Q
  unions : ∀ u ∈ d.unions, ∀ v ∈ u.variants, v.type.MadeOf N Q

theorem Document.madeOf_empty {N : Text → Prop} {L Q : List Property → Prop} :
    Document.MadeOf N L Q {} :=
  ⟨fun _ h => absurd h List.not_mem_nil, fun _ h => absurd h List.not_mem_nil,
    fun _ h => absurd h List.not_mem_nil⟩

namespace Import

variable {α β : Type}

/-! ### Invariants of an import -/

/-- Steps that keep an invariant, with a result that `P` holds of. -/
def Keeps (J : Importing → Prop) (m : Import α) (P : α → Prop) : Prop :=
  ∀ s a s', J s → m s = .ok (a, s') → J s' ∧ P a

namespace Keeps
variable {J : Importing → Prop} {m : Import α} {P : α → Prop}

theorem pure {a : α} (h : P a) : Keeps J (pure a) P := by
  intro s b s' hs hok
  cases hok
  exact ⟨hs, h⟩

theorem fail {c : Cause} : Keeps J (fail c : Import α) P := by
  intro s a s' _ hok
  cases hok

theorem bind {f : α → Import β} {Q : β → Prop} (hm : Keeps J m P)
    (hf : ∀ a, P a → Keeps J (f a) Q) : Keeps J (m >>= f) Q := by
  intro s b s' hs hok
  obtain ⟨⟨a, t⟩, ha, hok⟩ := Result.bind_eq_ok.mp hok
  obtain ⟨ht, hP⟩ := hm s a t hs ha
  exact hf a hP t b s' ht hok

theorem imp {Q : α → Prop} (hm : Keeps J m P) (h : ∀ a, P a → Q a) : Keeps J m Q := by
  intro s a s' hs hok
  exact (hm s a s' hs hok).imp_right (h a)

theorem and_gives {Q : α → Prop} (hm : Keeps J m P) (hQ : Gives m Q) :
    Keeps J m fun a => P a ∧ Q a := by
  intro s a s' hs hok
  obtain ⟨hs', hP⟩ := hm s a s' hs hok
  exact ⟨hs', hP, hQ s a s' hok⟩

theorem ite {c : Prop} [Decidable c] {n : Import α} (hm : c → Keeps J m P)
    (hn : ¬ c → Keeps J n P) : Keeps J (if c then m else n) P := by
  by_cases hc : c
  · rw [if_pos hc]
    exact hm hc
  · rw [if_neg hc]
    exact hn hc

theorem within {position : Text} (hm : Keeps J m P) : Keeps J (within position m) P :=
  fun s a s' hs hok => hm s a s' hs (Result.within_eq_ok.mp hok)

theorem lift {r : Result α} : Keeps J (lift r) fun _ => True := by
  intro s a s' hs hok
  obtain ⟨_, _, heq⟩ := Result.map_eq_ok.mp hok
  cases heq
  exact ⟨hs, trivial⟩

theorem mapM {f : α → Import β} {xs : List α} {Q : α → β → Prop}
    (hf : ∀ x ∈ xs, Keeps J (f x) (Q x)) : Keeps J (xs.mapM f) (List.Forall₂ Q xs) := by
  induction xs with
  | nil =>
    rw [List.mapM_nil]
    exact .pure .nil
  | cons x xs ih =>
    rw [List.mapM_cons]
    refine .bind (hf x List.mem_cons_self) fun y hy => ?_
    refine .bind (ih fun z hz => hf z (List.mem_cons_of_mem _ hz)) fun ys hys => ?_
    exact .pure (.cons hy hys)

theorem mapM_all {f : α → Import β} {xs : List α} {Q : β → Prop}
    (hf : ∀ x ∈ xs, Keeps J (f x) Q) : Keeps J (xs.mapM f) fun ys => ∀ y ∈ ys, Q y := by
  refine (Keeps.mapM hf).imp fun ys hys => ?_
  clear hf
  induction hys with
  | nil => exact nofun
  | cons hy _ ih => exact List.forall_mem_cons.mpr ⟨hy, ih⟩

theorem eachIndexed {f : Nat → Schema → Import β} {i : Nat} {xs : List Schema} {Q : β → Prop}
    (hf : ∀ i, ∀ x ∈ xs, Keeps J (f i x) Q) :
    Keeps J (eachIndexed f i xs) fun ys => ∀ y ∈ ys, Q y := by
  rw [eachIndexed_eq_mapM]
  exact .mapM_all fun p hp => hf p.2 p.1 (List.fst_mem_of_mem_zipIdx hp)

theorem forM {f : α → Import PUnit} {xs : List α} (hf : ∀ x ∈ xs, Keeps J (f x) fun _ => True) :
    Keeps J (xs.forM f) fun _ => True := by
  induction xs with
  | nil => exact .pure trivial
  | cons x xs ih =>
    exact .bind (hf x List.mem_cons_self) fun _ _ =>
      ih fun y hy => hf y (List.mem_cons_of_mem _ hy)

theorem modify {f : Importing → Importing} (h : ∀ s, J s → J (f s)) :
    Keeps J (modify f : Import PUnit) fun _ => True := by
  rintro s a s' hs ⟨⟩
  exact ⟨h s hs, trivial⟩

theorem unique {hint : Text} {N : Text → Prop}
    (h : ∀ s, J s → J { s with used := freshName hint s.used :: s.used } ∧
      N (freshName hint s.used)) : Keeps J (unique hint) N := by
  rintro s a s' hs ⟨⟩
  exact h s hs

end Keeps

/-! ### Names and lists of properties -/

/-- What holds of the names and the lists of properties that an import works with: `I` of the names
taken so far, `R` of the tasks come to. -/
structure Materials (root : Schema) (R : Task → Prop) (I : List Text → Prop) (N : Text → Prop)
    (L Q : List Property → Prop) : Prop where
  needs : ∀ {t u : Task}, R t → t.Needs u → R u
  definition : ∀ {k : String}, (root.def? k).isSome = true → N (Text.ofString k)
  builtIn : ∀ s : Schema, N s.builtInType
  fresh : ∀ {used : List Text} (hint : Text), I used →
    I (freshName hint used :: used) ∧ N (freshName hint used)
  none : L []
  model : ∀ {s : Schema} {ps : List Property}, R (.declare s) → s.isModelled = true →
    ps.map Property.slot = s.pieces.flatMap Schema.slots → L ps
  object : ∀ {s : Schema} {ps : List Property}, R (.refer s) →
    ps.map Property.slot = s.slots → Q ps

/-- The invariant of an import that works with such names and lists. -/
def Sound (I : List Text → Prop) (N : Text → Prop) (L Q : List Property → Prop) (s : Importing) :
    Prop := I s.used ∧ s.document.MadeOf N L Q

section Steps
variable {root : Schema} {R : Task → Prop} {I : List Text → Prop} {N : Text → Prop}
  {L Q : List Property → Prop} {fuel : Nat}

theorem addScalar_keeps {d : ScalarDecl} (hencode : d.encode = none) (hbase : N d.base) :
    Keeps (Sound I N L Q) (addScalar d) fun _ => True := by
  refine .modify fun s hs => ⟨hs.1, { hs.2 with scalars := List.forall_mem_append.mpr ?_ }⟩
  exact ⟨hs.2.scalars, List.forall_mem_singleton.mpr ⟨hencode, hbase⟩⟩

theorem addModel_keeps {d : ModelDecl} (hd : d.MadeOf N L Q) :
    Keeps (Sound I N L Q) (addModel d) fun _ => True := by
  refine .modify fun s hs => ⟨hs.1, { hs.2 with models := List.forall_mem_append.mpr ?_ }⟩
  exact ⟨hs.2.models, List.forall_mem_singleton.mpr hd⟩

theorem addEnum_keeps {d : EnumDecl} : Keeps (Sound I N L Q) (addEnum d) fun _ => True :=
  .modify fun _ hs => ⟨hs.1, { hs.2 with }⟩

theorem addUnion_keeps {name : Text} {doc : String} {types : List TypeRef}
    (htypes : ∀ t ∈ types, t.MadeOf N Q) :
    Keeps (Sound I N L Q) (addUnion (unionOf name doc types)) fun _ => True := by
  have hunion : ∀ v ∈ (unionOf name doc types).variants, v.type.MadeOf N Q := by
    intro v hv
    obtain ⟨t, ht, rfl⟩ := List.mem_map.mp hv
    exact htypes t ht
  refine .modify fun s hs => ⟨hs.1, { hs.2 with unions := List.forall_mem_append.mpr ?_ }⟩
  exact ⟨hs.2.unions, List.forall_mem_singleton.mpr hunion⟩

theorem declareEnum_keeps (name : Text) (s : Schema) :
    Keeps (Sound I N L Q) (declareEnum name s) fun _ => True := by
  refine .bind .lift fun values _ => .ite (fun _ => addEnum_keeps) fun _ => addUnion_keeps ?_
  intro t ht
  obtain ⟨v, _, rfl⟩ := List.mem_map.mp ht
  exact .literal

variable (M : Materials root R I N L Q)
include M

theorem declareScalar_keeps (name : Text) (s : Schema) :
    Keeps (Sound I N L Q) (declareScalar name s) fun _ => True :=
  .ite (fun _ => addScalar_keeps rfl (M.builtIn s)) fun _ => .fail

theorem refType_keeps (s : Schema) :
    Keeps (Sound I N L Q) (refType root s) fun t => ∃ x, N x ∧ t = TypeRef.named x := by
  unfold refType
  dsimp only
  split
  · exact .fail
  · rename_i name hname
    refine .ite (fun hsome => .pure ⟨name, ?_, rfl⟩) fun _ => .fail
    have hwhole := Reference.whole_defName? (Text.whole_ofString _) hname
    rw [← hwhole.ofString_toDisplay]
    exact M.definition hsome

theorem refType_keeps_madeOf (s : Schema) :
    Keeps (Sound I N L Q) (refType root s) fun t => t.MadeOf N Q := by
  refine (refType_keeps M s).imp ?_
  rintro t ⟨x, hx, rfl⟩
  exact .named hx

theorem declareAlias_keeps (name : Text) (s : Schema) :
    Keeps (Sound I N L Q) (declareAlias root name s) fun _ => True := by
  refine .bind (refType_keeps M s) ?_
  rintro _ ⟨x, hx, rfl⟩
  dsimp only
  split
  · exact .fail
  · exact .fail
  · refine .ite (fun _ => addModel_keeps ⟨nofun, ?_, M.none, nofun⟩) fun _ =>
      .ite (fun _ => addScalar_keeps rfl hx) fun _ => addUnion_keeps ?_
    · rintro t ⟨⟩
      exact .named hx
    · intro t ht
      obtain rfl := List.mem_singleton.mp ht
      exact .named hx

omit M in
/-- What every function of the importer does with some depth, if `R` holds of what it comes to. -/
structure Makes (root : Schema) (R : Task → Prop) (I : List Text → Prop) (N : Text → Prop)
    (L Q : List Property → Prop) (fuel : Nat) : Prop where
  declare : ∀ name s, R (.declare s) →
    Keeps (Sound I N L Q) (declare root fuel name s) fun _ => True
  model : ∀ name s, (∀ u ∈ Task.model s, R u) →
    Keeps (Sound I N L Q) (model root fuel name s) fun m =>
      (∀ t, m.base = some t → t.MadeOf N Q) ∧ (∀ t, m.source = some t → t.MadeOf N Q) ∧
        ∀ p ∈ m.properties, p.type.MadeOf N Q
  allParts : ∀ name parts base props,
    (∀ u ∈ (parts.filter Schema.isMixin).flatMap Task.fields, R u) →
    (∀ t, base = some t → t.MadeOf N Q) → (∀ p ∈ props, p.type.MadeOf N Q) →
    Keeps (Sound I N L Q) (allParts root fuel name parts base props) fun r =>
      (∀ t, r.1 = some t → t.MadeOf N Q) ∧ ∀ p ∈ r.2, p.type.MadeOf N Q
  properties : ∀ owner s, (∀ u ∈ Task.fields s, R u) →
    Keeps (Sound I N L Q) (properties root fuel owner s) fun ps => ∀ p ∈ ps, p.type.MadeOf N Q
  property : ∀ owner required key s, R (.refer s) →
    Keeps (Sound I N L Q) (property root fuel owner required key s) fun p => p.type.MadeOf N Q
  inlineRef : ∀ hint s, (∀ u ∈ Task.inline s, R u) →
    Keeps (Sound I N L Q) (inlineRef root fuel hint s) fun t => t.MadeOf N Q
  hoist : ∀ hint s, R (.declare s) →
    Keeps (Sound I N L Q) (hoist root fuel hint s) fun t => t.MadeOf N Q
  typeRef : ∀ hint s, R (.refer s) →
    Keeps (Sound I N L Q) (typeRef root fuel hint s) fun r => r.1.MadeOf N Q
  arrayRef : ∀ hint s, (∀ u ∈ s.elements.flatMap Task.inline, R u) →
    Keeps (Sound I N L Q) (arrayRef root fuel hint s) fun r => r.1.MadeOf N Q
  objectRef : ∀ hint s, R (.refer s) → (∀ u ∈ Task.object s, R u) →
    Keeps (Sound I N L Q) (objectRef root fuel hint s) fun r => r.1.MadeOf N Q
  variants : ∀ hint s, (∀ u ∈ s.alternatives.flatMap Task.inline, R u) →
    Keeps (Sound I N L Q) (variants root fuel hint s) fun ts => ∀ t ∈ ts, t.MadeOf N Q

omit M in
theorem makes_zero : Makes root R I N L Q 0 := by
  constructor <;> intros <;> exact .fail

namespace Makes
variable {s : Schema}

theorem declare_succ (h : Makes root R I N L Q fuel) (name : Text) (hs : R (.declare s)) :
    Keeps (Sound I N L Q) (Import.declare root (fuel + 1) name s) fun _ => True := by
  have hneeds : ∀ u ∈ (Task.declare s).needs, R u := fun u hu => M.needs hs hu
  rw [Task.needs] at hneeds
  cases s with
  | null => exact .fail
  | node k cs =>
    refine .ite (fun _ => declareAlias_keeps M _ _) fun href => ?_
    refine .ite (fun _ => declareEnum_keeps _ _) fun henum => ?_
    rw [if_neg (by simpa using And.intro href henum)] at hneeds
    refine .ite (fun hvariants => ?_) fun hvariants => ?_
    · rw [if_pos hvariants] at hneeds
      exact .bind (h.variants _ _ hneeds) fun types htypes => addUnion_keeps htypes
    rw [if_neg hvariants] at hneeds
    refine .ite (fun harray => ?_) fun harray => ?_
    · rw [if_pos harray] at hneeds
      refine .bind (h.typeRef _ _ (hneeds _ List.mem_cons_self)) fun r hr => ?_
      refine .ite (fun _ => addUnion_keeps ?_) fun _ =>
        addModel_keeps ⟨by simp, ?_, M.none, by simp⟩
      · exact List.forall_mem_singleton.mpr hr
      · rintro t ⟨⟩
        exact hr
    rw [if_neg harray] at hneeds
    refine .ite (fun hmodel => ?_) fun _ => declareScalar_keeps M _ _
    rw [if_pos hmodel] at hneeds
    refine .bind ((h.model _ _ hneeds).and_gives (model_slots _ _)) ?_
    rintro m ⟨⟨hbase, hsource, hproperties⟩, hslots⟩
    have hmodelled : (Schema.node k cs).isModelled = true := by
      unfold Schema.isModelled
      simp_all
    exact addModel_keeps ⟨hbase, hsource, M.model hs hmodelled hslots, hproperties⟩

omit M in
theorem model_succ (h : Makes root R I N L Q fuel) (name : Text) (hs : ∀ u ∈ Task.model s, R u) :
    Keeps (Sound I N L Q) (Import.model root (fuel + 1) name s) fun m =>
      (∀ t, m.base = some t → t.MadeOf N Q) ∧ (∀ t, m.source = some t → t.MadeOf N Q) ∧
        ∀ p ∈ m.properties, p.type.MadeOf N Q := by
  obtain ⟨hfields, hextra⟩ := List.forall_mem_append.mp hs
  obtain ⟨hparts, hown⟩ := List.forall_mem_append.mp hfields
  refine .bind (h.allParts _ _ _ _ hparts nofun nofun) ?_
  rintro ⟨base, inherited⟩ ⟨hbase, hinherited⟩
  refine .bind (h.properties _ _ hown) fun own hprops => ?_
  have hall : ∀ p ∈ inherited ++ own, p.type.MadeOf N Q :=
    List.forall_mem_append.mpr ⟨hinherited, hprops⟩
  dsimp only
  split
  · rw [pure_bind]
    exact .pure ⟨hbase, nofun, hall⟩
  · rename_i a ha
    rw [ha] at hextra
    refine .bind (h.inlineRef _ a (by simpa using hextra)) fun value hvalue => ?_
    rw [pure_bind]
    refine .pure ⟨hbase, ?_, hall⟩
    rintro t ⟨⟩
    exact .record hvalue

theorem allParts_succ (h : Makes root R I N L Q fuel) (name : Text) {parts : List Schema}
    {base : Option TypeRef} {props : List Property}
    (hs : ∀ u ∈ (parts.filter Schema.isMixin).flatMap Task.fields, R u)
    (hbase : ∀ t, base = some t → t.MadeOf N Q) (hprops : ∀ p ∈ props, p.type.MadeOf N Q) :
    Keeps (Sound I N L Q) (Import.allParts root (fuel + 1) name parts base props) fun r =>
      (∀ t, r.1 = some t → t.MadeOf N Q) ∧ ∀ p ∈ r.2, p.type.MadeOf N Q := by
  cases parts with
  | nil => exact .pure ⟨hbase, hprops⟩
  | cons part rest =>
    refine .ite (fun _ => .fail) fun _ => .ite (fun href => ?_) fun href =>
      .ite (fun hobject => ?_) fun _ => .fail
    · have hmixin : part.isMixin = false := Schema.isMixin_of_ref href
      rw [List.filter_cons_of_neg (by simp [hmixin])] at hs
      refine .ite (fun _ => .fail) fun _ => .bind (refType_keeps_madeOf M part) fun b hb => ?_
      refine h.allParts _ _ _ _ hs ?_ hprops
      rintro t ⟨⟩
      exact hb
    · have hmixin : part.isMixin = true := Schema.isMixin_of_isObject href hobject
      rw [List.filter_cons_of_pos hmixin, List.flatMap_cons] at hs
      obtain ⟨hpart, hrest⟩ := List.forall_mem_append.mp hs
      refine .bind (h.properties _ _ hpart) fun own hown => ?_
      exact h.allParts _ _ _ _ hrest hbase (List.forall_mem_append.mpr ⟨hprops, hown⟩)

omit M in
theorem properties_succ (h : Makes root R I N L Q fuel) (owner : Text)
    (hs : ∀ u ∈ Task.fields s, R u) :
    Keeps (Sound I N L Q) (Import.properties root (fuel + 1) owner s) fun ps =>
      ∀ p ∈ ps, p.type.MadeOf N Q :=
  .mapM_all fun key hkey => h.property owner _ key _ (hs _ (List.mem_map_of_mem hkey))

omit M in
theorem property_succ (h : Makes root R I N L Q fuel) (owner : Text) (required : Bool) (key : String)
    (hs : R (.refer s)) :
    Keeps (Sound I N L Q) (Import.property root (fuel + 1) owner required key s) fun p =>
      p.type.MadeOf N Q := by
  refine .bind (.within (h.typeRef _ _ hs)) ?_
  rintro ⟨type, d⟩ htype
  dsimp only
  split
  · rw [pure_bind]
    exact .pure htype
  · refine .bind (.within .lift) fun v _ => ?_
    rw [pure_bind]
    exact .pure htype

omit M in
theorem inlineRef_succ (h : Makes root R I N L Q fuel) (hint : Text) (hs : ∀ u ∈ Task.inline s, R u) :
    Keeps (Sound I N L Q) (Import.inlineRef root (fuel + 1) hint s) fun t => t.MadeOf N Q := by
  have hrefer := h.typeRef hint s (hs _ List.mem_cons_self)
  refine .bind (hrefer.and_gives (typeRef_leftover hint s)) ?_
  rintro ⟨t, d⟩ ⟨ht, hleft⟩
  refine .ite (fun _ => .pure ht) fun hd => h.hoist hint s (hs _ ?_)
  rw [Task.inline, if_neg (by rwa [← hleft])]
  simp

theorem hoist_succ (h : Makes root R I N L Q fuel) (hint : Text) (hs : R (.declare s)) :
    Keeps (Sound I N L Q) (Import.hoist root (fuel + 1) hint s) fun t => t.MadeOf N Q := by
  have hname : Keeps (Sound I N L Q) (Import.unique hint) N := by
    refine .unique fun s hs => ?_
    obtain ⟨hused, hfresh⟩ := M.fresh hint hs.1
    exact ⟨⟨hused, hs.2⟩, hfresh⟩
  exact .bind hname fun name hname => .bind (h.declare name s hs) fun _ _ => .pure (.named hname)

theorem typeRef_succ (h : Makes root R I N L Q fuel) (hint : Text) (hs : R (.refer s)) :
    Keeps (Sound I N L Q) (Import.typeRef root (fuel + 1) hint s) fun r => r.1.MadeOf N Q := by
  have hneeds : ∀ u ∈ (Task.refer s).needs, R u := fun u hu => M.needs hs hu
  rw [Task.needs] at hneeds
  have hhoist : R (.declare s) → Keeps (Sound I N L Q)
      (do let t ← Import.hoist root fuel hint s; pure (t, {}))
      fun (r : TypeRef × Decorators) => r.1.MadeOf N Q := fun hs =>
    .bind (h.hoist hint s hs) fun t ht => .pure ht
  cases s with
  | null => exact .fail
  | node k cs =>
    refine .ite (fun _ => .bind (refType_keeps_madeOf M _) fun t ht => .pure ht) fun href => ?_
    refine .ite (fun _ => .bind .lift fun values _ => ?_) fun henum => ?_
    · split
      · exact .pure .literal
      · refine .pure (.union fun t ht => ?_)
        obtain ⟨v, _, rfl⟩ := List.mem_map.mp ht
        exact .literal
    rw [if_neg (by simpa using And.intro href henum)] at hneeds
    refine .ite (fun hvariants => ?_) fun hvariants => ?_
    · rw [if_pos hvariants] at hneeds
      refine .bind (h.variants _ _ hneeds) fun types htypes => ?_
      split
      · exact .pure (htypes _ List.mem_cons_self)
      · exact .pure (.union htypes)
    rw [if_neg hvariants] at hneeds
    generalize (Schema.node k cs).parts = parts at hneeds ⊢
    rcases parts with _ | ⟨part, _ | ⟨second, rest⟩⟩
    · dsimp only at hneeds
      refine .ite (fun harray => ?_) fun harray => .ite (fun hobject => ?_) fun _ => ?_
      · rw [if_pos harray] at hneeds
        exact h.arrayRef _ _ hneeds
      · rw [if_neg harray, if_pos hobject] at hneeds
        exact h.objectRef _ _ hs hneeds
      · exact .pure (.named (M.builtIn _))
    · dsimp only at hneeds
      refine .ite (fun hobject => ?_) fun hobject => ?_
      · rw [if_pos hobject] at hneeds
        exact hhoist (hneeds _ List.mem_cons_self)
      · rw [if_neg hobject] at hneeds
        exact h.typeRef _ _ (hneeds _ List.mem_cons_self)
    · exact hhoist (hneeds _ List.mem_cons_self)

theorem arrayRef_succ (h : Makes root R I N L Q fuel) (hint : Text)
    (hs : ∀ u ∈ s.elements.flatMap Task.inline, R u) :
    Keeps (Sound I N L Q) (Import.arrayRef root (fuel + 1) hint s) fun r => r.1.MadeOf N Q := by
  have hall : ∀ c ∈ s.elements, ∀ hint, Keeps (Sound I N L Q) (Import.inlineRef root fuel hint c)
      fun t => t.MadeOf N Q :=
    fun c hc hint => h.inlineRef hint c fun u hu => hs u (List.mem_flatMap.mpr ⟨c, hc, hu⟩)
  unfold Schema.elements at hall
  rw [Import.arrayRef]
  split
  · rename_i hnone
    rw [hnone] at hall
    split
    · rw [pure_bind]
      exact .pure (.array (.named (M.builtIn .blank)))
    · rename_i item hitem
      exact .bind (hall item (by simp [hitem]) _) fun elem helem => .pure (.array helem)
  · rename_i hsome
    split at hall
    · contradiction
    · refine .bind (.eachIndexed fun i c hc => hall c hc _) fun elems helems => ?_
      exact .pure (.tuple helems)

theorem objectRef_succ (h : Makes root R I N L Q fuel) (hint : Text) (hself : R (.refer s))
    (hs : ∀ u ∈ Task.object s, R u) :
    Keeps (Sound I N L Q) (Import.objectRef root (fuel + 1) hint s) fun r => r.1.MadeOf N Q := by
  unfold Task.object at hs
  rw [Import.objectRef]
  split
  · rename_i a ha
    rw [ha] at hs
    refine .ite (fun hkeys => ?_) fun hkeys => ?_
    · dsimp only at hs
      rw [if_pos hkeys] at hs
      exact .bind (h.inlineRef _ _ hs) fun value hvalue => .pure (.record hvalue)
    · dsimp only at hs
      rw [if_neg hkeys] at hs
      exact .bind (h.hoist _ _ (hs _ List.mem_cons_self)) fun t ht => .pure ht
  · rename_i hnone
    rw [hnone] at hs
    refine .bind ((h.properties _ _ hs).and_gives (properties_slots _ _)) ?_
    rintro props ⟨hprops, hslots⟩
    exact .pure (.object (M.object hself hslots) hprops)

theorem variants_succ (h : Makes root R I N L Q fuel) (hint : Text)
    (hs : ∀ u ∈ s.alternatives.flatMap Task.inline, R u) :
    Keeps (Sound I N L Q) (Import.variants root (fuel + 1) hint s) fun ts =>
      ∀ t ∈ ts, t.MadeOf N Q := by
  have hall : ∀ c ∈ s.alternatives, ∀ hint, Keeps (Sound I N L Q) (Import.inlineRef root fuel hint c)
      fun t => t.MadeOf N Q :=
    fun c hc hint => h.inlineRef hint c fun u hu => hs u (List.mem_flatMap.mpr ⟨c, hc, hu⟩)
  refine .bind (.eachIndexed fun i c hc => hall c (List.mem_append_left _ hc) _) fun ts hts => ?_
  refine .bind (.mapM_all (Q := fun t => t.MadeOf N Q) fun type htype =>
    .ite (fun _ => ?_) fun hnull => ?_) fun us hus => ?_
  · exact .pure (.named (M.builtIn (.node { type := "null" } [])))
  · refine hall _ (List.mem_append_right _ (List.mem_map_of_mem ?_)) _
    exact List.mem_filter.mpr ⟨htype, by simpa using hnull⟩
  · exact .pure (List.forall_mem_append.mpr ⟨hts, hus⟩)

end Makes

theorem makes (fuel : Nat) : Makes root R I N L Q fuel := by
  induction fuel with
  | zero => exact makes_zero
  | succ fuel ih =>
    exact
      { declare := fun name _ hs => ih.declare_succ M name hs
        model := fun name _ hs => ih.model_succ name hs
        allParts := fun name _ _ _ hs => ih.allParts_succ M name hs
        properties := fun owner _ hs => ih.properties_succ owner hs
        property := fun owner required key _ hs => ih.property_succ owner required key hs
        inlineRef := fun hint _ hs => ih.inlineRef_succ hint hs
        hoist := fun hint _ hs => ih.hoist_succ M hint hs
        typeRef := fun hint _ hs => ih.typeRef_succ M hint hs
        arrayRef := fun hint _ hs => ih.arrayRef_succ M hint hs
        objectRef := fun hint _ hself hs => ih.objectRef_succ M hint hself hs
        variants := fun hint _ hs => ih.variants_succ M hint hs }

/-- The state an import ends in is sound, if it starts with names that `I` holds of. -/
theorem sound_document {name : Text} {s : Importing} (hR : ∀ t ∈ root.tasks, R t)
    (hI : I (root.orderedDefs.map Text.ofString)) (h : document root name {} = .ok ((), s)) :
    Sound I N L Q s := by
  have hdeclare : ∀ name s, Task.declare s ∈ root.tasks →
      Keeps (Sound I N L Q) (declare root (fuelFor root) name s) fun _ => True :=
    fun name s hs => (makes M (fuelFor root)).declare name s (hR _ hs)
  unfold document at h
  cases hnull : root.isNull with
  | true =>
    rw [hnull] at h
    cases h
  | false =>
    rw [hnull] at h
    obtain ⟨⟨_, mid⟩, hmid, h⟩ := Result.bind_eq_ok.mp h
    have hdefs : Keeps (Sound I N L Q) (root.orderedDefs.forM fun n =>
        within ("$defs/" ++ (Text.ofString n).mentioned)
          (declare root (fuelFor root) (Text.ofString n) ((root.def? n).getD .null)))
        fun _ => True := by
      refine .forM fun n hn => .within (hdeclare _ _ ?_)
      exact List.mem_append_left _ (List.mem_map_of_mem hn)
    have htail : Keeps (Sound I N L Q) (if root.isObject then do
          let fresh ← unique (if name.isEmpty then "Root" else name)
          within (Text.mentioned (if name.isEmpty then "Root" else name))
            (declare root (fuelFor root) fresh root)
        else pure ()) fun _ => True := by
      refine .ite (fun hobject => ?_) fun _ => .pure trivial
      have hroot : Task.declare root ∈ root.tasks := by
        rw [Schema.tasks, if_pos hobject]
        simp
      refine .bind (P := fun _ => True) (.unique fun s hs => ?_) fun _ _ =>
        .within (hdeclare _ _ hroot)
      exact ⟨⟨(M.fresh _ hs.1).1, hs.2⟩, trivial⟩
    obtain ⟨hmid, _⟩ := hdefs _ () mid ⟨hI, Document.madeOf_empty⟩ hmid
    exact (htail mid () s hmid h).1

end Steps

end Import

end SchemaLoom

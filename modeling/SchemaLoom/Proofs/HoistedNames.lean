import SchemaLoom.Proofs.Growth
import SchemaLoom.Proofs.Materials

/-!
# Names made on the way

A name that an import makes up is mentioned in the document, unless the reference it was made
for is dropped. That happens where no constraints can stand: there a schema is referred to
first, and if constraints are left over, it is declared instead. What the reference has made
up on the way stays behind unused.
-/

namespace SchemaLoom

set_option autoImplicit false

/-! ### References that are dropped -/

namespace Task

/-- The schemas a task refers to where no constraints can stand. -/
def inlined : Task → List Schema
  | declare s =>
    if !s.keywords.ref.isEmpty || s.isEnumerated then []
    else if s.hasVariants then s.alternatives
    else if s.isArray then []
    else if s.isObject || !s.parts.isEmpty then s.extraProperties?.toList
    else []
  | refer s =>
    if !s.keywords.ref.isEmpty || s.isEnumerated then []
    else if s.hasVariants then s.alternatives
    else if !s.parts.isEmpty then []
    else if s.isArray then s.elements
    else if s.isObject && s.propertyKeys.isEmpty then s.extraProperties?.toList
    else []

/-- A task comes to a declaration, be it itself. -/
def Hoists (t : Task) : Prop := ∃ s, Relation.ReflTransGen Needs t (.declare s)

theorem hoists_declare (s : Schema) : (declare s).Hoists := ⟨s, .refl⟩

theorem Needs.hoists {t u : Task} (h : t.Needs u) (hu : u.Hoists) : t.Hoists := by
  obtain ⟨s, hs⟩ := hu
  exact ⟨s, .head h hs⟩

theorem not_hoists_refer {s : Schema} (h : (refer s).needs = []) : ¬ (refer s).Hoists := by
  rintro ⟨s', hs'⟩
  rcases hs'.cases_head with heq | ⟨u, hu, _⟩
  · cases heq
  · rw [Needs, h] at hu
    cases hu

end Task

/-- A reference to the schema declares something and leaves constraints out, so it is dropped where
no constraints can stand. -/
def Schema.IsWasteful (s : Schema) : Prop :=
  s.leftover.isEmpty = false ∧ (Task.refer s).Hoists

/-- No reference that declares something is dropped. -/
def Task.Saves (t : Task) : Prop :=
  ∀ u, Relation.ReflTransGen Task.Needs t u → ∀ c ∈ u.inlined, ¬ c.IsWasteful

/-- No reference that declares something is dropped where the schema is referred to in its place. -/
structure Schema.Saves (s : Schema) : Prop where
  inline : ∀ u ∈ Task.inline s, u.Saves
  kept : ¬ s.IsWasteful

/-- Every declaration is made once: no reference that declares something is dropped. -/
def Schema.HoistsOnce (root : Schema) : Prop := ∀ t ∈ root.tasks, t.Saves

namespace Task.Saves
variable {t u : Task} {s c : Schema}

theorem needs (ht : t.Saves) (h : t.Needs u) : u.Saves := fun _ hv => ht _ (.head h hv)

theorem all_needs (ht : t.Saves) : ∀ u ∈ t.needs, u.Saves := fun _ hu => ht.needs hu

theorem step (hinlined : ∀ c ∈ t.inlined, ¬ c.IsWasteful) (hneeds : ∀ u ∈ t.needs, u.Saves) :
    t.Saves := by
  intro u hu
  rcases hu.cases_head with rfl | ⟨v, hv, hu⟩
  · exact hinlined
  · exact hneeds v hv u hu

theorem inlined (ht : t.Saves) (hinline : ∀ u ∈ Task.inline c, t.Needs u) (hc : c ∈ t.inlined) :
    c.Saves := ⟨fun _ hu => ht.needs (hinline _ hu), ht t .refl c hc⟩

end Task.Saves

/-! ### Names that are mentioned -/

section Mentions
variable {x : Text}

/-- A name stands somewhere in a model. -/
def ModelDecl.Mentions (x : Text) (m : ModelDecl) : Prop :=
  (∃ t, m.base = some t ∧ t.Mentions x) ∨ (∃ t, m.source = some t ∧ t.Mentions x) ∨
    ∃ p ∈ m.properties, p.type.Mentions x

theorem Document.Mentions.mono {d e : Document} (h : d.Mentions x) (hde : d.Grows e) :
    e.Mentions x := by
  cases h with
  | scalarBase hs heq hne => exact .scalarBase (hde.scalars.subset hs) heq hne
  | encoding hs he heq hne => exact .encoding (hde.scalars.subset hs) he heq hne
  | modelBase hm ht hx => exact .modelBase (hde.models.subset hm) ht hx
  | source hm ht hx => exact .source (hde.models.subset hm) ht hx
  | property hm hp hx => exact .property (hde.models.subset hm) hp hx
  | variant hu hv hx => exact .variant (hde.unions.subset hu) hv hx

theorem mentions_named (hx : x ≠ []) : (TypeRef.named x).Mentions x := .name rfl hx

end Mentions

namespace Import

variable {α β : Type}

/-- A name made up from a hint begins with it. -/
theorem prefix_freshName (hint : Text) (used : List Text) : hint <+: freshName hint used := by
  have hnumbered : ∀ fuel i, hint <+: numbered hint used fuel i := by
    intro fuel
    induction fuel with
    | zero => exact fun i => List.prefix_append _ _
    | succ fuel ih =>
      intro i
      rw [numbered]
      split
      · exact ih (i + 1)
      · exact List.prefix_append _ _
  unfold freshName
  split
  · exact hnumbered _ _
  · exact List.prefix_rfl

theorem prefix_unique (hint : Text) : Gives (unique hint) fun name => hint <+: name := by
  rintro s a s' ⟨⟩
  exact prefix_freshName hint s.used

/-- The name is not taken, or it is mentioned. -/
def Accounted (x : Text) (s : Importing) : Prop := x ∈ s.used → s.document.Mentions x

/-- If the name is accounted for before the steps or `c` holds, then the name is accounted for after
them or `P` holds of the result. -/
def Tracks (x : Text) (c : Prop) (m : Import α) (P : α → Prop) : Prop :=
  ∀ s a s', Accounted x s ∨ c → m s = .ok (a, s') → Accounted x s' ∨ P a

namespace Tracks
variable {x : Text} {c : Prop} {m : Import α} {P : α → Prop}

theorem pure {a : α} (h : c → P a) : Tracks x c (pure a) P := by
  intro s b s' hs hok
  cases hok
  exact hs.imp_right h

theorem fail {e : Cause} : Tracks x c (fail e : Import α) P := by
  intro s a s' _ hok
  cases hok

theorem bind {f : α → Import β} {Q : β → Prop} (hm : Tracks x c m P)
    (hf : ∀ a, Tracks x (P a) (f a) Q) : Tracks x c (m >>= f) Q := by
  intro s b s' hs hok
  obtain ⟨⟨a, t⟩, ha, hok⟩ := Result.bind_eq_ok.mp hok
  exact hf a t b s' (hm s a t hs ha) hok

theorem bind_gives {f : α → Import β} {G : α → Prop} {Q : β → Prop} (hm : Tracks x c m P)
    (hG : Gives m G) (hf : ∀ a, G a → Tracks x (P a) (f a) Q) : Tracks x c (m >>= f) Q := by
  intro s b s' hs hok
  obtain ⟨⟨a, t⟩, ha, hok⟩ := Result.bind_eq_ok.mp hok
  exact hf a (hG s a t ha) t b s' (hm s a t hs ha) hok

theorem of_imp {c' : Prop} (hm : Tracks x c m P) (h : c' → c) : Tracks x c' m P :=
  fun s a s' hs hok => hm s a s' (hs.imp_right h) hok

theorem of_false (hm : Tracks x c m P) : Tracks x False m P := hm.of_imp False.elim

theorem imp {Q : α → Prop} (hm : Tracks x c m P) (h : ∀ a, P a → Q a) : Tracks x c m Q :=
  fun s a s' hs hok => (hm s a s' hs hok).imp_right (h a)

/-- What is held beside the steps is still held after them. -/
theorem beside (hm : Tracks x False m P) : Tracks x c m fun a => P a ∨ c := by
  rintro s a s' (hs | hc) hok
  · exact (hm s a s' (.inl hs) hok).imp_right .inl
  · exact .inr (.inr hc)

theorem ite {b : Prop} [Decidable b] {n : Import α} (hm : b → Tracks x c m P)
    (hn : ¬ b → Tracks x c n P) : Tracks x c (if b then m else n) P := by
  by_cases hb : b
  · rw [if_pos hb]
    exact hm hb
  · rw [if_neg hb]
    exact hn hb

theorem within {position : Text} (hm : Tracks x c m P) : Tracks x c (within position m) P :=
  fun s a s' hs hok => hm s a s' hs (Result.within_eq_ok.mp hok)

theorem lift {r : Result α} : Tracks x c (lift r) fun _ => c := by
  intro s a s' hs hok
  obtain ⟨_, _, heq⟩ := Result.map_eq_ok.mp hok
  cases heq
  exact hs

/-- The name is in one of the results; `H` tells of the element this comes from. -/
theorem mapM {f : α → Import β} {xs : List α} {Q : β → Prop} {H : α → Prop}
    (hf : ∀ y ∈ xs, Tracks x False (f y) fun b => Q b ∧ H y) :
    Tracks x False (xs.mapM f) fun bs => (∃ b ∈ bs, Q b) ∧ ∃ y ∈ xs, H y := by
  induction xs with
  | nil =>
    rw [List.mapM_nil]
    exact .pure False.elim
  | cons y ys ih =>
    rw [List.mapM_cons]
    refine .bind (hf y List.mem_cons_self) fun b => ?_
    refine .bind (ih fun z hz => hf z (List.mem_cons_of_mem _ hz)).beside fun bs => .pure ?_
    rintro (⟨⟨b', hb', hQ⟩, z, hz, hH⟩ | ⟨hQ, hH⟩)
    · exact ⟨⟨b', List.mem_cons_of_mem _ hb', hQ⟩, z, List.mem_cons_of_mem _ hz, hH⟩
    · exact ⟨⟨b, List.mem_cons_self, hQ⟩, y, List.mem_cons_self, hH⟩

theorem eachIndexed {f : Nat → Schema → Import β} {i : Nat} {xs : List Schema} {Q : β → Prop}
    {H : Schema → Prop} (hf : ∀ i, ∀ y ∈ xs, Tracks x False (f i y) fun b => Q b ∧ H y) :
    Tracks x False (eachIndexed f i xs) fun bs => (∃ b ∈ bs, Q b) ∧ ∃ y ∈ xs, H y := by
  rw [eachIndexed_eq_mapM]
  refine (Tracks.mapM (H := fun p => H p.1) fun p hp =>
    hf p.2 p.1 (List.fst_mem_of_mem_zipIdx hp)).imp ?_
  rintro bs ⟨hbs, p, hp, hH⟩
  exact ⟨hbs, p.1, List.fst_mem_of_mem_zipIdx hp, hH⟩

theorem forM {f : α → Import PUnit} {xs : List α}
    (hf : ∀ y ∈ xs, Tracks x False (f y) fun _ => False) :
    Tracks x False (xs.forM f) fun _ => False := by
  induction xs with
  | nil => exact .pure id
  | cons y ys ih =>
    exact .bind (hf y List.mem_cons_self) fun _ => ih fun z hz => hf z (List.mem_cons_of_mem _ hz)

/-- What the added declaration mentions is accounted for. -/
theorem adds (add : Document → Document) (hgrows : ∀ d : Document, d.Grows (add d))
    (hadd : c → ∀ d, (add d).Mentions x) :
    Tracks x c (modify fun s => { s with document := add s.document } : Import PUnit)
      fun _ => False := by
  rintro s a s' hs ⟨⟩
  refine .inl fun hused => ?_
  rcases hs with hs | hc
  · exact (hs hused).mono (hgrows _)
  · exact hadd hc _

theorem unique {hint : Text} (hhint : x = [] → hint ≠ []) :
    Tracks x False (unique hint) fun name => name = x ∧ x ≠ [] := by
  rintro s a s' (hs | ⟨⟨⟩⟩) ⟨⟩
  by_cases hname : freshName hint s.used = x
  · refine .inr ⟨hname, fun hx => ?_⟩
    subst hx
    exact hhint rfl (List.prefix_nil.mp (hname ▸ prefix_freshName hint s.used))
  · refine .inl fun hused => hs ?_
    rcases List.mem_cons.mp hused with rfl | hused
    · exact absurd rfl hname
    · exact hused

end Tracks

section Steps
variable {root : Schema} {x : Text} {fuel : Nat}

theorem addScalar_tracks (d : ScalarDecl) :
    Tracks x (d.base = x ∧ x ≠ []) (addScalar d) fun _ => False := by
  refine .adds (fun doc => { doc with scalars := doc.scalars ++ [d] })
    (fun d => { Document.Grows.refl d with scalars := List.prefix_append _ _ }) ?_
  rintro ⟨hbase, hne⟩ _
  exact .scalarBase (List.mem_append_right _ List.mem_cons_self) hbase hne

theorem addModel_tracks (m : ModelDecl) :
    Tracks x (m.Mentions x) (addModel m) fun _ => False := by
  refine .adds (fun doc => { doc with models := doc.models ++ [m] })
    (fun d => { Document.Grows.refl d with models := List.prefix_append _ _ }) ?_
  intro hm d
  have hmem : m ∈ d.models ++ [m] := List.mem_append_right _ List.mem_cons_self
  rcases hm with ⟨t, ht, hx⟩ | ⟨t, ht, hx⟩ | ⟨p, hp, hx⟩
  · exact .modelBase hmem ht hx
  · exact .source hmem ht hx
  · exact .property hmem hp hx

theorem addEnum_tracks (d : EnumDecl) : Tracks x False (addEnum d) fun _ => False :=
  .adds (fun doc => { doc with enums := doc.enums ++ [d] })
    (fun d => { Document.Grows.refl d with enums := List.prefix_append _ _ }) False.elim

theorem addUnion_tracks (name : Text) (doc : String) (types : List TypeRef) :
    Tracks x (∃ t ∈ types, t.Mentions x) (addUnion (unionOf name doc types)) fun _ => False := by
  refine .adds (fun d => { d with unions := d.unions ++ [unionOf name doc types] })
    (fun d => { Document.Grows.refl d with unions := List.prefix_append _ _ }) ?_
  rintro ⟨t, ht, hx⟩ _
  exact .variant (List.mem_append_right _ List.mem_cons_self) (List.mem_map_of_mem ht) hx

theorem declareEnum_tracks (name : Text) (s : Schema) :
    Tracks x False (declareEnum name s) fun _ => False :=
  .bind .lift fun _ => .ite (fun _ => addEnum_tracks _) fun _ => (addUnion_tracks _ _ _).of_false

theorem declareScalar_tracks (name : Text) (s : Schema) :
    Tracks x False (declareScalar name s) fun _ => False :=
  .ite (fun _ => (addScalar_tracks _).of_false) fun _ => .fail

theorem refType_tracks (s : Schema) : Tracks x False (refType root s) fun _ => False := by
  unfold refType
  dsimp only
  split
  · exact .fail
  · exact .ite (fun _ => .pure id) fun _ => .fail

theorem declareAlias_tracks (name : Text) (s : Schema) :
    Tracks x False (declareAlias root name s) fun _ => False := by
  refine .bind (refType_tracks s) fun target => ?_
  dsimp only
  split
  · exact .fail
  · exact .fail
  · exact .ite (fun _ => (addModel_tracks _).of_false) fun _ =>
      .ite (fun _ => (addScalar_tracks _).of_false) fun _ => (addUnion_tracks _ _ _).of_false

/-- What every function of the importer does with a name it may make up, if no reference that
declares something is dropped: then the name is in its result, and a declaration was come to. -/
structure Spends (root : Schema) (x : Text) (fuel : Nat) : Prop where
  declare : ∀ name s, (x = [] → name ≠ []) → (Task.declare s).Saves →
    Tracks x False (declare root fuel name s) fun _ => False
  model : ∀ name s, (x = [] → name ≠ []) → (∀ u ∈ Task.model s, u.Saves) →
    (∀ a, s.extraProperties? = some a → a.Saves) →
    Tracks x False (model root fuel name s) fun m => m.Mentions x
  allParts : ∀ name parts base props, (x = [] → name ≠ []) →
    (∀ u ∈ (parts.filter Schema.isMixin).flatMap Task.fields, u.Saves) →
    Tracks x ((∃ t, base = some t ∧ t.Mentions x) ∨ ∃ p ∈ props, p.type.Mentions x)
      (allParts root fuel name parts base props)
      fun r => (∃ t, r.1 = some t ∧ t.Mentions x) ∨ ∃ p ∈ r.2, p.type.Mentions x
  properties : ∀ owner s, (x = [] → owner ≠ []) → (∀ u ∈ Task.fields s, u.Saves) →
    Tracks x False (properties root fuel owner s) fun ps =>
      (∃ p ∈ ps, p.type.Mentions x) ∧ ∃ u ∈ Task.fields s, u.Hoists
  property : ∀ owner required key s, (x = [] → owner ≠ []) → (Task.refer s).Saves →
    Tracks x False (property root fuel owner required key s) fun p =>
      p.type.Mentions x ∧ (Task.refer s).Hoists
  inlineRef : ∀ hint s, (x = [] → hint ≠ []) → s.Saves →
    Tracks x False (inlineRef root fuel hint s) fun t =>
      t.Mentions x ∧ ∃ u ∈ Task.inline s, u.Hoists
  hoist : ∀ hint s, (x = [] → hint ≠ []) → (Task.declare s).Saves →
    Tracks x False (hoist root fuel hint s) fun t => t.Mentions x
  typeRef : ∀ hint s, (x = [] → hint ≠ []) → (Task.refer s).Saves →
    Tracks x False (typeRef root fuel hint s) fun r => r.1.Mentions x ∧ (Task.refer s).Hoists
  arrayRef : ∀ hint s, (x = [] → hint ≠ []) → (∀ c ∈ s.elements, c.Saves) →
    Tracks x False (arrayRef root fuel hint s) fun r =>
      r.1.Mentions x ∧ ∃ c ∈ s.elements, ∃ u ∈ Task.inline c, u.Hoists
  objectRef : ∀ hint s, (x = [] → hint ≠ []) → (∀ u ∈ Task.object s, u.Saves) →
    (∀ a, s.extraProperties? = some a → s.propertyKeys.isEmpty → a.Saves) →
    Tracks x False (objectRef root fuel hint s) fun r =>
      r.1.Mentions x ∧ ∃ u ∈ Task.object s, u.Hoists
  variants : ∀ hint s, (x = [] → hint ≠ []) → (∀ c ∈ s.alternatives, c.Saves) →
    Tracks x False (variants root fuel hint s) fun ts =>
      (∃ t ∈ ts, t.Mentions x) ∧ ∃ c ∈ s.alternatives, ∃ u ∈ Task.inline c, u.Hoists

theorem spends_zero : Spends root x 0 := by
  constructor <;> intros <;> exact .fail

/-- A longer hint is as good as a hint. -/
theorem append_ne_nil {hint : Text} (h : x = [] → hint ≠ []) (more : Text) :
    x = [] → hint ++ more ≠ [] := fun hx => by simp [h hx]

namespace Spends
variable {s : Schema}

theorem hoist_succ (h : Spends root x fuel) {hint : Text} (hhint : x = [] → hint ≠ [])
    (hs : (Task.declare s).Saves) :
    Tracks x False (Import.hoist root (fuel + 1) hint s) fun t => t.Mentions x := by
  refine .bind_gives (.unique hhint) (prefix_unique hint) fun name hname => ?_
  have hne : x = [] → name ≠ [] := fun hx hnil => hhint hx (List.prefix_nil.mp (hnil ▸ hname))
  refine .bind (h.declare name s hne hs).beside fun _ => .pure ?_
  rintro (⟨⟨⟩⟩ | ⟨rfl, hne⟩)
  exact mentions_named hne

theorem inlineRef_succ (h : Spends root x fuel) {hint : Text} (hhint : x = [] → hint ≠ [])
    (hs : s.Saves) :
    Tracks x False (Import.inlineRef root (fuel + 1) hint s) fun t =>
      t.Mentions x ∧ ∃ u ∈ Task.inline s, u.Hoists := by
  have hrefer := h.typeRef hint s hhint (hs.inline _ List.mem_cons_self)
  refine .bind_gives hrefer (typeRef_leftover hint s) ?_
  rintro ⟨t, d⟩ hleft
  refine .ite (fun _ => .pure ?_) fun hd => ?_
  · rintro ⟨ht, hhoists⟩
    exact ⟨ht, _, List.mem_cons_self, hhoists⟩
  · -- the reference is dropped, and nothing was declared for it
    have hleftover : s.leftover.isEmpty = false := by
      rw [← hleft]
      exact Bool.eq_false_iff.mpr hd
    have hmem : Task.declare s ∈ Task.inline s := by
      rw [Task.inline, hleftover]
      simp
    refine .imp ((h.hoist hint s hhint (hs.inline _ hmem)).of_imp ?_) fun t ht =>
      ⟨ht, _, hmem, Task.hoists_declare s⟩
    rintro ⟨_, hhoists⟩
    exact hs.kept ⟨hleftover, hhoists⟩

theorem property_succ (h : Spends root x fuel) {owner : Text} (howner : x = [] → owner ≠ [])
    (required : Bool) (key : String) (hs : (Task.refer s).Saves) :
    Tracks x False (Import.property root (fuel + 1) owner required key s) fun p =>
      p.type.Mentions x ∧ (Task.refer s).Hoists := by
  refine .bind (.within (h.typeRef _ _ (append_ne_nil howner _) hs)) fun r => ?_
  dsimp only
  split
  · rw [pure_bind]
    exact .pure id
  · refine .bind (.within .lift) fun v => ?_
    rw [pure_bind]
    exact .pure id

theorem properties_succ (h : Spends root x fuel) {owner : Text} (howner : x = [] → owner ≠ [])
    (hs : ∀ u ∈ Task.fields s, u.Saves) :
    Tracks x False (Import.properties root (fuel + 1) owner s) fun ps =>
      (∃ p ∈ ps, p.type.Mentions x) ∧ ∃ u ∈ Task.fields s, u.Hoists := by
  rw [Import.properties]
  refine (Tracks.mapM (Q := fun p => p.type.Mentions x)
    (H := fun key => (Task.refer ((s.property? key).getD .null)).Hoists) fun key hkey => ?_).imp ?_
  · exact h.property owner _ key _ howner (hs _ (List.mem_map_of_mem hkey))
  · rintro ps ⟨hps, key, hkey, hhoists⟩
    exact ⟨hps, _, List.mem_map_of_mem hkey, hhoists⟩

theorem allParts_succ (h : Spends root x fuel) {name : Text} (hname : x = [] → name ≠ [])
    {parts : List Schema} (base : Option TypeRef) (props : List Property)
    (hs : ∀ u ∈ (parts.filter Schema.isMixin).flatMap Task.fields, u.Saves) :
    Tracks x ((∃ t, base = some t ∧ t.Mentions x) ∨ ∃ p ∈ props, p.type.Mentions x)
      (Import.allParts root (fuel + 1) name parts base props)
      fun r => (∃ t, r.1 = some t ∧ t.Mentions x) ∨ ∃ p ∈ r.2, p.type.Mentions x := by
  cases parts with
  | nil => exact .pure id
  | cons part rest =>
    refine .ite (fun _ => .fail) fun _ => .ite (fun href => ?_) fun href =>
      .ite (fun hobject => ?_) fun _ => .fail
    · have hmixin : part.isMixin = false := Schema.isMixin_of_ref href
      rw [List.filter_cons_of_neg (by simp [hmixin])] at hs
      refine .ite (fun _ => .fail) fun hnone => .bind (refType_tracks part).beside fun b => ?_
      refine (h.allParts _ _ _ _ hname hs).of_imp ?_
      -- there is no base yet that could be lost
      rintro (⟨⟨⟩⟩ | ⟨t, rfl, _⟩ | hprops)
      · exact absurd rfl hnone
      · exact .inr hprops
    · have hmixin : part.isMixin = true := Schema.isMixin_of_isObject href hobject
      rw [List.filter_cons_of_pos hmixin, List.flatMap_cons] at hs
      obtain ⟨hpart, hrest⟩ := List.forall_mem_append.mp hs
      refine .bind (h.properties _ _ hname hpart).beside fun own => ?_
      refine (h.allParts _ _ _ _ hname hrest).of_imp ?_
      rintro (⟨⟨p, hp, hx⟩, _⟩ | hbase | ⟨p, hp, hx⟩)
      · exact .inr ⟨p, List.mem_append_right _ hp, hx⟩
      · exact .inl hbase
      · exact .inr ⟨p, List.mem_append_left _ hp, hx⟩

theorem model_succ (h : Spends root x fuel) {name : Text} (hname : x = [] → name ≠ [])
    (hs : ∀ u ∈ Task.model s, u.Saves) (hextra : ∀ a, s.extraProperties? = some a → a.Saves) :
    Tracks x False (Import.model root (fuel + 1) name s) fun m => m.Mentions x := by
  obtain ⟨hfields, _⟩ := List.forall_mem_append.mp hs
  obtain ⟨hparts, hown⟩ := List.forall_mem_append.mp hfields
  refine .bind ((h.allParts name _ none [] hname hparts).of_false) ?_
  rintro ⟨base, inherited⟩
  refine .bind (h.properties _ _ hname hown).beside fun own => ?_
  have hheld : ∀ (source : Option TypeRef) (doc : Decorators),
      ((∃ p ∈ own, p.type.Mentions x) ∧ ∃ u ∈ Task.fields s, u.Hoists) ∨
        ((∃ t, base = some t ∧ t.Mentions x) ∨ ∃ p ∈ inherited, p.type.Mentions x) →
      ModelDecl.Mentions x
        { name, base, source, properties := inherited ++ own, decorators := doc } := by
    rintro source doc (⟨⟨p, hp, hx⟩, _⟩ | hbase | ⟨p, hp, hx⟩)
    · exact .inr (.inr ⟨p, List.mem_append_right _ hp, hx⟩)
    · exact .inl hbase
    · exact .inr (.inr ⟨p, List.mem_append_left _ hp, hx⟩)
  dsimp only
  split
  · rw [pure_bind]
    exact .pure (hheld none _)
  · rename_i a ha
    refine .bind (h.inlineRef _ _ (append_ne_nil hname _) (hextra a ha)).beside fun value => ?_
    rw [pure_bind]
    refine .pure ?_
    rintro (⟨hx, _⟩ | hrest)
    · exact .inr (.inl ⟨_, rfl, .record rfl hx⟩)
    · exact hheld _ _ hrest

theorem arrayRef_succ (h : Spends root x fuel) {hint : Text} (hhint : x = [] → hint ≠ [])
    (hs : ∀ c ∈ s.elements, c.Saves) :
    Tracks x False (Import.arrayRef root (fuel + 1) hint s) fun r =>
      r.1.Mentions x ∧ ∃ c ∈ s.elements, ∃ u ∈ Task.inline c, u.Hoists := by
  have hall : ∀ c ∈ s.elements, ∀ more, Tracks x False (Import.inlineRef root fuel (hint ++ more) c)
      fun t => t.Mentions x ∧ ∃ u ∈ Task.inline c, u.Hoists :=
    fun c hc more => h.inlineRef _ c (append_ne_nil hhint more) (hs c hc)
  rw [Import.arrayRef]
  split
  · rename_i hnone
    split
    · rw [pure_bind]
      exact .pure False.elim
    · rename_i item hitem
      have hmem : item ∈ s.elements := by
        unfold Schema.elements
        rw [hnone]
        exact Option.mem_toList.mpr hitem
      refine .bind (hall item hmem _) fun elem => .pure ?_
      rintro ⟨hx, hhoists⟩
      exact ⟨.array rfl hx, item, hmem, hhoists⟩
  · rename_i hsome
    have hitems : s.elements = (s.under (.prefixItem 0)).map (·.2) := by
      unfold Schema.elements
      split
      · contradiction
      · rfl
    rw [hitems] at hall ⊢
    refine .bind (.eachIndexed (Q := fun t => t.Mentions x)
      (H := fun c => ∃ u ∈ Task.inline c, u.Hoists) fun i c hc => ?_) fun elems => .pure ?_
    · rw [List.append_assoc]
      exact hall c hc _
    · rintro ⟨⟨t, ht, hx⟩, c, hc, hhoists⟩
      exact ⟨.tuple rfl ht hx, c, hc, hhoists⟩

theorem objectRef_succ (h : Spends root x fuel) {hint : Text} (hhint : x = [] → hint ≠ [])
    (hs : ∀ u ∈ Task.object s, u.Saves)
    (hextra : ∀ a, s.extraProperties? = some a → s.propertyKeys.isEmpty → a.Saves) :
    Tracks x False (Import.objectRef root (fuel + 1) hint s) fun r =>
      r.1.Mentions x ∧ ∃ u ∈ Task.object s, u.Hoists := by
  rw [Import.objectRef]
  split
  · rename_i a ha
    refine .ite (fun hkeys => ?_) fun hkeys => ?_
    · have hobject : Task.object s = Task.inline a := by
        unfold Task.object
        rw [ha]
        exact if_pos hkeys
      rw [hobject]
      refine .bind (h.inlineRef _ _ (append_ne_nil hhint _) (hextra a ha hkeys)) fun value => ?_
      exact .pure fun hvalue => ⟨.record rfl hvalue.1, hvalue.2⟩
    · have hobject : Task.object s = [.declare s] := by
        unfold Task.object
        rw [ha]
        exact if_neg hkeys
      rw [hobject] at hs ⊢
      refine .bind (h.hoist _ _ hhint (hs _ List.mem_cons_self)) fun t => .pure fun ht => ?_
      exact ⟨ht, _, List.mem_cons_self, Task.hoists_declare s⟩
  · rename_i hnone
    have hobject : Task.object s = Task.fields s := by
      unfold Task.object
      rw [hnone]
    rw [hobject] at hs ⊢
    refine .bind (h.properties _ _ hhint hs) fun props => .pure ?_
    rintro ⟨⟨p, hp, hx⟩, hhoists⟩
    exact ⟨.object rfl hp hx, hhoists⟩

theorem variants_succ (h : Spends root x fuel) {hint : Text} (hhint : x = [] → hint ≠ [])
    (hs : ∀ c ∈ s.alternatives, c.Saves) :
    Tracks x False (Import.variants root (fuel + 1) hint s) fun ts =>
      (∃ t ∈ ts, t.Mentions x) ∧ ∃ c ∈ s.alternatives, ∃ u ∈ Task.inline c, u.Hoists := by
  have hall : ∀ c ∈ s.alternatives, ∀ more,
      Tracks x False (Import.inlineRef root fuel (hint ++ more) c)
        fun t => t.Mentions x ∧ ∃ u ∈ Task.inline c, u.Hoists :=
    fun c hc more => h.inlineRef _ c (append_ne_nil hhint more) (hs c hc)
  refine .bind (.eachIndexed (Q := fun t => t.Mentions x)
    (H := fun c => c ∈ s.alternatives ∧ ∃ u ∈ Task.inline c, u.Hoists) fun i c hc => ?_)
    fun ts => ?_
  · have hmem : c ∈ s.alternatives := List.mem_append_left _ hc
    rw [List.append_assoc]
    exact (hall c hmem _).imp fun t ht => ⟨ht.1, hmem, ht.2⟩
  refine .bind (.beside (.mapM (Q := fun t => t.Mentions x)
    (H := fun type => s.ofType type ∈ s.alternatives ∧ ∃ u ∈ Task.inline (s.ofType type), u.Hoists)
    fun type htype => .ite (fun _ => .pure False.elim) fun hnull => ?_)) fun us => .pure ?_
  · have hmem : s.ofType type ∈ s.alternatives := by
      refine List.mem_append_right _ (List.mem_map_of_mem ?_)
      exact List.mem_filter.mpr ⟨htype, by simpa using hnull⟩
    exact (hall _ hmem _).imp fun t ht => ⟨ht.1, hmem, ht.2⟩
  · rintro (⟨⟨t, ht, hx⟩, type, _, hmem, hhoists⟩ | ⟨⟨t, ht, hx⟩, c, _, hmem, hhoists⟩)
    · exact ⟨⟨t, List.mem_append_right _ ht, hx⟩, _, hmem, hhoists⟩
    · exact ⟨⟨t, List.mem_append_left _ ht, hx⟩, _, hmem, hhoists⟩

theorem declare_succ (h : Spends root x fuel) {name : Text} (hname : x = [] → name ≠ [])
    (hs : (Task.declare s).Saves) :
    Tracks x False (Import.declare root (fuel + 1) name s) fun _ => False := by
  have hneeds := hs.all_needs
  have hinlined : ∀ c ∈ (Task.declare s).inlined,
      (∀ u ∈ Task.inline c, u ∈ (Task.declare s).needs) → c.Saves :=
    fun c hc hneeds => hs.inlined hneeds hc
  rw [Task.needs] at hneeds hinlined
  rw [Task.inlined] at hinlined
  cases s with
  | null => exact .fail
  | node k cs =>
    refine .ite (fun _ => declareAlias_tracks _ _) fun href => ?_
    refine .ite (fun _ => declareEnum_tracks _ _) fun henum => ?_
    have hplain : ¬ ((!(Schema.node k cs).keywords.ref.isEmpty ||
        (Schema.node k cs).isEnumerated) = true) := by simpa using And.intro href henum
    rw [if_neg hplain] at hneeds hinlined
    rw [if_neg hplain] at hinlined
    refine .ite (fun hvariants => ?_) fun hvariants => ?_
    · rw [if_pos hvariants, if_pos hvariants] at hinlined
      refine .bind (h.variants _ _ hname fun c hc => hinlined c hc fun u hu =>
        List.mem_flatMap.mpr ⟨c, hc, hu⟩) fun types => ?_
      exact (addUnion_tracks _ _ _).of_imp fun htypes => htypes.1
    rw [if_neg hvariants] at hneeds hinlined
    rw [if_neg hvariants] at hinlined
    refine .ite (fun harray => ?_) fun harray => ?_
    · rw [if_pos harray] at hneeds
      refine .bind (h.typeRef _ _ hname (hneeds _ List.mem_cons_self)) fun r => ?_
      refine .ite (fun _ => (addUnion_tracks _ _ _).of_imp ?_) fun _ =>
        (addModel_tracks _).of_imp ?_
      · exact fun hr => ⟨r.1, List.mem_cons_self, hr.1⟩
      · exact fun hr => .inr (.inl ⟨r.1, rfl, hr.1⟩)
    rw [if_neg harray] at hneeds hinlined
    rw [if_neg harray] at hinlined
    refine .ite (fun hmodel => ?_) fun _ => declareScalar_tracks _ _
    rw [if_pos hmodel] at hneeds hinlined
    rw [if_pos hmodel] at hinlined
    refine .bind (h.model _ _ hname hneeds fun a ha => ?_) fun m => addModel_tracks m
    refine hinlined a (Option.mem_toList.mpr ha) fun u hu => ?_
    exact List.mem_append_right _ (List.mem_flatMap.mpr ⟨a, Option.mem_toList.mpr ha, hu⟩)

theorem typeRef_succ (h : Spends root x fuel) {hint : Text} (hhint : x = [] → hint ≠ [])
    (hs : (Task.refer s).Saves) :
    Tracks x False (Import.typeRef root (fuel + 1) hint s) fun r =>
      r.1.Mentions x ∧ (Task.refer s).Hoists := by
  have hneeds := hs.all_needs
  have hinlined : ∀ c ∈ (Task.refer s).inlined,
      (∀ u ∈ Task.inline c, u ∈ (Task.refer s).needs) → c.Saves :=
    fun c hc hneeds => hs.inlined hneeds hc
  have hcome : ∀ u ∈ (Task.refer s).needs, u.Hoists → (Task.refer s).Hoists :=
    fun u hu => Task.Needs.hoists hu
  rw [Task.needs] at hneeds hinlined hcome
  rw [Task.inlined] at hinlined
  have hdeclared : (Task.declare s).Saves → (Task.refer s).Hoists → Tracks x False
      (do let t ← Import.hoist root fuel hint s; pure (t, {}))
      fun (r : TypeRef × Decorators) => r.1.Mentions x ∧ (Task.refer s).Hoists :=
    fun hs hhoists => .bind (h.hoist hint s hhint hs) fun t => .pure fun ht => ⟨ht, hhoists⟩
  cases s with
  | null => exact .fail
  | node k cs =>
    refine .ite (fun _ => .bind (refType_tracks _) fun t => .pure False.elim) fun href => ?_
    refine .ite (fun _ => .bind .lift fun values => ?_) fun henum => ?_
    · split <;> exact .pure False.elim
    have hplain : ¬ ((!(Schema.node k cs).keywords.ref.isEmpty ||
        (Schema.node k cs).isEnumerated) = true) := by simpa using And.intro href henum
    rw [if_neg hplain] at hneeds hinlined hcome
    rw [if_neg hplain] at hinlined
    refine .ite (fun hvariants => ?_) fun hvariants => ?_
    · rw [if_pos hvariants] at hcome
      rw [if_pos hvariants, if_pos hvariants] at hinlined
      refine .bind (h.variants _ _ hhint fun c hc => hinlined c hc fun u hu =>
        List.mem_flatMap.mpr ⟨c, hc, hu⟩) fun types => ?_
      have hreach : (∃ c ∈ (Schema.node k cs).alternatives, ∃ u ∈ Task.inline c, u.Hoists) →
          (Task.refer (Schema.node k cs)).Hoists := by
        rintro ⟨c, hc, u, hu, hhoists⟩
        exact hcome u (List.mem_flatMap.mpr ⟨c, hc, hu⟩) hhoists
      split
      · refine .pure ?_
        rintro ⟨⟨t, ht, hx⟩, hhoists⟩
        obtain rfl := List.mem_singleton.mp ht
        exact ⟨hx, hreach hhoists⟩
      · refine .pure ?_
        rintro ⟨⟨t, ht, hx⟩, hhoists⟩
        exact ⟨.union rfl ht hx, hreach hhoists⟩
    rw [if_neg hvariants] at hneeds hinlined hcome
    rw [if_neg hvariants] at hinlined
    generalize (Schema.node k cs).parts = parts at hneeds hinlined hcome ⊢
    rcases parts with _ | ⟨part, _ | ⟨second, rest⟩⟩
    · dsimp only at hneeds hinlined hcome
      rw [if_neg (by simp)] at hinlined
      refine .ite (fun harray => ?_) fun harray => .ite (fun hobject => ?_) fun _ => ?_
      · rw [if_pos harray] at hcome
        rw [if_pos harray, if_pos harray] at hinlined
        refine (h.arrayRef _ _ hhint fun c hc => hinlined c hc fun u hu =>
          List.mem_flatMap.mpr ⟨c, hc, hu⟩).imp ?_
        rintro r ⟨hx, c, hc, u, hu, hhoists⟩
        exact ⟨hx, hcome u (List.mem_flatMap.mpr ⟨c, hc, hu⟩) hhoists⟩
      · rw [if_neg harray, if_pos hobject] at hneeds hcome
        rw [if_neg harray, if_neg harray, if_pos hobject] at hinlined
        refine (h.objectRef _ _ hhint hneeds fun a ha hkeys => hinlined a ?_ fun u hu => ?_).imp ?_
        · rw [hobject, hkeys]
          exact Option.mem_toList.mpr ha
        · unfold Task.object
          rw [ha]
          dsimp only
          rwa [if_pos hkeys]
        · rintro r ⟨hx, u, hu, hhoists⟩
          exact ⟨hx, hcome u hu hhoists⟩
      · exact .pure False.elim
    · dsimp only at hneeds hcome
      refine .ite (fun hobject => ?_) fun hobject => ?_
      · rw [if_pos hobject] at hneeds hcome
        exact hdeclared (hneeds _ List.mem_cons_self)
          (hcome _ List.mem_cons_self (Task.hoists_declare _))
      · rw [if_neg hobject] at hneeds hcome
        exact (h.typeRef _ _ hhint (hneeds _ List.mem_cons_self)).imp fun r hr =>
          ⟨hr.1, hcome _ List.mem_cons_self hr.2⟩
    · exact hdeclared (hneeds _ List.mem_cons_self)
        (hcome _ List.mem_cons_self (Task.hoists_declare _))

end Spends

theorem spends (fuel : Nat) : Spends root x fuel := by
  induction fuel with
  | zero => exact spends_zero
  | succ fuel ih =>
    exact
      { declare := fun _ _ hname hs => ih.declare_succ hname hs
        model := fun _ _ hname hs hextra => ih.model_succ hname hs hextra
        allParts := fun _ _ base props hname hs => ih.allParts_succ hname base props hs
        properties := fun _ _ howner hs => ih.properties_succ howner hs
        property := fun _ required key _ howner hs => ih.property_succ howner required key hs
        inlineRef := fun _ _ hhint hs => ih.inlineRef_succ hhint hs
        hoist := fun _ _ hhint hs => ih.hoist_succ hhint hs
        typeRef := fun _ _ hhint hs => ih.typeRef_succ hhint hs
        arrayRef := fun _ _ hhint hs => ih.arrayRef_succ hhint hs
        objectRef := fun _ _ hhint hs hextra => ih.objectRef_succ hhint hs hextra
        variants := fun _ _ hhint hs => ih.variants_succ hhint hs }

end Steps

/-! ### Documents -/

/-- The first half of an import: it declares the definitions. -/
def definitions (root : Schema) : Import Unit :=
  root.orderedDefs.forM fun n => within ("$defs/" ++ (Text.ofString n).mentioned)
    (declare root (fuelFor root) (Text.ofString n) ((root.def? n).getD .null))

/-- What the root is called as a model, before it is known whether that is new. -/
def ownHint (name : Text) : Text := if name.isEmpty then "Root" else name

theorem ownHint_ne_nil (name : Text) : ownHint name ≠ [] := by
  unfold ownHint
  split
  · decide
  · simp_all

/-- The definitions are declared, then the root if it describes an object. -/
theorem document_split {root : Schema} {name : Text} {s : Importing}
    (h : document root name {} = .ok ((), s)) :
    ∃ mid, definitions root { used := root.orderedDefs.map Text.ofString } = .ok ((), mid) ∧
      if root.isObject then
        ∃ fresh t, unique (ownHint name) mid = .ok (fresh, t) ∧
          declare root (fuelFor root) fresh root t = .ok ((), s)
      else mid = s := by
  unfold document at h
  cases hnull : root.isNull with
  | true =>
    rw [hnull] at h
    cases h
  | false =>
    rw [hnull] at h
    obtain ⟨⟨_, mid⟩, hmid, h⟩ := Result.bind_eq_ok.mp h
    refine ⟨mid, hmid, ?_⟩
    cases hobject : root.isObject with
    | true =>
      rw [hobject] at h
      exact ⟨_, _, rfl, Result.within_eq_ok.mp h⟩
    | false =>
      rw [hobject] at h
      cases h
      rfl

end Import

/-- The name of the model that the root is declared as, when the definitions are done. -/
def Schema.ownName? (root : Schema) (name : Text) : Option Text :=
  match Import.definitions root { used := root.orderedDefs.map Text.ofString } with
  | .ok (_, mid) =>
    if root.isObject then some (Import.freshName (Import.ownHint name) mid.used) else none
  | .error _ => none

theorem Schema.ownName?_eq_none {root : Schema} (h : root.isObject = false) (name : Text) :
    root.ownName? name = none := by
  unfold ownName?
  rw [h]
  split <;> rfl

/-- If no reference that declares something is dropped, then every name of the document is that of a
definition or of the root's own model, or it is mentioned. -/
theorem Schema.toDocument_mentions {root : Schema} {name : Text} {d : Document}
    (hroot : root.Distinct) (honce : root.HoistsOnce) (h : root.toDocument name = .ok d) :
    ∀ x ∈ d.names, (∃ k, (root.def? k).isSome = true ∧ x = Text.ofString k) ∨
      root.ownName? name = some x ∨ d.Mentions x := by
  obtain ⟨⟨_, s⟩, hs, h⟩ := Result.bind_eq_ok.mp h
  cases h
  intro x hx
  obtain ⟨hready, _⟩ := Import.ready_document hroot hs
  have hused : x ∈ s.used := hready.perm.mem_iff.mpr (List.mem_append_left _ hx)
  obtain ⟨mid, hmid, hs⟩ := Import.document_split hs
  by_cases hdef : ∃ k ∈ root.orderedDefs, Text.ofString k = x
  · obtain ⟨k, hk, rfl⟩ := hdef
    exact .inl ⟨k, mem_orderedDefs.mp hk, rfl⟩
  right
  have hdeclare : ∀ n s, (x = [] → n ≠ []) → Task.declare s ∈ root.tasks →
      Import.Tracks x False (Import.declare root (Import.fuelFor root) n s) fun _ => False :=
    fun n s hn hs => (Import.spends _).declare n s hn (honce _ hs)
  have hdefs : Import.Tracks x False (Import.definitions root) fun _ => False := by
    refine .forM fun k hk => .within (hdeclare _ _ ?_ ?_)
    · rintro rfl hnil
      exact hdef ⟨k, hk, hnil⟩
    · exact List.mem_append_left _ (List.mem_map_of_mem hk)
  have haccounted : Import.Accounted x mid := by
    refine (hdefs _ () mid (.inl fun hmem => ?_) hmid).resolve_right id
    obtain ⟨k, hk, hname⟩ := List.mem_map.mp hmem
    exact absurd ⟨k, hk, hname⟩ hdef
  unfold ownName?
  rw [hmid]
  cases hobject : root.isObject with
  | false =>
    rw [hobject] at hs
    cases hs
    exact .inr (haccounted hused)
  | true =>
    rw [hobject, if_pos rfl] at hs
    obtain ⟨fresh, t, hfresh, hs⟩ := hs
    have htask : Task.declare root ∈ root.tasks := by
      rw [Schema.tasks, if_pos hobject]
      simp
    have hhint : Import.ownHint name <+: fresh := Import.prefix_unique _ mid fresh t hfresh
    have hne : x = [] → fresh ≠ [] := fun _ hnil =>
      Import.ownHint_ne_nil name (List.prefix_nil.mp (hnil ▸ hhint))
    have hunique := Import.Tracks.unique (x := x) fun _ => Import.ownHint_ne_nil name
    -- either the root's own name is another one, or it is `x`
    rcases hunique mid fresh t (.inl haccounted) hfresh with ht | ⟨rfl, _⟩
    · have hs := hdeclare fresh root hne htask t () s (.inl ht) hs
      exact .inr (hs.resolve_right id hused)
    · cases hfresh
      exact .inl rfl

/-- Rows of words, each with at least one letter; a row may need to have some words. -/
def rows (minItems : Option Int) : Schema :=
  .node {} [(.def_ "Rows", .node { type := "object" }
    [(.additionalProperties, .node { type := "array", minItems }
      [(.items, .node { type := "string", minLength := some 1 } [])])])]

theorem orderedDefs_rows (minItems : Option Int) : (rows minItems).orderedDefs = ["Rows"] := by cbv

/-- Where a row may be empty, the one name made up is the type of the items of the rows. -/
theorem toDocument_mentions_rows : (rows none).Distinct ∧ (rows none).HoistsOnce ∧
    ∃ d, (rows none).toDocument [] = .ok d ∧ d.names = ["RowsValueItem", "Rows"] ∧
      ∀ x ∈ d.names, (∃ k, ((rows none).def? k).isSome = true ∧ x = Text.ofString k) ∨
        (rows none).ownName? [] = some x ∨ d.Mentions x := by
  have hdistinct : (rows none).Distinct := by
    unfold Schema.Distinct
    decide
  have hword : ∀ t : Task, t.inlined = [] → t.needs = [] → t.Saves := by
    intro t hinlined hneeds
    refine .step ?_ ?_ <;> simp [hinlined, hneeds]
  have honce : (rows none).HoistsOnce := by
    intro t ht
    rw [Schema.tasks, orderedDefs_rows] at ht
    obtain rfl := List.mem_singleton.mp ht
    refine .step (List.forall_mem_singleton.mpr fun h => ?_) (List.forall_mem_singleton.mpr ?_)
    · exact absurd h.1 (by decide)
    refine .step (List.forall_mem_singleton.mpr fun h => ?_) ?_
    · exact Task.not_hoists_refer rfl h.2
    · refine List.forall_mem_cons.mpr ⟨hword _ rfl rfl, List.forall_mem_singleton.mpr ?_⟩
      exact hword _ rfl rfl
  have hd : (rows none).toDocument [] = .ok
      { scalars := [{ name := "RowsValueItem", base := "string",
                      decorators := { minLength := some 1 } }]
        models := [
          { name := "Rows",
            source := some { record := some { array := some { name := "RowsValueItem" } } } }] } :=
    by
    simp only [Schema.toDocument, Import.document, orderedDefs_rows]
    rfl
  exact ⟨hdistinct, honce, _, hd, by decide, Schema.toDocument_mentions hdistinct honce hd⟩

/-- What comes of the rows, each with at least one word. -/
def rowsDocument : Document where
  scalars := [
    { name := "RowsValueItem", base := "string", decorators := { minLength := some 1 } },
    { name := "RowsValueItem2", base := "string", decorators := { minLength := some 1 } }]
  models := [
    { name := "RowsValue", source := some { array := some { name := "RowsValueItem2" } },
      decorators := { minItems := some 1 } },
    { name := "Rows", source := some { record := some { name := "RowsValue" } } }]

theorem rowsDocument_imported : rowsDocument.Imported ["RowsValueItem2", "RowsValue"] where
  scalars := by
    have hbase : InUse ["RowsValueItem2", "RowsValue"] "string" := .inr (by decide)
    exact List.forall_mem_cons.mpr ⟨⟨rfl, hbase⟩, List.forall_mem_singleton.mpr ⟨rfl, hbase⟩⟩
  models := by
    refine List.forall_mem_cons.mpr ⟨⟨nofun, ?_, nofun⟩, List.forall_mem_singleton.mpr
      ⟨nofun, ?_, nofun⟩⟩
    · rintro t ⟨⟩
      exact .array (.named (.inl (by decide)))
    · rintro t ⟨⟩
      exact .record (.named (.inl (by decide)))
  unions := nofun

/-- Where a row has to have a word, the type of its items is made twice and used once. -/
theorem rows_unused : (rows (some 1)).toDocument [] = .ok rowsDocument ∧
    Text.ofString "RowsValueItem" ∈ rowsDocument.names ∧
    ¬ ((∃ k, ((rows (some 1)).def? k).isSome = true ∧ "RowsValueItem" = Text.ofString k) ∨
      (rows (some 1)).ownName? [] = some "RowsValueItem" ∨
      rowsDocument.Mentions "RowsValueItem") := by
  refine ⟨?_, by decide, ?_⟩
  · simp only [Schema.toDocument, Import.document, orderedDefs_rows]
    rfl
  rintro (⟨k, hk, hname⟩ | hown | hmentions)
  · have hk := Schema.mem_orderedDefs.mpr hk
    rw [orderedDefs_rows] at hk
    obtain rfl := List.mem_singleton.mp hk
    exact absurd hname (by decide)
  · rw [Schema.ownName?_eq_none (by decide)] at hown
    cases hown
  · rcases rowsDocument_imported.of_mentions hmentions with hmem | hbuiltin
    · exact absurd hmem (by decide)
    · exact absurd hbuiltin (by decide)

end SchemaLoom

import SchemaLoom.Proofs.Imported
import SchemaLoom.Proofs.ImportTasks

/-!
# Imports that come to an end

An import goes on for ever when it comes to a knotted schema: a reference to it
declares it first, and its declaration refers to it again. Without knotted schemas the
size of the schema bounds the depth, and an import ends with a document or an error.

The values that a schema writes out are read by other means. Where their reading does
not end, neither does the import.
-/

namespace SchemaLoom

set_option autoImplicit false

/-- The values a schema writes out itself. -/
def Schema.written (s : Schema) : List (List Char) :=
  (match s.keywords.const with
    | some j => [j]
    | none => s.keywords.enum.getD []).map Json.write ++
  s.keywords.default.toList.map String.toList

/-- The reading of every value of the schema ends. -/
def Task.Legible (t : Task) : Prop :=
  ∀ cs ∈ t.schema.written, (Schema.valueOf cs).cause? ≠ some .diverges

namespace Import

variable {α β : Type}

/-- Steps whose failures never mean that the depth is used up. -/
def Ends (m : Import α) : Prop := ∀ s e, m s = .error e → e.cause ≠ .diverges

namespace Ends
variable {m : Import α}

theorem pure {a : α} : Ends (pure a) := by
  intro s e he
  cases he

theorem fail {c : Cause} (hc : c ≠ .diverges) : Ends (fail c : Import α) := by
  intro s e he
  cases he
  exact hc

theorem bind {f : α → Import β} (hm : Ends m) (hf : ∀ s a s', m s = .ok (a, s') → Ends (f a)) :
    Ends (m >>= f) := by
  intro s e he
  rcases Result.bind_eq_error.mp he with he | ⟨⟨a, s'⟩, ha, he⟩
  · exact hm s e he
  · exact hf s a s' ha s' e he

theorem ite {c : Prop} [Decidable c] {n : Import α} (hm : c → Ends m) (hn : ¬ c → Ends n) :
    Ends (if c then m else n) := by
  by_cases hc : c
  · rw [if_pos hc]
    exact hm hc
  · rw [if_neg hc]
    exact hn hc

theorem within {position : Text} (hm : Ends m) : Ends (within position m) := by
  intro s e he
  obtain ⟨f, hf, rfl⟩ := Result.within_eq_error.mp he
  exact hm s f hf

theorem lift {r : Result α} (hr : r.cause? ≠ some .diverges) : Ends (lift r) := by
  intro s e he hcause
  exact hr (Result.cause?_eq_some.mpr ⟨e, Result.map_eq_error.mp he, hcause⟩)

theorem mapM {f : α → Import β} {xs : List α} (hf : ∀ x ∈ xs, Ends (f x)) : Ends (xs.mapM f) := by
  induction xs with
  | nil => exact .pure
  | cons x xs ih =>
    rw [List.mapM_cons]
    refine .bind (hf x List.mem_cons_self) fun _ _ _ _ => ?_
    exact .bind (ih fun y hy => hf y (List.mem_cons_of_mem _ hy)) fun _ _ _ _ => .pure

theorem eachIndexed {f : Nat → Schema → Import β} {i : Nat} {xs : List Schema}
    (hf : ∀ i, ∀ x ∈ xs, Ends (f i x)) : Ends (eachIndexed f i xs) := by
  rw [eachIndexed_eq_mapM]
  exact .mapM fun p hp => hf p.2 p.1 (List.fst_mem_of_mem_zipIdx hp)

theorem forM {f : α → Import PUnit} {xs : List α} (hf : ∀ x ∈ xs, Ends (f x)) :
    Ends (xs.forM f) := by
  induction xs with
  | nil => exact .pure
  | cons x xs ih =>
    exact .bind (hf x List.mem_cons_self) fun _ _ _ _ =>
      ih fun y hy => hf y (List.mem_cons_of_mem _ hy)

theorem modify (f : Importing → Importing) : Ends (modify f : Import PUnit) := by
  intro s e he
  cases he

theorem unique (hint : Text) : Ends (unique hint) := by
  intro s e he
  cases he

end Ends

/-! ### Steps without subschemas -/

theorem enumerated_ends {s : Schema} (h : (Task.declare s).Legible) :
    s.enumerated.cause? ≠ some .diverges := by
  intro hcause
  obtain ⟨e, he, hcause⟩ := Result.cause?_eq_some.mp hcause
  obtain ⟨j, hj, he⟩ := Result.mapM_eq_error he
  apply h j.write
  · exact List.mem_append_left _ (List.mem_map_of_mem hj)
  · exact Result.cause?_eq_some.mpr ⟨e, he, hcause⟩

theorem declareEnum_ends {s : Schema} (h : (Task.declare s).Legible) (name : Text) :
    Ends (declareEnum name s) :=
  .bind (.lift (enumerated_ends h)) fun _ _ _ _ => .ite (fun _ => .modify _) fun _ => .modify _

theorem refType_ends (root s : Schema) : Ends (refType root s) := by
  unfold refType
  dsimp only
  split
  · exact .fail (by simp)
  · exact .ite (fun _ => .pure) fun _ => .fail (by simp)

theorem declareAlias_ends (root : Schema) (name : Text) (s : Schema) :
    Ends (declareAlias root name s) := by
  refine .bind (refType_ends root s) fun _ _ _ _ => ?_
  dsimp only
  split
  · exact .fail (by simp)
  · exact .fail (by simp)
  · exact .ite (fun _ => .modify _) fun _ => .ite (fun _ => .modify _) fun _ => .modify _

theorem declareScalar_ends (name : Text) (s : Schema) : Ends (declareScalar name s) :=
  .ite (fun _ => .modify _) fun _ => .fail (by simp)

/-! ### Constraints that are left out -/

/-- Steps with a result that `P` holds of. -/
def Gives (m : Import α) (P : α → Prop) : Prop := ∀ s a s', m s = .ok (a, s') → P a

namespace Gives
variable {m : Import α} {P : α → Prop}

theorem pure {a : α} (h : P a) : Gives (pure a) P := by
  intro s b s' hok
  cases hok
  exact h

theorem fail {c : Cause} : Gives (fail c : Import α) P := by
  intro s a s' hok
  cases hok

theorem bind {f : α → Import β} {Q : β → Prop} (hf : ∀ a, Gives (f a) Q) : Gives (m >>= f) Q := by
  intro s b s' hok
  obtain ⟨⟨a, t⟩, _, hok⟩ := Result.bind_eq_ok.mp hok
  exact hf a t b s' hok

theorem ite {c : Prop} [Decidable c] {n : Import α} (hm : c → Gives m P) (hn : ¬ c → Gives n P) :
    Gives (if c then m else n) P := by
  by_cases hc : c
  · rw [if_pos hc]
    exact hm hc
  · rw [if_neg hc]
    exact hn hc

end Gives

variable {root : Schema} {fuel : Nat}

theorem arrayRef_leftover (hint : Text) (s : Schema) :
    Gives (arrayRef root fuel hint s) fun r => r.2 =
      if (s.under (.prefixItem 0)).isEmpty then
        { minItems := s.keywords.minItems, maxItems := s.keywords.maxItems }
      else {} := by
  cases fuel with
  | zero => exact .fail
  | succ fuel =>
    rw [arrayRef]
    split
    · rename_i hnone
      rw [hnone]
      dsimp only
      split <;> exact .bind fun _ => .pure rfl
    · rename_i hsome
      refine .bind fun _ => .pure ?_
      rw [if_neg (by simpa using hsome)]

theorem objectRef_leftover (hint : Text) (s : Schema) :
    Gives (objectRef root fuel hint s) fun r => r.2 = {} := by
  cases fuel with
  | zero => exact .fail
  | succ fuel =>
    rw [objectRef]
    split
    · exact .ite (fun _ => .bind fun _ => .pure rfl) fun _ => .bind fun _ => .pure rfl
    · exact .bind fun _ => .pure rfl

theorem typeRef_leftover (hint : Text) (s : Schema) :
    Gives (typeRef root fuel hint s) fun r => r.2 = s.leftover := by
  induction fuel generalizing s with
  | zero => exact .fail
  | succ fuel ih =>
    cases s with
    | null => exact .fail
    | node k cs =>
      rw [Schema.leftover_of_not_null rfl]
      refine .ite (fun href => ?_) fun href => ?_
      · rw [if_pos href]
        exact .bind fun _ => .pure rfl
      rw [if_neg href]
      refine .ite (fun henum => ?_) fun henum => .ite (fun hvariants => ?_) fun hvariants => ?_
      · rw [henum]
        refine .bind fun values => ?_
        split <;> exact .pure rfl
      · rw [hvariants, Bool.or_true]
        refine .bind fun types => ?_
        split <;> exact .pure rfl
      have hplain : ¬ ((Schema.node k cs).isEnumerated || (Schema.node k cs).hasVariants) = true := by
        simp [henum, hvariants]
      rw [if_neg hplain]
      rcases (Schema.node k cs).parts with _ | ⟨part, _ | ⟨second, rest⟩⟩
      · refine .ite (fun harray => ?_) fun harray => .ite (fun hobject => ?_) fun hobject => ?_
        · dsimp only
          rw [if_pos harray]
          exact arrayRef_leftover hint _
        · dsimp only
          rw [if_neg harray, if_pos hobject]
          exact objectRef_leftover hint _
        · dsimp only
          rw [if_neg harray, if_neg hobject]
          exact .pure rfl
      · refine .ite (fun hobject => ?_) fun hobject => ?_
        · dsimp only
          rw [if_pos hobject]
          exact .bind fun _ => .pure rfl
        · dsimp only
          rw [if_neg hobject]
          exact ih part
      · exact .bind fun _ => .pure rfl

/-! ### Enough depth -/

/-- From some depth on, a task ends. -/
def EndsFrom (root : Schema) (n : Nat) : Task → Prop
  | .declare s => ∀ fuel name, n ≤ fuel → Ends (declare root fuel name s)
  | .refer s => ∀ fuel hint, n ≤ fuel → Ends (typeRef root fuel hint s)

theorem EndsFrom.mono {n m : Nat} {t : Task} (h : EndsFrom root n t) (hnm : n ≤ m) :
    EndsFrom root m t := by
  cases t with
  | declare s => exact fun fuel name hfuel => h fuel name (Nat.le_trans hnm hfuel)
  | refer s => exact fun fuel hint hfuel => h fuel hint (Nat.le_trans hnm hfuel)

section Depth
variable {n : Nat} {s : Schema}

theorem hoist_ends (h : EndsFrom root n (.declare s)) (hfuel : n + 1 ≤ fuel) (hint : Text) :
    Ends (hoist root fuel hint s) := by
  obtain ⟨fuel, rfl⟩ := Nat.exists_eq_add_one.mpr (by omega : 0 < fuel)
  refine .bind (.unique hint) fun _ name _ _ => ?_
  exact .bind (h fuel name (by omega)) fun _ _ _ _ => .pure

theorem inlineRef_ends (h : ∀ u ∈ Task.inline s, EndsFrom root n u) (hfuel : n + 2 ≤ fuel)
    (hint : Text) : Ends (inlineRef root fuel hint s) := by
  obtain ⟨fuel, rfl⟩ := Nat.exists_eq_add_one.mpr (by omega : 0 < fuel)
  refine .bind (h (.refer s) List.mem_cons_self fuel hint (by omega)) ?_
  rintro st ⟨t, d⟩ st' hok
  refine .ite (fun _ => .pure) fun hd => hoist_ends (h (.declare s) ?_) (by omega) hint
  have hleft : d = s.leftover := typeRef_leftover hint s st _ st' hok
  rw [Task.inline, if_neg (by rwa [← hleft])]
  simp

theorem variants_ends (h : ∀ u ∈ s.alternatives.flatMap Task.inline, EndsFrom root n u)
    (hfuel : n + 3 ≤ fuel) (hint : Text) : Ends (variants root fuel hint s) := by
  obtain ⟨fuel, rfl⟩ := Nat.exists_eq_add_one.mpr (by omega : 0 < fuel)
  have hall : ∀ c ∈ s.alternatives, ∀ hint, Ends (inlineRef root fuel hint c) := fun c hc hint =>
    inlineRef_ends (fun u hu => h u (List.mem_flatMap.mpr ⟨c, hc, hu⟩)) (by omega) hint
  refine .bind (.eachIndexed fun i c hc => hall c (List.mem_append_left _ hc) _) ?_
  refine fun _ _ _ _ => .bind (.mapM fun type htype => .ite (fun _ => .pure) fun hnull => ?_)
    fun _ _ _ _ => .pure
  refine hall _ (List.mem_append_right _ (List.mem_map_of_mem ?_)) _
  exact List.mem_filter.mpr ⟨htype, by simpa using hnull⟩

theorem properties_ends (h : ∀ u ∈ Task.fields s, EndsFrom root n u ∧ u.Legible)
    (hfuel : n + 2 ≤ fuel) (owner : Text) : Ends (properties root fuel owner s) := by
  obtain ⟨fuel, rfl⟩ := Nat.exists_eq_add_one.mpr (by omega : 0 < fuel)
  refine .mapM fun key hkey => ?_
  obtain ⟨hends, hlegible⟩ := h _ (List.mem_map_of_mem hkey)
  obtain ⟨fuel, rfl⟩ := Nat.exists_eq_add_one.mpr (by omega : 0 < fuel)
  refine .bind (.within (hends fuel _ (by omega))) fun _ _ _ _ => ?_
  dsimp only
  split
  · exact .bind .pure fun _ _ _ _ => .pure
  · rename_i source hsource
    refine .bind (.within (.lift (hlegible _ (List.mem_append_right _ ?_)))) fun _ _ _ _ =>
      .bind .pure fun _ _ _ _ => .pure
    rw [Task.schema, hsource]
    simp

theorem allParts_ends {parts : List Schema}
    (h : ∀ c ∈ parts, c.isMixin = true → ∀ u ∈ Task.fields c, EndsFrom root n u ∧ u.Legible)
    (hfuel : n + parts.length + 2 ≤ fuel) (name : Text) (base : Option TypeRef)
    (props : List Property) : Ends (allParts root fuel name parts base props) := by
  induction parts generalizing fuel base props with
  | nil =>
    obtain ⟨fuel, rfl⟩ := Nat.exists_eq_add_one.mpr (by omega : 0 < fuel)
    exact .pure
  | cons part rest ih =>
    obtain ⟨fuel, rfl⟩ := Nat.exists_eq_add_one.mpr (by omega : 0 < fuel)
    rw [List.length_cons] at hfuel
    have hrest := fun base props => ih (fun c hc => h c (List.mem_cons_of_mem _ hc))
      (by omega : n + rest.length + 2 ≤ fuel) base props
    refine .ite (fun _ => .fail (by simp)) fun _ => .ite (fun _ => ?_) fun href => ?_
    · refine .ite (fun _ => .fail (by simp)) fun _ => ?_
      exact .bind (refType_ends root part) fun _ _ _ _ => hrest _ _
    · refine .ite (fun hobject => ?_) fun _ => .fail (by simp)
      have hmixin : part.isMixin = true := Schema.isMixin_of_isObject href hobject
      exact .bind (properties_ends (h part List.mem_cons_self hmixin) (by omega) name)
        fun _ _ _ _ => hrest _ _

theorem model_ends (h : ∀ u ∈ Task.model s, EndsFrom root n u ∧ u.Legible)
    (hfuel : n + s.parts.length + 3 ≤ fuel) (name : Text) : Ends (model root fuel name s) := by
  obtain ⟨fuel, rfl⟩ := Nat.exists_eq_add_one.mpr (by omega : 0 < fuel)
  refine .bind (allParts_ends (n := n) ?_ (by omega) name none []) fun _ _ _ _ => ?_
  · intro c hc hmixin u hu
    refine h u (List.mem_append_left _ (List.mem_append_left _ ?_))
    exact List.mem_flatMap.mpr ⟨c, List.mem_filter.mpr ⟨hc, hmixin⟩, hu⟩
  refine .bind (properties_ends (n := n) ?_ (by omega) name) fun _ _ _ _ => ?_
  · exact fun u hu => h u (List.mem_append_left _ (List.mem_append_right _ hu))
  dsimp only
  split
  · exact .bind .pure fun _ _ _ _ => .pure
  · rename_i a ha
    refine .bind (inlineRef_ends (n := n) ?_ (by omega) _) fun _ _ _ _ =>
      .bind .pure fun _ _ _ _ => .pure
    intro u hu
    refine (h u (List.mem_append_right _ ?_)).1
    rw [ha]
    exact List.mem_flatMap.mpr ⟨a, by simp, hu⟩

theorem arrayRef_ends (h : ∀ u ∈ s.elements.flatMap Task.inline, EndsFrom root n u)
    (hfuel : n + 3 ≤ fuel) (hint : Text) : Ends (arrayRef root fuel hint s) := by
  obtain ⟨fuel, rfl⟩ := Nat.exists_eq_add_one.mpr (by omega : 0 < fuel)
  have hall : ∀ c ∈ s.elements, ∀ hint, Ends (inlineRef root fuel hint c) := fun c hc hint =>
    inlineRef_ends (fun u hu => h u (List.mem_flatMap.mpr ⟨c, hc, hu⟩)) (by omega) hint
  unfold Schema.elements at hall
  rw [arrayRef]
  split
  · rename_i hnone
    rw [hnone] at hall
    split
    · exact .bind .pure fun _ _ _ _ => .pure
    · rename_i item hitem
      exact .bind (hall item (by simp [hitem]) _) fun _ _ _ _ => .pure
  · rename_i hsome
    split at hall
    · contradiction
    · exact .bind (.eachIndexed fun i c hc => hall c hc _) fun _ _ _ _ => .pure

/-- A declaration of the schema itself may be asked for here, with less depth to go. -/
theorem objectRef_ends (h : ∀ u ∈ Task.object s, EndsFrom root u.need u ∧ u.Legible)
    (harray : s.isArray = false) (hfuel : s.weight + 2 ≤ fuel) (hint : Text) :
    Ends (objectRef root fuel hint s) := by
  obtain ⟨fuel, rfl⟩ := Nat.exists_eq_add_one.mpr (by omega : 0 < fuel)
  have hweight : 16 * s.size ≤ s.weight := Nat.le_add_right _ _
  have hpos := s.size_pos
  unfold Task.object at h
  rw [objectRef]
  split
  · rename_i a ha
    rw [ha] at h
    have hsize := Schema.size_extraProperties? ha
    refine .ite (fun hkeys => ?_) fun hkeys => ?_
    · dsimp only at h
      rw [if_pos hkeys] at h
      refine .bind (inlineRef_ends (n := s.weight - 4) ?_ (by omega) _) fun _ _ _ _ => .pure
      intro u hu
      have hneed := Task.need_inline hu
      exact (h u hu).1.mono (by omega)
    · dsimp only at h
      rw [if_neg hkeys] at h
      refine .bind (hoist_ends (n := s.weight) ?_ (by omega) hint) fun _ _ _ _ => .pure
      refine (h _ List.mem_cons_self).1.mono ?_
      rw [Task.need_declare, harray]
      simp
  · rename_i hnone
    rw [hnone] at h
    refine .bind (properties_ends (n := s.weight - 4) ?_ (by omega) hint) fun _ _ _ _ => .pure
    intro u hu
    have hneed := Task.need_fields hu
    exact ⟨(h u hu).1.mono (by omega), (h u hu).2⟩

theorem declare_ends (hs : (Task.declare s).Legible)
    (h : ∀ u, (Task.declare s).Needs u → EndsFrom root u.need u ∧ u.Legible) :
    EndsFrom root (Task.declare s).need (.declare s) := by
  intro fuel name hfuel
  have hparts := s.parts_le_weight
  rw [Task.need_declare] at hfuel
  obtain ⟨fuel, rfl⟩ := Nat.exists_eq_add_one.mpr (by omega : 0 < fuel)
  unfold Task.Needs at h
  rw [Task.needs] at h
  cases s with
  | null => exact .fail (by simp)
  | node k cs =>
    refine .ite (fun _ => declareAlias_ends root name _) fun href => ?_
    refine .ite (fun _ => declareEnum_ends hs name) fun henum => ?_
    rw [if_neg (by simpa using And.intro href henum)] at h
    refine .ite (fun hvariants => ?_) fun hvariants => ?_
    · rw [if_pos hvariants] at h
      refine .bind (variants_ends (n := (Schema.node k cs).weight - 4) ?_ (by omega) name)
        fun _ _ _ _ => .modify _
      intro u hu
      have hneed := Task.need_alternatives hu
      exact (h u hu).1.mono (by omega)
    rw [if_neg hvariants] at h
    refine .ite (fun harray => ?_) fun harray => ?_
    · rw [if_pos harray] at h hfuel
      have hrefer := (h _ List.mem_cons_self).1
      refine .bind (hrefer fuel name ?_) fun _ _ _ _ => .ite (fun _ => .modify _) fun _ => .modify _
      rw [Task.need_refer]
      omega
    rw [if_neg harray] at h
    refine .ite (fun hmodel => ?_) fun _ => declareScalar_ends name _
    rw [if_pos hmodel] at h
    refine .bind (model_ends (n := (Schema.node k cs).weight - (Schema.node k cs).parts.length - 4)
      ?_ (by omega) name) fun _ _ _ _ => .modify _
    intro u hu
    have hneed := Task.need_model hu
    exact ⟨(h u hu).1.mono (by omega), (h u hu).2⟩

theorem typeRef_ends (hknot : s.isKnotted = false) (hs : (Task.refer s).Legible)
    (h : ∀ u, (Task.refer s).Needs u → EndsFrom root u.need u ∧ u.Legible) :
    EndsFrom root (Task.refer s).need (.refer s) := by
  intro fuel hint hfuel
  have hparts := s.parts_le_weight
  have hlt : ∀ u, (Task.refer s).Needs u → u.need < s.weight + 3 :=
    fun u hu => Task.need_lt (t := .refer s) hknot hu
  -- where the schema itself is declared, it is no array
  have hdeclare : (Task.refer s).Needs (.declare s) → (Task.declare s).need ≤ s.weight := by
    intro hu
    have hself := hlt _ hu
    rw [Task.need_declare] at hself ⊢
    cases harray : s.isArray with
    | true =>
      rw [harray, if_pos rfl] at hself
      omega
    | false => simp
  rw [Task.need_refer] at hfuel
  obtain ⟨fuel, rfl⟩ := Nat.exists_eq_add_one.mpr (by omega : 0 < fuel)
  unfold Task.Needs at h hlt hdeclare
  rw [Task.needs] at h hlt hdeclare
  cases s with
  | null => exact .fail (by simp)
  | node k cs =>
    refine .ite (fun _ => .bind (refType_ends root _) fun _ _ _ _ => .pure) fun href => ?_
    refine .ite (fun _ => .bind (.lift (enumerated_ends hs)) fun _ _ _ _ => ?_) fun henum => ?_
    · split <;> exact .pure
    rw [if_neg (by simpa using And.intro href henum)] at h hlt hdeclare
    refine .ite (fun hvariants => ?_) fun hvariants => ?_
    · rw [if_pos hvariants] at h
      refine .bind (variants_ends (n := (Schema.node k cs).weight - 4) ?_ (by omega) hint)
        fun _ _ _ _ => ?_
      · intro u hu
        have hneed := Task.need_alternatives hu
        exact (h u hu).1.mono (by omega)
      · split <;> exact .pure
    rw [if_neg hvariants] at h hlt hdeclare
    have hhoist : EndsFrom root (Schema.node k cs).weight (.declare (.node k cs)) →
        Ends (do
          let t ← hoist root fuel hint (.node k cs)
          Pure.pure (t, ({} : Decorators))) := fun hends =>
      .bind (hoist_ends hends (by omega) hint) fun _ _ _ _ => .pure
    generalize (Schema.node k cs).parts = parts at h hlt hdeclare ⊢
    rcases parts with _ | ⟨part, _ | ⟨second, rest⟩⟩
    · refine .ite (fun harray => ?_) fun harray => .ite (fun hobject => ?_) fun _ => .pure
      · dsimp only at h
        rw [if_pos harray] at h
        refine arrayRef_ends (n := (Schema.node k cs).weight - 4) ?_ (by omega) hint
        intro u hu
        have hneed := Task.need_elements hu
        exact (h u hu).1.mono (by omega)
      · dsimp only at h
        rw [if_neg harray, if_pos hobject] at h
        exact objectRef_ends h (Bool.eq_false_iff.mpr harray) (by omega) hint
    · refine .ite (fun hobject => ?_) fun hobject => ?_
      · dsimp only at h hdeclare
        rw [if_pos hobject] at h hdeclare
        exact hhoist ((h _ List.mem_cons_self).1.mono (hdeclare List.mem_cons_self))
      · dsimp only at h hlt
        rw [if_neg hobject] at h hlt
        have hneed := hlt _ List.mem_cons_self
        exact (h _ List.mem_cons_self).1 fuel hint (by omega)
    · exact hhoist ((h _ List.mem_cons_self).1.mono (hdeclare List.mem_cons_self))

/-- Without knotted schemas, the measure of a task is depth enough for it. -/
theorem endsFrom_need {t : Task} (ht : t.Clear)
    (hlegible : ∀ u, Relation.ReflTransGen Task.Needs t u → u.Legible) :
    EndsFrom root t.need t := by
  generalize hn : t.need = n
  induction n using Nat.strong_induction_on generalizing t with
  | _ n ih =>
    subst hn
    have hneeds : ∀ u, t.Needs u → EndsFrom root u.need u ∧ u.Legible := by
      intro u hu
      refine ⟨ih u.need (ht.need_lt hu) (ht.needs hu) ?_ rfl, hlegible u (.single hu)⟩
      exact fun v hv => hlegible v (.head hu hv)
    cases t with
    | declare s => exact declare_ends (hlegible _ .refl) hneeds
    | refer s => exact typeRef_ends (ht _ .refl) (hlegible _ .refl) hneeds

end Depth

/-! ### Success -/

/-- Steps that succeed from some state on. -/
def Runs (m : Import α) : Prop := ∃ s a s', m s = .ok (a, s')

namespace Runs
variable {m : Import α} {f : α → Import β}

theorem bind (h : Runs (m >>= f)) : ∃ s a s', m s = .ok (a, s') ∧ Runs (f a) := by
  obtain ⟨s, b, s', hok⟩ := h
  obtain ⟨⟨a, t⟩, ha, hok⟩ := Result.bind_eq_ok.mp hok
  exact ⟨s, a, t, ha, t, b, s', hok⟩

theorem left (h : Runs (m >>= f)) : Runs m := by
  obtain ⟨s, a, s', ha, _⟩ := h.bind
  exact ⟨s, a, s', ha⟩

theorem right (h : Runs (m >>= f)) : ∃ a, Runs (f a) := by
  obtain ⟨_, a, _, _, ha⟩ := h.bind
  exact ⟨a, ha⟩

theorem of_within {position : Text} (h : Runs (within position m)) : Runs m := by
  obtain ⟨s, a, s', hok⟩ := h
  exact ⟨s, a, s', Result.within_eq_ok.mp hok⟩

theorem not_fail {c : Cause} : ¬ Runs (fail c : Import α) := by
  rintro ⟨s, a, s', hok⟩
  cases hok

theorem mapM {xs : List α} (h : Runs (xs.mapM f)) : ∀ x ∈ xs, Runs (f x) := by
  induction xs with
  | nil => simp
  | cons x xs ih =>
    rw [List.mapM_cons] at h
    obtain ⟨_, hrest⟩ := h.right
    intro y hy
    rcases List.mem_cons.mp hy with rfl | hy
    · exact h.left
    · exact ih hrest.left y hy

theorem eachIndexed {f : Nat → Schema → Import β} {i : Nat} {xs : List Schema}
    (h : Runs (eachIndexed f i xs)) : ∀ x ∈ xs, ∃ i, Runs (f i x) := by
  induction xs generalizing i with
  | nil => simp
  | cons x xs ih =>
    obtain ⟨_, hrest⟩ := h.right
    intro y hy
    rcases List.mem_cons.mp hy with rfl | hy
    · exact ⟨i, h.left⟩
    · exact ih hrest.left y hy

theorem forM {f : α → Import PUnit} {xs : List α} (h : Runs (xs.forM f)) :
    ∀ x ∈ xs, Runs (f x) := by
  induction xs with
  | nil => simp
  | cons x xs ih =>
    obtain ⟨_, hrest⟩ := h.right
    intro y hy
    rcases List.mem_cons.mp hy with rfl | hy
    · exact h.left
    · exact ih hrest y hy

end Runs

/-- A task succeeds with less than some depth. -/
def Done (root : Schema) (fuel : Nat) : Task → Prop
  | .declare s => ∃ n < fuel, ∃ name, Runs (declare root n name s)
  | .refer s => ∃ n < fuel, ∃ hint, Runs (typeRef root n hint s)

theorem Done.mono {n m : Nat} {t : Task} (h : Done root n t) (hnm : n ≤ m) : Done root m t := by
  cases t with
  | declare s =>
    obtain ⟨k, hk, hruns⟩ := h
    exact ⟨k, Nat.lt_of_lt_of_le hk hnm, hruns⟩
  | refer s =>
    obtain ⟨k, hk, hruns⟩ := h
    exact ⟨k, Nat.lt_of_lt_of_le hk hnm, hruns⟩

section Success
variable {s : Schema}

theorem hoist_done {hint : Text} (h : Runs (hoist root fuel hint s)) :
    Done root fuel (.declare s) := by
  cases fuel with
  | zero => exact absurd h Runs.not_fail
  | succ fuel =>
    obtain ⟨name, h⟩ := h.right
    exact ⟨fuel, Nat.lt_succ_self _, name, h.left⟩

theorem inlineRef_done {hint : Text} (h : Runs (inlineRef root fuel hint s)) :
    ∀ u ∈ Task.inline s, Done root fuel u := by
  cases fuel with
  | zero => exact absurd h Runs.not_fail
  | succ fuel =>
    obtain ⟨st, ⟨t, d⟩, st', hok, hrest⟩ := h.bind
    have hleft : d = s.leftover := typeRef_leftover hint s st _ st' hok
    intro u hu
    rcases List.mem_cons.mp hu with rfl | hu
    · exact ⟨fuel, Nat.lt_succ_self _, hint, h.left⟩
    · rw [← hleft] at hu
      split at hu
      · cases hu
      · rename_i hd
        dsimp only at hrest
        rw [if_neg hd] at hrest
        rw [List.mem_singleton.mp hu]
        exact (hoist_done hrest).mono (Nat.le_succ _)

theorem variants_done {hint : Text} (h : Runs (variants root fuel hint s)) :
    ∀ u ∈ s.alternatives.flatMap Task.inline, Done root fuel u := by
  cases fuel with
  | zero => exact absurd h Runs.not_fail
  | succ fuel =>
    intro u hu
    obtain ⟨c, hc, hu⟩ := List.mem_flatMap.mp hu
    rcases List.mem_append.mp hc with hc | hc
    · obtain ⟨i, hi⟩ := h.left.eachIndexed c hc
      exact (inlineRef_done hi u hu).mono (Nat.le_succ _)
    · obtain ⟨type, htype, rfl⟩ := List.mem_map.mp hc
      obtain ⟨hmem, hnull⟩ := List.mem_filter.mp htype
      obtain ⟨_, hrest⟩ := h.right
      have hruns := hrest.left.mapM type hmem
      rw [if_neg (by simpa using hnull)] at hruns
      exact (inlineRef_done hruns u hu).mono (Nat.le_succ _)

theorem properties_done {owner : Text} (h : Runs (properties root fuel owner s)) :
    ∀ u ∈ Task.fields s, Done root fuel u := by
  cases fuel with
  | zero => exact absurd h Runs.not_fail
  | succ fuel =>
    intro u hu
    obtain ⟨key, hkey, rfl⟩ := List.mem_map.mp hu
    have hproperty := h.mapM key hkey
    cases fuel with
    | zero => exact absurd hproperty Runs.not_fail
    | succ fuel => exact ⟨fuel, by omega, _, hproperty.left.of_within⟩

theorem allParts_done {parts : List Schema} {name : Text} {base : Option TypeRef}
    {props : List Property} (h : Runs (allParts root fuel name parts base props)) :
    ∀ c ∈ parts, c.isMixin = true → ∀ u ∈ Task.fields c, Done root fuel u := by
  induction parts generalizing fuel base props with
  | nil => simp
  | cons part rest ih =>
    cases fuel with
    | zero => exact absurd h Runs.not_fail
    | succ fuel =>
      rw [allParts] at h
      split at h
      · exact absurd h Runs.not_fail
      split at h
      · rename_i href
        split at h
        · exact absurd h Runs.not_fail
        obtain ⟨_, hrest⟩ := h.right
        intro c hc hmixin u hu
        rcases List.mem_cons.mp hc with rfl | hc
        · -- a reference gives no properties
          simp only [Schema.isMixin, Bool.and_eq_true] at hmixin
          simp [hmixin.1] at href
        · exact (ih hrest c hc hmixin u hu).mono (Nat.le_succ _)
      split at h
      · obtain ⟨_, hrest⟩ := h.right
        intro c hc hmixin u hu
        rcases List.mem_cons.mp hc with rfl | hc
        · exact (properties_done h.left u hu).mono (Nat.le_succ _)
        · exact (ih hrest c hc hmixin u hu).mono (Nat.le_succ _)
      · exact absurd h Runs.not_fail

theorem model_done {name : Text} (h : Runs (model root fuel name s)) :
    ∀ u ∈ Task.model s, Done root fuel u := by
  cases fuel with
  | zero => exact absurd h Runs.not_fail
  | succ fuel =>
    obtain ⟨_, hrest⟩ := h.right
    intro u hu
    refine Done.mono ?_ (Nat.le_succ fuel)
    rcases List.mem_append.mp hu with hu | hu
    · rcases List.mem_append.mp hu with hu | hu
      · obtain ⟨c, hc, hu⟩ := List.mem_flatMap.mp hu
        obtain ⟨hmem, hmixin⟩ := List.mem_filter.mp hc
        exact allParts_done h.left c hmem hmixin u hu
      · exact properties_done hrest.left u hu
    · obtain ⟨a, ha, hu⟩ := List.mem_flatMap.mp hu
      obtain ⟨_, hextra⟩ := hrest.right
      rw [Option.mem_toList.mp ha] at hextra
      exact inlineRef_done hextra.left u hu

theorem arrayRef_done {hint : Text} (h : Runs (arrayRef root fuel hint s)) :
    ∀ u ∈ s.elements.flatMap Task.inline, Done root fuel u := by
  cases fuel with
  | zero => exact absurd h Runs.not_fail
  | succ fuel =>
    intro u hu
    obtain ⟨c, hc, hu⟩ := List.mem_flatMap.mp hu
    refine Done.mono ?_ (Nat.le_succ fuel)
    rw [arrayRef] at h
    unfold Schema.elements at hc
    split at hc
    · rename_i hnone
      rw [hnone, Option.mem_toList.mp hc] at h
      exact inlineRef_done h.left u hu
    · rename_i hsome
      split at h
      · contradiction
      · obtain ⟨i, hi⟩ := h.left.eachIndexed c hc
        exact inlineRef_done hi u hu

theorem objectRef_done {hint : Text} (h : Runs (objectRef root fuel hint s)) :
    ∀ u ∈ Task.object s, Done root fuel u := by
  cases fuel with
  | zero => exact absurd h Runs.not_fail
  | succ fuel =>
    intro u hu
    refine Done.mono ?_ (Nat.le_succ fuel)
    rw [objectRef] at h
    unfold Task.object at hu
    split at hu
    · rename_i a ha
      rw [ha] at h
      split at hu
      · rename_i hkeys
        dsimp only at h
        rw [if_pos hkeys] at h
        exact inlineRef_done h.left u hu
      · rename_i hkeys
        dsimp only at h
        rw [if_neg hkeys] at h
        rw [List.mem_singleton.mp hu]
        exact hoist_done h.left
    · rename_i hnone
      rw [hnone] at h
      exact properties_done h.left u hu

theorem declare_done {name : Text} (h : Runs (declare root fuel name s)) {u : Task}
    (hu : (Task.declare s).Needs u) : Done root fuel u := by
  cases fuel with
  | zero => exact absurd h Runs.not_fail
  | succ fuel =>
    cases s with
    | null => exact absurd h Runs.not_fail
    | node k cs =>
      rw [declare] at h
      · rw [Task.Needs, Task.needs] at hu
        split at hu
        · cases hu
        rename_i hplain
        simp only [Bool.or_eq_true, not_or] at hplain
        dsimp only at h
        rw [if_neg hplain.1, if_neg hplain.2] at h
        split at hu
        · rename_i hvariants
          rw [if_pos hvariants] at h
          exact (variants_done h.left u hu).mono (Nat.le_succ _)
        rename_i hvariants
        rw [if_neg hvariants] at h
        split at hu
        · rename_i harray
          rw [if_pos harray] at h
          rw [List.mem_singleton.mp hu]
          exact ⟨fuel, Nat.lt_succ_self _, name, h.left⟩
        rename_i harray
        rw [if_neg harray] at h
        split at hu
        · rename_i hmodel
          rw [if_pos hmodel] at h
          exact (model_done h.left u hu).mono (Nat.le_succ _)
        · cases hu
      · simp

theorem typeRef_done {hint : Text} (h : Runs (typeRef root fuel hint s)) {u : Task}
    (hu : (Task.refer s).Needs u) : Done root fuel u := by
  cases fuel with
  | zero => exact absurd h Runs.not_fail
  | succ fuel =>
    cases s with
    | null => exact absurd h Runs.not_fail
    | node k cs =>
      rw [typeRef] at h
      · rw [Task.Needs, Task.needs] at hu
        split at hu
        · cases hu
        rename_i hplain
        simp only [Bool.or_eq_true, not_or] at hplain
        rw [if_neg hplain.1, if_neg hplain.2] at h
        split at hu
        · rename_i hvariants
          rw [if_pos hvariants] at h
          exact (variants_done h.left u hu).mono (Nat.le_succ _)
        rename_i hvariants
        rw [if_neg hvariants] at h
        generalize (Schema.node k cs).parts = parts at h hu
        rcases parts with _ | ⟨part, _ | ⟨second, rest⟩⟩
        · dsimp only at h hu
          split at hu
          · rename_i harray
            rw [if_pos harray] at h
            exact (arrayRef_done h u hu).mono (Nat.le_succ _)
          rename_i harray
          rw [if_neg harray] at h
          split at hu
          · rename_i hobject
            rw [if_pos hobject] at h
            exact (objectRef_done h u hu).mono (Nat.le_succ _)
          · cases hu
        · dsimp only at h hu
          split at hu
          · rename_i hobject
            rw [if_pos hobject] at h
            rw [List.mem_singleton.mp hu]
            exact (hoist_done h.left).mono (Nat.le_succ _)
          · rename_i hobject
            rw [if_neg hobject] at h
            rw [List.mem_singleton.mp hu]
            exact ⟨fuel, Nat.lt_succ_self _, hint, h⟩
        · rw [List.mem_singleton.mp hu]
          exact (hoist_done h.left).mono (Nat.le_succ _)
      · simp

/-- What a task needs succeeds with less depth than the task has. -/
theorem Done.needs {t u : Task} (h : Done root fuel t) (hu : t.Needs u) :
    ∃ n < fuel, Done root n u := by
  cases t with
  | declare s =>
    obtain ⟨n, hn, name, hruns⟩ := h
    exact ⟨n, hn, declare_done hruns hu⟩
  | refer s =>
    obtain ⟨n, hn, hint, hruns⟩ := h
    exact ⟨n, hn, typeRef_done hruns hu⟩

theorem Done.trans {t u : Task} (h : Done root fuel t) (hu : Relation.TransGen Task.Needs t u) :
    ∃ n < fuel, Done root n u := by
  induction hu with
  | single hneeds => exact h.needs hneeds
  | tail _ hneeds ih =>
    obtain ⟨n, hn, hdone⟩ := ih
    obtain ⟨m, hm, hdone⟩ := hdone.needs hneeds
    exact ⟨m, Nat.lt_trans hm hn, hdone⟩

/-- No task that succeeds leads back to itself. -/
theorem Done.not_loop {t : Task} (h : Done root fuel t) : ¬ Relation.TransGen Task.Needs t t := by
  intro hloop
  induction fuel using Nat.strong_induction_on with
  | _ fuel ih =>
    obtain ⟨n, hn, hdone⟩ := h.trans hloop
    exact ih n hn hdone

theorem Done.clear {t : Task} (h : Done root fuel t) : t.Clear := by
  rw [Task.clear_iff_no_loop]
  intro u hu hloop
  rcases Relation.reflTransGen_iff_eq_or_transGen.mp hu with rfl | hu
  · exact h.not_loop hloop
  · obtain ⟨n, _, hdone⟩ := h.trans hu
    exact hdone.not_loop hloop

/-! ### Knotted schemas -/

/-- Whatever the state, the depth is used up. -/
def Diverges (m : Import α) : Prop := ∀ s, Result.cause? (m s) = some .diverges

theorem Diverges.bind {m : Import α} {f : α → Import β} (h : Diverges m) : Diverges (m >>= f) := by
  intro s
  obtain ⟨e, he, hcause⟩ := Result.cause?_eq_some.mp (h s)
  exact Result.cause?_eq_some.mpr ⟨e, Result.bind_eq_error.mpr (.inl he), hcause⟩

theorem Diverges.within {m : Import α} {position : Text} (h : Diverges m) :
    Diverges (within position m) := by
  intro s
  obtain ⟨e, he, hcause⟩ := Result.cause?_eq_some.mp (h s)
  exact Result.cause?_eq_some.mpr ⟨_, Result.within_eq_error.mpr ⟨e, he, rfl⟩, hcause⟩

theorem Diverges.after_modify {g : Importing → Importing} {f : PUnit → Import α}
    (h : Diverges (f ⟨⟩)) : Diverges (modify g >>= f) := fun s => h (g s)

/-- No depth is enough for a knotted schema. -/
theorem diverges_of_isKnotted (root : Schema) (hs : s.isKnotted = true) (fuel : Nat) :
    (∀ name, Diverges (declare root fuel name s)) ∧ (∀ hint, Diverges (hoist root fuel hint s)) ∧
      ∀ hint, Diverges (typeRef root fuel hint s) := by
  induction fuel with
  | zero => exact ⟨fun _ _ => rfl, fun _ _ => rfl, fun _ _ => rfl⟩
  | succ fuel ih =>
    obtain ⟨hdeclare, hhoist, htypeRef⟩ := ih
    simp only [Schema.isKnotted, Bool.and_eq_true, Bool.not_eq_true'] at hs
    obtain ⟨⟨⟨⟨href, henum⟩, hvariants⟩, harray⟩, hparts⟩ := hs
    cases s with
    | null => cases harray
    | node k cs =>
      refine ⟨fun name => ?_, fun hint st => ?_, fun hint => ?_⟩
      · rw [declare]
        · simp only [href, henum, hvariants, harray]
          exact (htypeRef name).bind
        · simp
      · -- the name is always there, so it is the declaration that goes on
        have hnext := (hdeclare (freshName hint st.used)).bind
          (f := fun _ => pure (TypeRef.named (freshName hint st.used)))
        exact hnext { st with used := freshName hint st.used :: st.used }
      · rw [typeRef]
        · simp only [href, henum, hvariants]
          split at hparts
          · cases hparts
          · rename_i part hone
            simp only [hone, hparts]
            exact (hhoist hint).bind
          · rename_i first second rest hmany
            simp only [hmany]
            exact (hhoist hint).bind
        · simp

end Success

end Import

/-! ### Documents -/

namespace Schema

/-- The tasks an import begins with: to declare each definition, and the root if it is an object. -/
def tasks (root : Schema) : List Task :=
  root.orderedDefs.map (fun n => .declare ((root.def? n).getD .null)) ++
    if root.isObject then [.declare root] else []

/-- No knotted schema is come to. -/
def Untangled (root : Schema) : Prop := ∀ t ∈ root.tasks, t.Clear

/-- The reading of all values that are come to ends. -/
def Legible (root : Schema) : Prop :=
  ∀ t ∈ root.tasks, ∀ u, Relation.ReflTransGen Task.Needs t u → u.Legible

theorem size_def {root : Schema} {n : String} (h : n ∈ root.orderedDefs) :
    ((root.def? n).getD .null).size < root.size := by
  obtain ⟨c, hc⟩ := Option.isSome_iff_exists.mp (mem_orderedDefs.mp h)
  rw [hc]
  unfold def? at hc
  rcases Option.or_eq_some_iff.mp hc with hc | ⟨_, hc⟩
  · have := size_other (mem_of_child? hc) rfl
    simp only [Option.getD_some]
    omega
  · have := size_other (mem_of_child? hc) rfl
    simp only [Option.getD_some]
    omega

theorem need_le_fuelFor {root : Schema} {t : Task} (h : t ∈ root.tasks) :
    t.need ≤ Import.fuelFor root := by
  have hsize : t.schema.size ≤ root.size := by
    rcases List.mem_append.mp h with h | h
    · obtain ⟨n, hn, rfl⟩ := List.mem_map.mp h
      exact Nat.le_of_lt (size_def hn)
    · split at h
      · rw [List.mem_singleton.mp h]
        exact Nat.le_refl _
      · cases h
  have := t.need_le
  unfold Import.fuelFor
  omega

end Schema

namespace Import

theorem document_of_not_null {root : Schema} (h : root.isNull = false) (name : Text) :
    document root name = (do
      modify fun s => { s with used := root.orderedDefs.map Text.ofString }
      root.orderedDefs.forM fun n => within ("$defs/" ++ (Text.ofString n).mentioned)
        (declare root (fuelFor root) (Text.ofString n) ((root.def? n).getD .null))
      if root.isObject then
        let fresh ← unique (if name.isEmpty then "Root" else name)
        within (Text.mentioned (if name.isEmpty then "Root" else name))
          (declare root (fuelFor root) fresh root)
      else pure ()) := by
  unfold document
  rw [h]
  rfl

theorem document_ends {root : Schema} {name : Text} (hroot : root.Untangled)
    (hlegible : root.Legible) : Ends (document root name) := by
  have htask : ∀ s name, .declare s ∈ root.tasks → Ends (declare root (fuelFor root) name s) :=
    fun s name hs => endsFrom_need (hroot _ hs) (hlegible _ hs) _ name (Schema.need_le_fuelFor hs)
  cases hnull : root.isNull with
  | true =>
    intro s e he
    unfold document at he
    rw [hnull] at he
    cases he
    simp
  | false =>
    rw [document_of_not_null hnull]
    refine .bind (.modify _) fun _ _ _ _ => .bind (.forM fun n hn => .within ?_) fun _ _ _ _ => ?_
    · exact htask _ _ (List.mem_append_left _ (List.mem_map_of_mem hn))
    · refine .ite (fun hobject => ?_) fun _ => .pure
      refine .bind (.unique _) fun _ fresh _ _ => .within (htask root fresh ?_)
      rw [Schema.tasks, if_pos hobject]
      simp

theorem untangled_of_document {root : Schema} {name : Text} (h : Runs (document root name)) :
    root.Untangled := by
  have htask : ∀ s name, Runs (declare root (fuelFor root) name s) → (Task.declare s).Clear :=
    fun s name hs => Done.clear ⟨fuelFor root, Nat.lt_succ_self _, name, hs⟩
  have hnull : root.isNull = false := by
    apply Bool.eq_false_iff.mpr
    intro hnull
    obtain ⟨s, a, s', hok⟩ := h
    unfold document at hok
    rw [hnull] at hok
    cases hok
  rw [document_of_not_null hnull] at h
  obtain ⟨_, hdefs⟩ := h.right
  intro t ht
  rcases List.mem_append.mp ht with ht | ht
  · obtain ⟨n, hn, rfl⟩ := List.mem_map.mp ht
    exact htask _ _ (hdefs.left.forM n hn).of_within
  · obtain ⟨_, hobject⟩ := hdefs.right
    split at ht
    · rename_i hroot
      rw [if_pos hroot] at hobject
      obtain ⟨fresh, hfresh⟩ := hobject.right
      rw [List.mem_singleton.mp ht]
      exact htask _ fresh hfresh.of_within
    · cases ht

end Import

/-- An import has a depth that it never passes exactly if no knotted schema is come to, which is to
say that no task leads back to itself. It then ends, as far as the reading of values does. With a
knotted schema that is come to there is no document, and on the schema itself the import goes on for
ever whatever the depth. -/
theorem Schema.toDocument_ends_iff (root : Schema) (name : Text) :
    (root.Untangled ↔ ∃ depth, ∀ t ∈ root.tasks, ¬ Task.Descends depth t) ∧
    (root.Untangled ↔ ∀ t ∈ root.tasks, ∀ u, Relation.ReflTransGen Task.Needs t u →
      ¬ Relation.TransGen Task.Needs u u) ∧
    (root.Untangled → root.Legible → (root.toDocument name).cause? ≠ some .diverges) ∧
    (¬ root.Untangled → ∀ d, root.toDocument name ≠ .ok d) ∧
    ∀ s : Schema, s.isKnotted = true → ∀ fuel hint, Import.Diverges (Import.typeRef root fuel hint s) := by
  refine ⟨⟨?_, ?_⟩, ?_, ?_, ?_, ?_⟩
  · intro hroot
    refine ⟨Import.fuelFor root + 1, fun t ht hdescends => ?_⟩
    have hle := hdescends.le_need (hroot t ht)
    have hfuel := need_le_fuelFor ht
    omega
  · rintro ⟨depth, hdepth⟩ t ht
    exact Task.clear_iff_bounded.mpr ⟨depth, hdepth t ht⟩
  · exact forall_congr' fun t => forall_congr' fun _ => Task.clear_iff_no_loop
  · intro hroot hlegible hdiverges
    obtain ⟨e, he, hcause⟩ := Result.cause?_eq_some.mp hdiverges
    rcases Result.bind_eq_error.mp he with he | ⟨_, _, he⟩
    · exact Import.document_ends hroot hlegible _ e he hcause
    · cases he
  · intro hroot d hd
    obtain ⟨⟨_, s⟩, hs, _⟩ := Result.bind_eq_ok.mp hd
    exact hroot (Import.untangled_of_document ⟨_, _, s, hs⟩)
  · exact fun s hs fuel hint => (Import.diverges_of_isKnotted root hs fuel).2.2 hint

/-- A definition with a name. -/
def onlyDef (s : Schema) : Schema := .node { defOrder := some ["Tags"] } [(.def_ "Tags", s)]

/-- An array with a limit. -/
def tags : Schema :=
  .node { type := "array", minItems := some 1 } [(.items, .node { type := "string" } [])]

/-- The same with the limits as parts of a conjunction. -/
def knottedTags : Schema :=
  .node { type := "array" }
    [(.items, .node { type := "string" } []), (.allOf 0, .node { minItems := some 1 } []),
     (.allOf 1, .node { maxItems := some 3 } [])]

theorem orderedDefs_onlyDef (s : Schema) : (onlyDef s).orderedDefs = ["Tags"] := by cbv

theorem tasks_onlyDef (s : Schema) : (onlyDef s).tasks = [.declare s] := by
  rw [Schema.tasks, orderedDefs_onlyDef]
  rfl

theorem reached_of_tags {u : Task} (h : Relation.ReflTransGen Task.Needs (.declare tags) u) :
    u ∈ [Task.declare tags, .refer tags, .refer (.node { type := "string" } [])] := by
  induction h with
  | refl => simp
  | tail _ hneeds ih =>
    rw [Task.Needs] at hneeds
    simp only [List.mem_cons, List.not_mem_nil, or_false] at ih
    rcases ih with rfl | rfl | rfl
    · have hself : Task.needs (.declare tags) = [.refer tags] := by rfl
      rw [hself] at hneeds
      simp_all
    · have hitems : Task.needs (.refer tags) = [.refer (.node { type := "string" } [])] := by rfl
      rw [hitems] at hneeds
      simp_all
    · cases hneeds

theorem isKnotted_knottedTags : knottedTags.isKnotted = true := by decide

/-- The plain array is imported to the end, and the one with parts is never imported. -/
theorem toDocument_ends_iff_tags :
    ((onlyDef tags).Untangled ∧ (onlyDef tags).Legible ∧
      ((onlyDef tags).toDocument []).cause? ≠ some .diverges) ∧
    ¬ (onlyDef knottedTags).Untangled ∧ ∀ d, (onlyDef knottedTags).toDocument [] ≠ .ok d := by
  have hclear : (onlyDef tags).Untangled := by
    intro t ht u hu
    rw [tasks_onlyDef] at ht
    rw [List.mem_singleton.mp ht] at hu
    have hmem := reached_of_tags hu
    simp only [List.mem_cons, List.not_mem_nil, or_false] at hmem
    rcases hmem with rfl | rfl | rfl <;> decide
  have hlegible : (onlyDef tags).Legible := by
    intro t ht u hu
    rw [tasks_onlyDef] at ht
    rw [List.mem_singleton.mp ht] at hu
    have hmem := reached_of_tags hu
    simp only [List.mem_cons, List.not_mem_nil, or_false] at hmem
    rcases hmem with rfl | rfl | rfl <;> exact List.forall_mem_nil _
  have hknot : ¬ (onlyDef knottedTags).Untangled := by
    intro hroot
    have hself := hroot (.declare knottedTags) (by simp [tasks_onlyDef]) _ .refl
    rw [Task.schema, isKnotted_knottedTags] at hself
    cases hself
  exact ⟨⟨hclear, hlegible, (Schema.toDocument_ends_iff (onlyDef tags) []).2.2.1 hclear hlegible⟩,
    hknot, (Schema.toDocument_ends_iff (onlyDef knottedTags) []).2.2.2.1 hknot⟩

/-- No depth is enough to declare the array with parts, and its import comes to that at once. -/
theorem knottedTags_never_ends :
    (∀ fuel name, Import.Diverges (Import.declare (onlyDef knottedTags) fuel name knottedTags)) ∧
    ((onlyDef knottedTags).toDocument []).cause? = some .diverges := by
  have hdeclare := fun fuel =>
    (Import.diverges_of_isKnotted (onlyDef knottedTags) isKnotted_knottedTags fuel).1
  refine ⟨hdeclare, ?_⟩
  have hdocument : Import.Diverges (Import.document (onlyDef knottedTags) []) := by
    have hdef : ((onlyDef knottedTags).def? "Tags").getD .null = knottedTags := rfl
    rw [Import.document_of_not_null rfl, orderedDefs_onlyDef]
    apply Import.Diverges.after_modify
    apply Import.Diverges.bind
    rw [List.forM, hdef]
    exact (hdeclare _ _).within.bind
  obtain ⟨e, he, hcause⟩ := Result.cause?_eq_some.mp (hdocument {})
  exact Result.cause?_eq_some.mpr ⟨e, Result.bind_eq_error.mpr (.inl he), hcause⟩

end SchemaLoom

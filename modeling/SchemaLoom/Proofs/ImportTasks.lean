import Mathlib.Logic.Relation
import SchemaLoom.JsonSchema.Import
import SchemaLoom.Proofs.FreshNames

/-!
# What an import calls

To declare a schema and to refer to one are the two tasks of an import. Either needs
other tasks, mostly for subschemas, but a reference may need a declaration of the very
same schema, and a declaration a reference. A schema is knotted where both happen.
Apart from knotted schemas every task needs less than it is itself.

Nothing here runs an import.
-/

namespace SchemaLoom

set_option autoImplicit false

namespace Schema

mutual
/-- The constraints that a reference to a schema leaves out. -/
def leftover : Schema → Decorators
  | null => {}
  | node k cs =>
    if !k.ref.isEmpty then (node k cs).decorators
    else if (node k cs).isEnumerated || (node k cs).hasVariants then {}
    else match leftoverParts cs with
      | [d] => if (node k cs).isObject then {} else d
      | _ :: _ :: _ => {}
      | [] =>
        if (node k cs).isArray then
          if ((node k cs).under (.prefixItem 0)).isEmpty then
            { minItems := k.minItems, maxItems := k.maxItems }
          else {}
        else if (node k cs).isObject then {}
        else (node k cs).decorators

def leftoverParts : List (Location × Schema) → List Decorators
  | [] => []
  | c :: cs =>
    if c.1.sameKeyword (.allOf 0) then leftoverPart c :: leftoverParts cs else leftoverParts cs

def leftoverPart : Location × Schema → Decorators
  | (_, s) => s.leftover
end

theorem leftoverParts_eq (k : Keywords) (cs : List (Location × Schema)) :
    leftoverParts cs = (node k cs).parts.map leftover := by
  unfold parts under children
  dsimp only
  induction cs with
  | nil => rfl
  | cons c cs ih =>
    obtain ⟨l, s⟩ := c
    rw [leftoverParts, List.filter_cons, ih]
    dsimp only
    split <;> rfl

theorem leftover_of_not_null {s : Schema} (hs : s.isNull = false) : s.leftover =
    if !s.keywords.ref.isEmpty then s.decorators
    else if s.isEnumerated || s.hasVariants then {}
    else match s.parts with
      | [part] => if s.isObject then {} else part.leftover
      | _ :: _ :: _ => {}
      | [] =>
        if s.isArray then
          if (s.under (.prefixItem 0)).isEmpty then
            { minItems := s.keywords.minItems, maxItems := s.keywords.maxItems }
          else {}
        else if s.isObject then {}
        else s.decorators := by
  cases s with
  | null => cases hs
  | node k cs =>
    rw [leftover, leftoverParts_eq k cs]
    rcases (node k cs).parts with _ | ⟨part, _ | ⟨second, rest⟩⟩ <;> rfl

/-- A part of a conjunction that gives properties. -/
def isMixin (s : Schema) : Bool := s.keywords.ref.isEmpty && s.isObject

theorem isMixin_of_ref {s : Schema} (h : (!s.keywords.ref.isEmpty) = true) :
    s.isMixin = false := by
  simp_all [isMixin]

theorem isMixin_of_isObject {s : Schema} (href : ¬ (!s.keywords.ref.isEmpty) = true)
    (h : s.isObject = true) : s.isMixin = true := by
  simp_all [isMixin]

/-- The alternatives that need a reference: those written out, then the types but null. -/
def alternatives (s : Schema) : List Schema :=
  (s.under (.anyOf 0) ++ s.under (.oneOf 0)).map (·.2) ++
    ((s.keywords.types.getD []).filter (· != "null")).map s.ofType

/-- The schemas of the elements of an array. -/
def elements (s : Schema) : List Schema :=
  match s.under (.prefixItem 0) with
  | [] => (s.child? .items).toList
  | items => items.map (·.2)

/-- The size of a schema; types stand for copies of it that have none. -/
def weight (s : Schema) : Nat := 16 * s.size + if s.hasTypes then 8 else 0

/-- A reference and a declaration ask for each other. -/
def isKnotted (s : Schema) : Bool :=
  s.keywords.ref.isEmpty && !s.isEnumerated && !s.hasVariants && s.isArray &&
    match s.parts with
    | [] => false
    | [_] => s.isObject
    | _ :: _ :: _ => true

end Schema

/-- What an import does with a schema. -/
inductive Task where
  | declare (s : Schema)
  | refer (s : Schema)

namespace Task

def schema : Task → Schema
  | declare s | refer s => s

/-- A reference that cannot carry constraints. -/
def inline (s : Schema) : List Task :=
  refer s :: if s.leftover.isEmpty then [] else [declare s]

def fields (s : Schema) : List Task :=
  s.orderedProperties.map fun key => refer ((s.property? key).getD .null)

def model (s : Schema) : List Task :=
  (s.parts.filter Schema.isMixin).flatMap fields ++ fields s ++
    s.extraProperties?.toList.flatMap inline

def object (s : Schema) : List Task :=
  match s.extraProperties? with
  | some a => if s.propertyKeys.isEmpty then inline a else [declare s]
  | none => fields s

/-- The tasks a task comes to by itself. -/
def needs : Task → List Task
  | declare s =>
    if !s.keywords.ref.isEmpty || s.isEnumerated then []
    else if s.hasVariants then s.alternatives.flatMap inline
    else if s.isArray then [refer s]
    else if s.isObject || !s.parts.isEmpty then model s
    else []
  | refer s =>
    if !s.keywords.ref.isEmpty || s.isEnumerated then []
    else if s.hasVariants then s.alternatives.flatMap inline
    else match s.parts with
      | [part] => if s.isObject then [declare s] else [refer part]
      | _ :: _ :: _ => [declare s]
      | [] =>
        if s.isArray then s.elements.flatMap inline
        else if s.isObject then object s
        else []

def Needs (t u : Task) : Prop := u ∈ t.needs

/-- A depth that is enough for a task; an array is declared by way of a reference. -/
def need : Task → Nat
  | declare s => s.weight + if s.isArray then 4 else 0
  | refer s => s.weight + 3

end Task

/-! ### Sizes -/

namespace Schema
variable {s c : Schema}

theorem size_pos (s : Schema) : 0 < s.size := by
  cases s <;> simp [size]

theorem sizeAll_cons (c : Location × Schema) (cs : List (Location × Schema)) :
    sizeAll (c :: cs) = c.2.size + sizeAll cs := by
  cases c
  rfl

theorem length_le_sizeAll (cs : List (Location × Schema)) : cs.length ≤ sizeAll cs := by
  induction cs with
  | nil => simp [sizeAll]
  | cons c cs ih =>
    have hpos := c.2.size_pos
    rw [sizeAll_cons, List.length_cons]
    omega

/-- A subschema leaves room for the parts of a conjunction beside it. -/
theorem size_add_length_le (p : Location × Schema → Bool) {cs : List (Location × Schema)}
    {c : Location × Schema} (hc : c ∈ cs) :
    c.2.size + (cs.filter p).length ≤ sizeAll cs + if p c then 1 else 0 := by
  induction cs with
  | nil => cases hc
  | cons a cs ih =>
    have hrest : (cs.filter p).length ≤ sizeAll cs :=
      Nat.le_trans (List.length_filter_le _ _) (length_le_sizeAll cs)
    have hpos := a.2.size_pos
    have hcons : ((a :: cs).filter p).length ≤ (cs.filter p).length + if p a then 1 else 0 := by
      rw [List.filter_cons]
      split <;> simp
    have hone : (if p a then 1 else 0) ≤ 1 := by split <;> omega
    rw [sizeAll_cons]
    rcases List.mem_cons.mp hc with rfl | hc
    · omega
    · have := ih hc
      omega

theorem size_eq (s : Schema) (hs : s.children ≠ []) : s.size = sizeAll s.children + 1 := by
  cases s with
  | null => exact absurd rfl hs
  | node k cs => rfl

theorem length_parts (s : Schema) :
    s.parts.length = (s.children.filter fun c => c.1.sameKeyword (.allOf 0)).length := by
  simp [parts, under]

theorem size_part (h : c ∈ s.parts) : c.size + s.parts.length ≤ s.size := by
  obtain ⟨x, hx, rfl⟩ := List.mem_map.mp h
  obtain ⟨hmem, hl⟩ := List.mem_filter.mp hx
  have hsize := size_add_length_le (fun c => c.1.sameKeyword (.allOf 0)) hmem
  rw [size_eq s (List.ne_nil_of_mem hmem), length_parts]
  simp only [hl, if_true] at hsize
  omega

theorem size_other {l : Location} (h : (l, c) ∈ s.children)
    (hl : l.sameKeyword (.allOf 0) = false) : c.size + s.parts.length + 1 ≤ s.size := by
  have hsize := size_add_length_le (fun c => c.1.sameKeyword (.allOf 0)) h
  rw [size_eq s (List.ne_nil_of_mem h), length_parts]
  simp only [hl, Bool.false_eq_true, if_false] at hsize
  omega

theorem size_under {l : Location} (h : c ∈ (s.under l).map (·.2)) : c.size < s.size := by
  obtain ⟨x, hx, rfl⟩ := List.mem_map.mp h
  obtain ⟨hmem, _⟩ := List.mem_filter.mp hx
  have hsize := size_add_length_le (fun _ => false) hmem
  rw [size_eq s (List.ne_nil_of_mem hmem)]
  simp only [Bool.false_eq_true, if_false] at hsize
  omega

theorem size_element (h : c ∈ s.elements) : c.size < s.size := by
  unfold elements at h
  split at h
  · obtain hc := Option.mem_toList.mp h
    have := size_other (mem_of_child? hc) rfl
    omega
  · exact size_under h

theorem size_extraProperties? (h : s.extraProperties? = some c) :
    c.size + s.parts.length + 1 ≤ s.size := by
  obtain ⟨hc, _⟩ := Option.filter_eq_some_iff.mp h
  exact size_other (mem_of_child? hc) rfl

theorem mem_propertyKeys {key : String} : key ∈ s.propertyKeys ↔ (s.property? key).isSome = true := by
  unfold propertyKeys property?
  rw [child?_isSome, List.mem_filterMap]
  constructor
  · rintro ⟨⟨l, c⟩, hmem, hl⟩
    refine ⟨(l, c), hmem, ?_⟩
    split at hl <;> simp_all
  · rintro ⟨x, hx, hl⟩
    exact ⟨x, hx, by rw [hl]⟩

theorem size_field {key : String} (h : key ∈ s.orderedProperties) :
    ((s.property? key).getD .null).size + s.parts.length + 1 ≤ s.size := by
  obtain ⟨c, hc⟩ := Option.isSome_iff_exists.mp (mem_propertyKeys.mp (mem_orderedKeys.mp h))
  rw [hc]
  exact size_other (mem_of_child? hc) rfl

theorem parts_le_weight (s : Schema) : 16 * (s.parts.length + 1) ≤ s.weight := by
  have hsize : s.parts.length + 1 ≤ s.size := by
    cases s with
    | null => exact Nat.le_refl _
    | node k cs =>
      rw [length_parts]
      exact Nat.succ_le_succ (Nat.le_trans (List.length_filter_le _ _) (length_le_sizeAll cs))
  unfold weight
  omega

theorem size_ofType (hs : s.hasTypes = true) (type : String) : (s.ofType type).size = s.size := by
  cases s with
  | null => cases hs
  | node k cs => rfl

end Schema

namespace Task
variable {s c : Schema} {t u : Task}

theorem need_declare (s : Schema) : (declare s).need = s.weight + if s.isArray then 4 else 0 := rfl

theorem need_refer (s : Schema) : (refer s).need = s.weight + 3 := rfl

theorem need_le (t : Task) : t.need ≤ 16 * t.schema.size + 12 := by
  have hweight : t.schema.weight ≤ 16 * t.schema.size + 8 := by
    unfold Schema.weight
    split <;> omega
  cases t with
  | declare s =>
    rw [need_declare]
    split <;> exact Nat.le_trans (Nat.add_le_add_right hweight _) (by omega)
  | refer s => exact Nat.le_trans (Nat.add_le_add_right hweight _) (by omega)

theorem schema_of_mem_inline (h : u ∈ inline s) : u.schema = s := by
  unfold inline at h
  rcases List.mem_cons.mp h with rfl | h
  · rfl
  · split at h
    · cases h
    · rw [List.mem_singleton.mp h]
      rfl

theorem need_inline (h : u ∈ inline c) : u.need ≤ 16 * c.size + 12 := by
  have hle := u.need_le
  rwa [schema_of_mem_inline h] at hle

theorem need_fields (h : u ∈ fields s) : u.need + 16 * s.parts.length + 5 ≤ 16 * s.size := by
  obtain ⟨key, hkey, rfl⟩ := List.mem_map.mp h
  have hsize := Schema.size_field hkey
  rw [need_refer, Schema.weight]
  split <;> omega

theorem need_alternatives (h : u ∈ s.alternatives.flatMap inline) : u.need + 4 ≤ s.weight := by
  obtain ⟨c, hc, hu⟩ := List.mem_flatMap.mp h
  unfold Schema.alternatives at hc
  rcases List.mem_append.mp hc with hc | hc
  · rw [List.map_append] at hc
    have hsize : c.size < s.size :=
      (List.mem_append.mp hc).elim Schema.size_under Schema.size_under
    have := need_inline hu
    unfold Schema.weight
    omega
  · obtain ⟨type, htype, rfl⟩ := List.mem_map.mp hc
    have htypes : s.hasTypes = true := by
      unfold Schema.hasTypes
      cases hlist : s.keywords.types.getD [] with
      | nil =>
        rw [hlist] at htype
        cases htype
      | cons => rfl
    have hweight : (s.ofType type).weight + 8 = s.weight := by
      rw [Schema.weight, Schema.weight, Schema.size_ofType htypes, if_pos htypes]
      rfl
    have hschema := schema_of_mem_inline hu
    cases u with
    | declare d =>
      obtain rfl : d = s.ofType type := hschema
      rw [need_declare]
      split <;> omega
    | refer d =>
      obtain rfl : d = s.ofType type := hschema
      rw [need_refer]
      omega

/-- The parts of a conjunction are gone through one by one, so they count too. -/
theorem need_model (h : u ∈ model s) : u.need + s.parts.length + 4 ≤ s.weight := by
  unfold model at h
  unfold Schema.weight
  rcases List.mem_append.mp h with h | h
  · rcases List.mem_append.mp h with h | h
    · obtain ⟨c, hc, hu⟩ := List.mem_flatMap.mp h
      have hfields := need_fields hu
      have hsize := Schema.size_part (List.mem_filter.mp hc).1
      omega
    · have := need_fields h
      omega
  · obtain ⟨a, ha, hu⟩ := List.mem_flatMap.mp h
    have hsize := Schema.size_extraProperties? (Option.mem_toList.mp ha)
    have := need_inline hu
    omega

theorem need_object (hs : s.isArray = false) (h : u ∈ object s) : u.need ≤ s.weight := by
  unfold object at h
  split at h
  · rename_i a ha
    split at h
    · have hsize := Schema.size_extraProperties? ha
      have := need_inline h
      unfold Schema.weight
      omega
    · rw [List.mem_singleton.mp h, need_declare, hs]
      simp
  · have := need_fields h
    unfold Schema.weight
    omega

theorem need_elements (h : u ∈ s.elements.flatMap inline) : u.need + 4 ≤ s.weight := by
  obtain ⟨c, hc, hu⟩ := List.mem_flatMap.mp h
  have hsize := Schema.size_element hc
  have := need_inline hu
  unfold Schema.weight
  omega

/-- Every task needs less than it is itself, unless its schema is knotted. -/
theorem need_lt (ht : t.schema.isKnotted = false) (h : t.Needs u) : u.need < t.need := by
  unfold Needs at h
  cases t with
  | declare s =>
    rw [need_declare]
    rw [needs] at h
    split at h
    · cases h
    · split at h
      · have := need_alternatives h
        omega
      · split at h
        · rename_i harray
          rw [List.mem_singleton.mp h, need_refer, if_pos harray]
          omega
        · split at h
          · have := need_model h
            omega
          · cases h
  | refer s =>
    rw [need_refer]
    change s.isKnotted = false at ht
    rw [needs] at h
    split at h
    · cases h
    · rename_i hplain
      split at h
      · have := need_alternatives h
        omega
      · rename_i hvariants
        -- a schema with parts that is not knotted is only declared if it is no array
        have hdeclare : s.isArray = false → (declare s).need < s.weight + 3 := by
          intro harray
          rw [need_declare, harray]
          simp
        simp only [Bool.or_eq_true, Bool.not_eq_true', not_or, Bool.not_eq_false,
          Bool.not_eq_true] at hplain hvariants
        split at h
        · rename_i part hparts
          split at h
          · rename_i hobject
            rw [List.mem_singleton.mp h]
            apply hdeclare
            simpa [Schema.isKnotted, hparts, hplain, hvariants, hobject] using ht
          · rw [List.mem_singleton.mp h]
            have hsize := Schema.size_part (s := s) (c := part) (by simp [hparts])
            have hle := (refer part).need_le
            rw [hparts] at hsize
            simp only [schema, List.length_singleton] at hsize hle
            unfold Schema.weight
            omega
        · rename_i hparts
          rw [List.mem_singleton.mp h]
          apply hdeclare
          simpa [Schema.isKnotted, hparts, hplain, hvariants] using ht
        · split at h
          · have := need_elements h
            omega
          · split at h
            · rename_i harray _
              have := need_object (Bool.eq_false_iff.mpr harray) h
              omega
            · cases h

/-! ### Chains of tasks -/

/-- A chain of some length begins at a task. -/
inductive Descends : Nat → Task → Prop
  | here (t : Task) : Descends 0 t
  | next {n : Nat} {t u : Task} : t.Needs u → Descends n u → Descends (n + 1) t

/-- No knotted schema is come to. -/
def Clear (t : Task) : Prop := ∀ u, Relation.ReflTransGen Needs t u → u.schema.isKnotted = false

theorem Clear.needs (ht : t.Clear) (h : t.Needs u) : u.Clear :=
  fun _ hv => ht _ (.head h hv)

theorem Clear.need_lt (ht : t.Clear) (h : t.Needs u) : u.need < t.need :=
  Task.need_lt (ht t .refl) h

theorem Descends.le_need {n : Nat} (h : Descends n t) (ht : t.Clear) : n ≤ t.need := by
  induction h with
  | here => exact Nat.zero_le _
  | next hneeds _ ih =>
    have hlt := ht.need_lt hneeds
    have hle := ih (ht.needs hneeds)
    omega

theorem Descends.pred {n : Nat} (h : Descends (n + 1) t) : Descends n t := by
  induction n generalizing t with
  | zero => exact .here t
  | succ n ih =>
    cases h with
    | next hneeds h => exact .next hneeds (ih h)

theorem needs_of_isKnotted (hs : s.isKnotted = true) :
    (refer s).Needs (declare s) ∧ (declare s).Needs (refer s) := by
  simp only [Schema.isKnotted, Bool.and_eq_true, Bool.not_eq_true'] at hs
  obtain ⟨⟨⟨⟨href, henum⟩, hvariants⟩, harray⟩, hparts⟩ := hs
  constructor
  · rw [Needs, needs]
    simp only [href, henum, hvariants]
    split at hparts
    · cases hparts
    · rename_i part hone
      simp [hone, hparts]
    · rename_i first second rest hmany
      simp [hmany]
  · rw [Needs, needs]
    simp [href, henum, hvariants, harray]

theorem loop_of_isKnotted (ht : t.schema.isKnotted = true) : Relation.TransGen Needs t t := by
  cases t with
  | declare s => exact .head (needs_of_isKnotted ht).2 (.single (needs_of_isKnotted ht).1)
  | refer s => exact .head (needs_of_isKnotted ht).1 (.single (needs_of_isKnotted ht).2)

theorem descends_of_loop (h : Relation.TransGen Needs t t) (n : Nat) : Descends n t := by
  have hlead : ∀ {u}, Relation.TransGen Needs t u → ∀ n, Descends n u → Descends (n + 1) t := by
    intro u hu
    induction hu with
    | single hneeds => exact fun n hn => .next hneeds hn
    | tail _ hneeds ih => exact fun n hn => (ih (n + 1) (.next hneeds hn)).pred
  induction n with
  | zero => exact .here t
  | succ n ih => exact hlead h n ih

theorem descends_of_reaches (h : Relation.ReflTransGen Needs t u) {n : Nat} (hu : Descends n u) :
    Descends n t := by
  induction h with
  | refl => exact hu
  | tail _ hneeds ih => exact ih (Descends.next hneeds hu).pred

/-- The chains from a task are bounded exactly if no knotted schema is come to. -/
theorem clear_iff_bounded : t.Clear ↔ ∃ depth, ¬ Descends depth t := by
  constructor
  · intro ht
    refine ⟨t.need + 1, fun h => ?_⟩
    have := h.le_need ht
    omega
  · rintro ⟨depth, hdepth⟩ u hu
    apply Bool.eq_false_iff.mpr
    intro hknotted
    exact hdepth (descends_of_reaches hu (descends_of_loop (loop_of_isKnotted hknotted) depth))

/-- They are bounded exactly if none of them leads back to where it was. -/
theorem clear_iff_no_loop :
    t.Clear ↔ ∀ u, Relation.ReflTransGen Needs t u → ¬ Relation.TransGen Needs u u := by
  constructor
  · intro ht u hu hloop
    have hlt : ∀ {v w}, v.Clear → Relation.TransGen Needs v w → w.Clear ∧ w.need < v.need := by
      intro v w hv h
      induction h with
      | single hneeds => exact ⟨hv.needs hneeds, hv.need_lt hneeds⟩
      | tail _ hneeds ih => exact ⟨ih.1.needs hneeds, Nat.lt_trans (ih.1.need_lt hneeds) ih.2⟩
    exact Nat.lt_irrefl _ (hlt (fun w hw => ht w (hu.trans hw)) hloop).2
  · intro h u hu
    apply Bool.eq_false_iff.mpr
    exact fun hknotted => h u hu (loop_of_isKnotted hknotted)

end Task

end SchemaLoom

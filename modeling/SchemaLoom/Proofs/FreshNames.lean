import Mathlib.Data.List.Perm.Subperm
import Mathlib.Data.List.Permutation
import SchemaLoom.JsonSchema.Import

/-!
# Names of definitions

A name made up for a declaration is new: with one more number to try than there are
names in use, one of them is free. A reference to a definition spells the name of
that definition.
-/

namespace SchemaLoom

set_option autoImplicit false

namespace Text

theorem ofString_injective {s t : String} (h : ofString s = ofString t) : s = t := by
  have hlist : s.toList = t.toList := by
    apply List.map_injective_iff.mpr _ h
    intro a b hab
    exact Rune.char.inj hab
  exact String.toList_inj.mp hlist

theorem ofNat_injective {m n : Nat} (h : ofNat m = ofNat n) : m = n := by
  have hdigits : Nat.toDigits 10 m = Nat.toDigits 10 n := by
    have hs : toString m = toString n := ofString_injective h
    rw [Nat.toString_eq_repr, Nat.toString_eq_repr] at hs
    rw [← Nat.toList_repr, ← Nat.toList_repr, hs]
  rw [← @Nat.ofDigitChars_ten_toDigits m, hdigits, Nat.ofDigitChars_ten_toDigits]

theorem ofNat_ne_nil (n : Nat) : ofNat n ≠ [] := by
  intro h
  have hlist : (toString n).toList = [] := List.map_eq_nil_iff.mp h
  rw [Nat.toString_eq_repr, Nat.toList_repr] at hlist
  exact Nat.toDigits_ne_nil hlist

def Whole (t : Text) : Prop := ∀ r ∈ t, ∃ c, r = .char c

theorem whole_ofString (s : String) : (ofString s).Whole := by
  intro r hr
  obtain ⟨c, _, rfl⟩ := List.mem_map.mp hr
  exact ⟨c, rfl⟩

theorem Whole.ofString_toDisplay {t : Text} (h : t.Whole) : ofString t.toDisplay = t := by
  have hmap : (t.map Rune.toChar).map Rune.char = t := by
    rw [List.map_map]
    conv_rhs => rw [← List.map_id t]
    apply List.map_congr_left
    intro r hr
    obtain ⟨c, rfl⟩ := h r hr
    rfl
  simpa [toDisplay, toChars, ofString, ofChars] using hmap

end Text

/-! ### New names -/

/-- A name in use together with numbered forms of it in use are that many names. -/
theorem lt_length_of_numbered {α : Type} {form : Nat → α} {base : α} {used : List α} {i n : Nat}
    (hinj : ∀ a b, form a = form b → a = b) (hne : ∀ a, form a ≠ base) (hbase : base ∈ used)
    (hall : ∀ j, i ≤ j → j < i + n → form j ∈ used) : n < used.length := by
  have hnodup : (base :: (List.range' i n).map form).Nodup := by
    refine List.nodup_cons.mpr ⟨?_, ?_⟩
    · intro h
      obtain ⟨j, _, hj⟩ := List.mem_map.mp h
      exact hne j hj
    · exact (List.nodup_range').map_on fun a _ b _ h => hinj a b h
  have hsub : base :: (List.range' i n).map form ⊆ used := by
    intro t ht
    rcases List.mem_cons.mp ht with rfl | ht
    · exact hbase
    · obtain ⟨j, hj, rfl⟩ := List.mem_map.mp ht
      obtain ⟨hle, hlt⟩ := List.mem_range'_1.mp hj
      exact hall j hle hlt
  have hlen := (hnodup.subperm hsub).length_le
  simp only [List.length_cons, List.length_map, List.length_range'] at hlen
  omega

namespace Import

theorem numbered_spec (name : Text) (used : List Text) (fuel i : Nat) :
    (∃ j, i ≤ j ∧ j < i + fuel ∧ numbered name used fuel i = name ++ Text.ofNat j ∧
      name ++ Text.ofNat j ∉ used) ∨
    ∀ j, i ≤ j → j < i + fuel → name ++ Text.ofNat j ∈ used := by
  induction fuel generalizing i with
  | zero =>
    right
    intro j hle hlt
    omega
  | succ fuel ih =>
    rw [numbered]
    by_cases hmem : name ++ Text.ofNat i ∈ used
    · rw [if_pos (by simpa using hmem)]
      rcases ih (i + 1) with ⟨j, hle, hlt, heq, hnot⟩ | hall
      · exact .inl ⟨j, by omega, by omega, heq, hnot⟩
      · right
        intro j hle hlt
        rcases Nat.eq_or_lt_of_le hle with rfl | hlt'
        · exact hmem
        · exact hall j hlt' (by omega)
    · rw [if_neg (by simpa using hmem)]
      exact .inl ⟨i, Nat.le_refl i, by omega, rfl, hmem⟩

theorem freshName_not_mem (name : Text) (used : List Text) : freshName name used ∉ used := by
  unfold freshName
  by_cases hmem : name ∈ used
  · rw [if_pos (by simpa using hmem)]
    rcases numbered_spec name used used.length 2 with ⟨j, _, _, heq, hnot⟩ | hall
    · rw [heq]
      exact hnot
    · -- the name itself and all its numbered forms would be more names than are in use
      have hinj : ∀ a b : Nat, name ++ Text.ofNat a = name ++ Text.ofNat b → a = b :=
        fun a b h => Text.ofNat_injective (List.append_cancel_left h)
      have hne : ∀ a : Nat, name ++ Text.ofNat a ≠ name := by
        intro a h
        exact Text.ofNat_ne_nil a (by simpa using h)
      exact absurd (lt_length_of_numbered hinj hne hmem hall) (Nat.lt_irrefl _)
  · rw [if_neg (by simpa using hmem)]
    exact hmem

end Import

/-! ### References -/

namespace Reference

theorem whole_behind? {root t u : Text} (ht : t.Whole) (h : behind? root t = some u) :
    u.Whole := by
  induction root generalizing t with
  | nil =>
    cases h
    exact ht
  | cons a root ih =>
    cases t with
    | nil => cases h
    | cons b t =>
      rw [behind?] at h
      split at h
      · exact ih (fun r hr => ht r (List.mem_cons_of_mem _ hr)) h
      · cases h

theorem whole_replaceMark (mark by_ : Char) {t : Text} (ht : t.Whole) :
    (replaceMark mark by_ t).Whole := by
  induction t using replaceMark.induct mark with
  | case1 => exact ht
  | case2 r => exact ht
  | case3 a b rest h ih =>
    rw [replaceMark, if_pos h]
    intro r hr
    rcases List.mem_cons.mp hr with rfl | hr
    · exact ⟨by_, rfl⟩
    · exact ih (fun x hx => ht x (by simp [hx])) r hr
  | case4 a b rest h ih =>
    rw [replaceMark, if_neg h]
    intro r hr
    rcases List.mem_cons.mp hr with rfl | hr
    · exact ht r List.mem_cons_self
    · exact ih (fun x hx => ht x (List.mem_cons_of_mem _ hx)) r hr

theorem whole_defName? {ref name : Text} (href : ref.Whole) (h : defName? ref = some name) :
    name.Whole := by
  obtain ⟨root, _, h⟩ := List.exists_of_findSome?_eq_some h
  obtain ⟨step, hstep, h⟩ := Option.bind_eq_some_iff.mp h
  unfold stepName? at h
  split at h
  · cases h
  · cases h
    exact whole_replaceMark _ _ (whole_replaceMark _ _ (whole_behind? href hstep))

end Reference

/-! ### Ordered keys -/

theorem firstOccurrences_spec (ks : List String) :
    (firstOccurrences ks).Nodup ∧ ∀ k, k ∈ firstOccurrences ks ↔ k ∈ ks := by
  induction ks with
  | nil => simp [firstOccurrences]
  | cons a ks ih =>
    constructor
    · refine List.nodup_cons.mpr ⟨by simp, ih.1.filter _⟩
    · intro k
      simp only [firstOccurrences, List.mem_cons, List.mem_filter, ih.2 k, bne_iff_ne]
      tauto

theorem nodup_orderedKeys {known keys : List String} (h : keys.Nodup) :
    (orderedKeys known keys).Nodup := by
  refine List.nodup_append.mpr ⟨(firstOccurrences_spec _).1, h.filter _, ?_⟩
  intro a ha b hb hab
  have hknown := List.mem_filter.mp (((firstOccurrences_spec _).2 a).mp ha)
  have hother := List.mem_filter.mp hb
  rw [← hab] at hother
  simp [hknown.1] at hother

theorem mem_orderedKeys {known keys : List String} {k : String} :
    k ∈ orderedKeys known keys ↔ k ∈ keys := by
  rw [orderedKeys, List.mem_append, (firstOccurrences_spec _).2, List.mem_filter, List.mem_filter]
  by_cases hk : k ∈ known <;> simp [hk]

namespace Schema

theorem mem_mergeKeys {as bs : List String} {k : String} :
    k ∈ mergeKeys as bs ↔ k ∈ as ∨ k ∈ bs := by
  rw [mergeKeys, (List.mergeSort_perm _ _).mem_iff, List.mem_append, List.mem_filter]
  by_cases hk : k ∈ as <;> simp [hk]

theorem nodup_mergeKeys {as bs : List String} (ha : as.Nodup) (hb : bs.Nodup) :
    (mergeKeys as bs).Nodup := by
  rw [mergeKeys, (List.mergeSort_perm _ _).nodup_iff]
  refine List.nodup_append.mpr ⟨ha, hb.filter _, ?_⟩
  intro a has b hbs hab
  have hother := List.mem_filter.mp hbs
  rw [← hab] at hother
  simp [has] at hother

/-- The subschemas of a schema stand at different places. -/
def Distinct (s : Schema) : Prop := (s.children.map (·.1)).Nodup

theorem child?_isSome {s : Schema} {l : Location} :
    (s.child? l).isSome = true ↔ ∃ c ∈ s.children, c.1 = l := by
  rw [child?, List.lookup_isSome_iff]
  constructor
  · rintro ⟨c, hc, heq⟩
    exact ⟨c, hc, (beq_iff_eq.mp heq).symm⟩
  · rintro ⟨c, hc, rfl⟩
    exact ⟨c, hc, beq_self_eq_true _⟩

theorem mem_of_child? {s c : Schema} {l : Location} (h : s.child? l = some c) :
    (l, c) ∈ s.children := by
  obtain ⟨before, after, hsplit, _⟩ := List.lookup_eq_some_iff.mp h
  rw [hsplit]
  simp

/-- The name of a definition; `definitionKey?` is for the older of its two places. -/
def defKey? : Location → Option String
  | .def_ k => some k
  | _ => none

def definitionKey? : Location → Option String
  | .definition k => some k
  | _ => none

theorem defKey?_eq_some {x : Location} {k : String} : defKey? x = some k ↔ x = .def_ k := by
  cases x <;> simp [defKey?]

theorem definitionKey?_eq_some {x : Location} {k : String} :
    definitionKey? x = some k ↔ x = .definition k := by
  cases x <;> simp [definitionKey?]

theorem mem_defKeys {s : Schema} {k : String} : k ∈ s.defKeys ↔ (s.def? k).isSome = true := by
  have hkey : ∀ (l : Location) (sel : Location → Option String), (∀ x, sel x = some k ↔ x = l) →
      (k ∈ s.children.filterMap (fun c => sel c.1) ↔ (s.child? l).isSome = true) := by
    intro l sel hsel
    rw [List.mem_filterMap, child?_isSome]
    simp only [hsel]
  rw [defKeys, mem_mergeKeys, def?, Option.isSome_or, Bool.or_eq_true]
  apply or_congr
  · exact hkey (.def_ k) defKey? fun _ => defKey?_eq_some
  · exact hkey (.definition k) definitionKey? fun _ => definitionKey?_eq_some

theorem Distinct.nodup_defKeys {s : Schema} (h : s.Distinct) : s.defKeys.Nodup := by
  have hkeys : ∀ (at_ : String → Location) (sel : Location → Option String),
      (∀ x k, sel x = some k → x = at_ k) →
      (s.children.filterMap fun c => sel c.1).Nodup := by
    intro at_ sel hsel
    have heq : s.children.filterMap (fun c => sel c.1) =
        (s.children.map (·.1)).filterMap sel := by
      rw [List.filterMap_map]
      rfl
    rw [heq]
    refine List.Nodup.filterMap ?_ h
    intro a b k ha hb
    rw [hsel a k ha, hsel b k hb]
  apply nodup_mergeKeys
  · exact hkeys .def_ defKey? fun _ _ => defKey?_eq_some.mp
  · exact hkeys .definition definitionKey? fun _ _ => definitionKey?_eq_some.mp

theorem Distinct.nodup_orderedDefs {s : Schema} (h : s.Distinct) : s.orderedDefs.Nodup :=
  nodup_orderedKeys h.nodup_defKeys

theorem mem_orderedDefs {s : Schema} {k : String} :
    k ∈ s.orderedDefs ↔ (s.def? k).isSome = true := by
  rw [orderedDefs, mem_orderedKeys, mem_defKeys]

end Schema

end SchemaLoom

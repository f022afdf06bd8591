import Mathlib.Order.Bounds.Basic
import SchemaLoom.Expr.Constraint
import SchemaLoom.Proofs.Numerals
import SchemaLoom.Proofs.Result

/-!
# Limits of numbers

The calls that limit a number let through exactly the numbers that lie in the range
of its built-in type and keep every limit set by decorators, whatever their number
and order. Where the tightest limit is set both with and without its end, the end
counts as included. Each side is limited by one call at most.

Numbers are compared by value here; that a call is read back with the value it was
written for is settled in `Proofs.Numerals`.
-/

namespace SchemaLoom

set_option autoImplicit false

/-! ### Calls -/

namespace Expr

/-- The methods that limit a number from below. -/
def lowerMethods : List Text := ["nonnegative", "gte", "gt"]

/-- The methods that limit a number from above. -/
def upperMethods : List Text := ["lte", "lt"]

def callsOneOf (names : List Text) : Expr → Bool
  | call name _ => names.contains name
  | _ => false

/-- The number that is the only argument of a call. -/
def limit? : List Expr → Option Rat
  | [raw t] => Number.readLiteral? t
  | _ => none

/-- A number passes a call. Whether it is safe is no matter of limits; other calls than these let
nothing pass, nor does a limit that cannot be read. -/
def Passes (x : Rat) : Expr → Prop
  | call name args =>
    (name = Text.ofString "safe" ∧ args = []) ∨
    (name = Text.ofString "nonnegative" ∧ args = [] ∧ 0 ≤ x) ∨
    ∃ v, limit? args = some v ∧
      ((name = Text.ofString "gte" ∧ v ≤ x) ∨ (name = Text.ofString "gt" ∧ v < x) ∨
        (name = Text.ofString "lte" ∧ x ≤ v) ∨ (name = Text.ofString "lt" ∧ x < v))
  | _ => False

theorem passes_limit {name : Text} {n : Number} (hn : n.Written) (big : Bool) (x : Rat) :
    (call name [raw (n.literal big)]).Passes x ↔
      (name = Text.ofString "gte" ∧ n.value ≤ x) ∨ (name = Text.ofString "gt" ∧ n.value < x) ∨
        (name = Text.ofString "lte" ∧ x ≤ n.value) ∨ (name = Text.ofString "lt" ∧ x < n.value) := by
  simp [Passes, limit?, Number.readLiteral?_literal hn]

end Expr

namespace Range

open SchemaLoom.Expr

/-- All numbers are what their text says. -/
structure Written (r : Range) : Prop where
  min : ∀ n, r.min = some n → n.Written
  minExclusive : ∀ n, r.minExclusive = some n → n.Written
  max : ∀ n, r.max = some n → n.Written
  maxExclusive : ∀ n, r.maxExclusive = some n → n.Written

/-- A number keeps all limits of a range. -/
structure Contains (r : Range) (x : Rat) : Prop where
  min : ∀ n, r.min = some n → n.value ≤ x
  minExclusive : ∀ n, r.minExclusive = some n → n.value < x
  max : ∀ n, r.max = some n → x ≤ n.value
  maxExclusive : ∀ n, r.maxExclusive = some n → x < n.value

/-! ### The calls of a range -/

/-- The call of a method with a number. -/
def limitExpr (method : String) (big : Bool) (n : Number) : Expr :=
  .call (Text.ofString method) [.raw (n.literal big)]

/-- The call that sets a lower limit with its end. -/
def minExpr (big : Bool) (n : Number) : Expr :=
  if n.isZero then .method "nonnegative" else limitExpr "gte" big n

theorem calls_eq (r : Range) (big : Bool) :
    r.calls big = .ok ((if r.safe then [.method "safe"] else []) ++
      r.min.toList.map (minExpr big) ++ r.minExclusive.toList.map (limitExpr "gt" big) ++
      r.max.toList.map (limitExpr "lte" big) ++ r.maxExclusive.toList.map (limitExpr "lt" big)) := by
  have hone : ∀ (f : Number → Result Expr) (e : Number → Expr), (∀ n, f n = .ok (e n)) →
      ∀ n : Option Number, n.toList.mapM f = .ok (n.toList.map e) := by
    intro f e hf n
    cases n with
    | none => rfl
    | some n => exact Result.mapM_eq_ok.mpr (.cons (hf n) .nil)
  have hmin : ∀ n, minCall big n = .ok (minExpr big n) := by
    intro n
    unfold minCall minExpr
    split
    · rfl
    · rfl
  have hminEx : ∀ n, limitCall big "minExclusive" n = .ok (limitExpr "gt" big n) := fun _ => rfl
  have hmax : ∀ n, limitCall big "max" n = .ok (limitExpr "lte" big n) := fun _ => rfl
  have hmaxEx : ∀ n, limitCall big "maxExclusive" n = .ok (limitExpr "lt" big n) := fun _ => rfl
  rw [calls, hone _ _ hmin, hone _ _ hminEx, hone _ _ hmax, hone _ _ hmaxEx]
  rfl

section Passes
variable {n : Number} (big : Bool) (x : Rat)

theorem passes_gte (hn : n.Written) : (limitExpr "gte" big n).Passes x ↔ n.value ≤ x := by
  rw [limitExpr, passes_limit hn]
  simp +decide

theorem passes_gt (hn : n.Written) : (limitExpr "gt" big n).Passes x ↔ n.value < x := by
  rw [limitExpr, passes_limit hn]
  simp +decide

theorem passes_lte (hn : n.Written) : (limitExpr "lte" big n).Passes x ↔ x ≤ n.value := by
  rw [limitExpr, passes_limit hn]
  simp +decide

theorem passes_lt (hn : n.Written) : (limitExpr "lt" big n).Passes x ↔ x < n.value := by
  rw [limitExpr, passes_limit hn]
  simp +decide

theorem passes_minExpr (hn : n.Written) : (minExpr big n).Passes x ↔ n.value ≤ x := by
  unfold minExpr
  split
  · rename_i hzero
    have hvalue : n.value = 0 := by simpa [Number.isZero] using hzero
    simp +decide [Expr.method, Passes, limit?, hvalue]
  · exact passes_gte big x hn

theorem passes_safe : (Expr.method "safe").Passes x := .inl ⟨rfl, rfl⟩

end Passes

theorem forall_passes_iff {r : Range} (hr : r.Written) {big : Bool} {es : List Expr}
    (h : r.calls big = .ok es) (x : Rat) : (∀ e ∈ es, e.Passes x) ↔ r.Contains x := by
  have hone : ∀ (f : Number → Expr) (P : Number → Prop) (n : Option Number),
      (∀ m, n = some m → ((f m).Passes x ↔ P m)) →
      ((∀ e ∈ n.toList.map f, e.Passes x) ↔ ∀ m, n = some m → P m) := by
    intro f P n hf
    cases n with
    | none => simp
    | some m => simpa using hf m rfl
  have hsafe : ∀ e ∈ (if r.safe then [Expr.method "safe"] else []), e.Passes x := by
    intro e he
    split at he
    · rw [List.mem_singleton.mp he]
      exact passes_safe x
    · cases he
  rw [calls_eq] at h
  cases h
  simp only [List.forall_mem_append,
    hone _ _ _ fun m hm => passes_minExpr big x (hr.min m hm),
    hone _ _ _ fun m hm => passes_gt big x (hr.minExclusive m hm),
    hone _ _ _ fun m hm => passes_lte big x (hr.max m hm),
    hone _ _ _ fun m hm => passes_lt big x (hr.maxExclusive m hm)]
  constructor
  · rintro ⟨⟨⟨⟨_, hmin⟩, hminEx⟩, hmax⟩, hmaxEx⟩
    exact ⟨hmin, hminEx, hmax, hmaxEx⟩
  · rintro ⟨hmin, hminEx, hmax, hmaxEx⟩
    exact ⟨⟨⟨⟨hsafe, hmin⟩, hminEx⟩, hmax⟩, hmaxEx⟩

theorem countP_map_toList {p : Expr → Bool} {f : Number → Expr} {b : Bool} (h : ∀ n, p (f n) = b)
    (n : Option Number) :
    (n.toList.map f).countP p = if b && n.isSome then 1 else 0 := by
  cases n with
  | none => simp
  | some n => cases b <;> simp [h]

/-- Where each side has one limit at most, one call sets it. -/
theorem countP_calls {r : Range} (hlower : r.min = none ∨ r.minExclusive = none)
    (hupper : r.max = none ∨ r.maxExclusive = none) {big : Bool} {es : List Expr}
    (h : r.calls big = .ok es) :
    es.countP (callsOneOf lowerMethods) ≤ 1 ∧ es.countP (callsOneOf upperMethods) ≤ 1 := by
  have hsafe : ∀ p : Expr → Bool, p (.method "safe") = false →
      (if r.safe then [Expr.method "safe"] else []).countP p = 0 := by
    intro p hp
    split <;> simp [hp]
  have hmin : ∀ n, callsOneOf lowerMethods (minExpr big n) = true ∧
      callsOneOf upperMethods (minExpr big n) = false := by
    intro n
    unfold minExpr
    split
    · exact ⟨rfl, rfl⟩
    · exact ⟨rfl, rfl⟩
  have hmethod : ∀ (method : String) (names : List Text) (n : Number),
      callsOneOf names (limitExpr method big n) = names.contains (Text.ofString method) :=
    fun _ _ _ => rfl
  rw [calls_eq] at h
  cases h
  simp only [List.countP_append, hsafe (callsOneOf lowerMethods) rfl,
    hsafe (callsOneOf upperMethods) rfl, countP_map_toList fun n => (hmin n).1,
    countP_map_toList fun n => (hmin n).2, countP_map_toList (hmethod _ _)]
  have hlt : lowerMethods.contains (Text.ofString "lt") = false := rfl
  have hlte : lowerMethods.contains (Text.ofString "lte") = false := rfl
  have hgt : upperMethods.contains (Text.ofString "gt") = false := rfl
  simp only [hlt, hlte, hgt, Bool.false_and, Bool.false_eq_true, if_false]
  constructor
  · rcases hlower with hnone | hnone
    · simp only [hnone]
      grind
    · simp only [hnone]
      grind
  · rcases hupper with hnone | hnone
    · simp only [hnone]
      grind
    · simp only [hnone]
      grind

/-! ### The tightest limits

Both sides of a range are folded in the same way, so `le` says which of two limits is
the tighter one: `a ≤ b` for lower limits, `a ≥ b` for upper ones. -/

/-- A number of `S` that none of the others exceeds, if there are any. -/
def Tightest (le : Rat → Rat → Prop) (S : Number → Prop) : Option Number → Prop
  | none => ∀ n, ¬ S n
  | some n => S n ∧ ∀ k, S k → le k.value n.value

section Tightest
variable {le : Rat → Rat → Prop}

theorem tightest_none_left (refl : ∀ a, le a a) (m : Option Number) :
    Tightest le (fun n => none = some n ∨ m = some n) m := by
  cases m <;> simp [Tightest, refl]

theorem tightest_none_right (refl : ∀ a, le a a) (m : Option Number) :
    Tightest le (fun n => m = some n ∨ none = some n) m := by
  cases m <;> simp [Tightest, refl]

theorem tightest_max? (a b : Option Number) :
    Tightest (· ≤ ·) (fun n => a = some n ∨ b = some n) (Number.max? a b) := by
  cases a with
  | none => exact tightest_none_left le_refl b
  | some a =>
    cases b with
    | none => exact tightest_none_right le_refl _
    | some b =>
      by_cases h : a.value < b.value
      · simp [Number.max?, Number.lt, Tightest, or_imp, forall_and, h, h.le]
      · simp [Number.max?, Number.lt, Tightest, or_imp, forall_and, h, le_of_not_gt h]

theorem tightest_min? (a b : Option Number) :
    Tightest (fun a b => b ≤ a) (fun n => a = some n ∨ b = some n) (Number.min? a b) := by
  cases a with
  | none => exact @tightest_none_left (fun a b => b ≤ a) le_refl b
  | some a =>
    cases b with
    | none => exact @tightest_none_right (fun a b => b ≤ a) le_refl (some a)
    | some b =>
      by_cases h : b.value < a.value
      · simp [Number.min?, Number.lt, Tightest, or_imp, forall_and, h, h.le]
      · simp [Number.min?, Number.lt, Tightest, or_imp, forall_and, h, le_of_not_gt h]

/-- The tightest number of a set stands for the whole set. -/
theorem Tightest.or (trans : ∀ a b c, le a b → le b c → le a c) {S T : Number → Prop}
    {m r : Option Number} (hm : Tightest le S m) (h : Tightest le (fun n => m = some n ∨ T n) r) :
    Tightest le (fun n => S n ∨ T n) r := by
  cases m with
  | none =>
    have hS : ∀ n, ¬ S n := hm
    simpa [hS] using h
  | some m =>
    obtain ⟨hmS, hle⟩ := hm
    cases r with
    | none => exact absurd (.inl rfl) (h m)
    | some n =>
      obtain ⟨hn, hgreat⟩ := h
      refine ⟨?_, ?_⟩
      · rcases hn with hn | hn
        · cases hn
          exact .inl hmS
        · exact .inr hn
      · intro k hk
        rcases hk with hk | hk
        · exact trans _ _ _ (hle k hk) (hgreat m (.inl rfl))
        · exact hgreat k (.inr hk)

theorem tightest_foldl (refl : ∀ a, le a a) (trans : ∀ a b c, le a b → le b c → le a c)
    {op : Option Number → Option Number → Option Number}
    (hop : ∀ a b, Tightest le (fun n => a = some n ∨ b = some n) (op a b))
    (limit : Decorators → Option Number) (ds : List Decorators) (m : Option Number) :
    Tightest le (fun n => m = some n ∨ ∃ d ∈ ds, limit d = some n)
      (ds.foldl (fun m d => op m (limit d)) m) := by
  induction ds generalizing m with
  | nil => simpa using tightest_none_right refl m
  | cons d ds ih =>
    have hstep := (hop m (limit d)).or trans (ih (op m (limit d)))
    simpa [or_assoc] using hstep

end Tightest

section OfDecorators
variable (ds : List Decorators)

theorem foldl_narrow (r : Range) :
    ds.foldl narrow r =
      { r with
        min := ds.foldl (fun m d => Number.max? m d.minValue) r.min
        minExclusive := ds.foldl (fun m d => Number.max? m d.minValueExclusive) r.minExclusive
        max := ds.foldl (fun m d => Number.min? m d.maxValue) r.max
        maxExclusive := ds.foldl (fun m d => Number.min? m d.maxValueExclusive) r.maxExclusive } := by
  induction ds generalizing r with
  | nil => rfl
  | cons d ds ih => rw [List.foldl_cons, ih]; rfl

def SetBy (limit : Decorators → Option Number) (n : Number) : Prop := ∃ d ∈ ds, limit d = some n

variable {ds} (limit : Decorators → Option Number)

theorem tightest_foldl_max? : Tightest (fun a b => a ≤ b) (SetBy ds limit)
    (ds.foldl (fun m d => Number.max? m (limit d)) none) := by
  have h := tightest_foldl le_refl (fun _ _ _ => le_trans) tightest_max? limit ds none
  simp only [reduceCtorEq, false_or] at h
  exact h

theorem tightest_foldl_min? : Tightest (fun a b => b ≤ a) (SetBy ds limit)
    (ds.foldl (fun m d => Number.min? m (limit d)) none) := by
  have h := @tightest_foldl (fun a b => b ≤ a) le_refl (fun _ _ _ hba hcb => le_trans hcb hba)
    Number.min? tightest_min? limit ds none
  simp only [reduceCtorEq, false_or] at h
  exact h

end OfDecorators

/-! ### One limit a side -/

@[simp] theorem settleUpper_min (r : Range) : r.settleUpper.min = r.min := by
  unfold settleUpper
  split
  · split <;> rfl
  · rfl

@[simp] theorem settleUpper_minExclusive (r : Range) :
    r.settleUpper.minExclusive = r.minExclusive := by
  unfold settleUpper
  split
  · split <;> rfl
  · rfl

@[simp] theorem settleLower_max (r : Range) : r.settleLower.max = r.max := by
  unfold settleLower
  split
  · split <;> rfl
  · rfl

@[simp] theorem settleLower_maxExclusive (r : Range) :
    r.settleLower.maxExclusive = r.maxExclusive := by
  unfold settleLower
  split
  · split <;> rfl
  · rfl

theorem settleLower_one (r : Range) :
    r.settleLower.min = none ∨ r.settleLower.minExclusive = none := by
  obtain ⟨lo, ex, hi, hiEx, safe⟩ := r
  rcases lo with _ | lo
  · exact .inl rfl
  rcases ex with _ | ex
  · exact .inr rfl
  unfold settleLower
  dsimp only
  split
  · exact .inl rfl
  · exact .inr rfl

theorem settleUpper_one (r : Range) :
    r.settleUpper.max = none ∨ r.settleUpper.maxExclusive = none := by
  obtain ⟨lo, loEx, hi, ex, safe⟩ := r
  rcases hi with _ | hi
  · exact .inl rfl
  rcases ex with _ | ex
  · exact .inr rfl
  unfold settleUpper
  dsimp only
  split
  · exact .inl rfl
  · exact .inr rfl

/-- An exclusive limit that equals the other one is dropped, so its end counts. -/
theorem settleLower_iff (r : Range) (x : Rat) :
    ((∀ n, r.settleLower.min = some n → n.value ≤ x) ∧
      ∀ n, r.settleLower.minExclusive = some n → n.value < x) ↔
    (∀ n, r.min = some n → n.value ≤ x) ∧
      ∀ n, r.minExclusive = some n →
        n.value < x ∨ n.value = x ∧ ∃ m, r.min = some m ∧ m.value = x := by
  unfold settleLower
  split
  · rename_i lo ex hlo hex
    simp only [Number.lt, decide_eq_true_eq, hlo, hex]
    split
    · grind
    · grind
  · grind

theorem settleUpper_iff (r : Range) (x : Rat) :
    ((∀ n, r.settleUpper.max = some n → x ≤ n.value) ∧
      ∀ n, r.settleUpper.maxExclusive = some n → x < n.value) ↔
    (∀ n, r.max = some n → x ≤ n.value) ∧
      ∀ n, r.maxExclusive = some n →
        x < n.value ∨ n.value = x ∧ ∃ m, r.max = some m ∧ m.value = x := by
  unfold settleUpper
  split
  · rename_i hi ex hhi hex
    simp only [Number.lt, decide_eq_true_eq, hhi, hex]
    split
    · grind
    · grind
  · grind

theorem mergeLower_one {floor lo ex : Option Number} (h : lo = none ∨ ex = none) :
    (mergeLower floor lo ex).1 = none ∨ (mergeLower floor lo ex).2 = none := by
  unfold mergeLower
  split
  · exact h
  · simpa using h
  · split
    · exact .inr rfl
    · exact .inl rfl
  · exact .inr rfl

theorem mergeUpper_one {ceiling hi ex : Option Number} (h : hi = none ∨ ex = none) :
    (mergeUpper ceiling hi ex).1 = none ∨ (mergeUpper ceiling hi ex).2 = none := by
  unfold mergeUpper
  split
  · exact h
  · simpa using h
  · split
    · exact .inr rfl
    · exact .inl rfl
  · exact .inr rfl

theorem mergeLower_iff {floor lo ex : Option Number} (h : lo = none ∨ ex = none) (x : Rat) :
    ((∀ n, (mergeLower floor lo ex).1 = some n → n.value ≤ x) ∧
      ∀ n, (mergeLower floor lo ex).2 = some n → n.value < x) ↔
    (∀ n, floor = some n → n.value ≤ x) ∧
      (∀ n, lo = some n → n.value ≤ x) ∧ ∀ n, ex = some n → n.value < x := by
  unfold mergeLower
  simp only [Number.lt, decide_eq_true_eq]
  split
  · simp
  · grind
  · grind
  · grind

theorem mergeUpper_iff {ceiling hi ex : Option Number} (h : hi = none ∨ ex = none) (x : Rat) :
    ((∀ n, (mergeUpper ceiling hi ex).1 = some n → x ≤ n.value) ∧
      ∀ n, (mergeUpper ceiling hi ex).2 = some n → x < n.value) ↔
    (∀ n, ceiling = some n → x ≤ n.value) ∧
      (∀ n, hi = some n → x ≤ n.value) ∧ ∀ n, ex = some n → x < n.value := by
  unfold mergeUpper
  simp only [Number.lt, decide_eq_true_eq]
  split
  · simp
  · grind
  · grind
  · grind

section Reconcile
variable (type d : Range)

theorem reconcile_lower :
    (reconcile type d).min = none ∨ (reconcile type d).minExclusive = none := by
  apply mergeLower_one
  simpa using settleLower_one d

theorem reconcile_upper :
    (reconcile type d).max = none ∨ (reconcile type d).maxExclusive = none := by
  apply mergeUpper_one
  exact settleUpper_one d.settleLower

theorem reconcile_lower_iff (x : Rat) :
    ((∀ n, (reconcile type d).min = some n → n.value ≤ x) ∧
      ∀ n, (reconcile type d).minExclusive = some n → n.value < x) ↔
    (∀ n, type.min = some n → n.value ≤ x) ∧ (∀ n, d.min = some n → n.value ≤ x) ∧
      ∀ n, d.minExclusive = some n →
        n.value < x ∨ n.value = x ∧ ∃ m, d.min = some m ∧ m.value = x := by
  have hone : d.settleLower.settleUpper.min = none ∨
      d.settleLower.settleUpper.minExclusive = none := by
    simpa using settleLower_one d
  refine (mergeLower_iff hone x).trans ?_
  rw [settleUpper_min, settleUpper_minExclusive, settleLower_iff]

theorem reconcile_upper_iff (x : Rat) :
    ((∀ n, (reconcile type d).max = some n → x ≤ n.value) ∧
      ∀ n, (reconcile type d).maxExclusive = some n → x < n.value) ↔
    (∀ n, type.max = some n → x ≤ n.value) ∧ (∀ n, d.max = some n → x ≤ n.value) ∧
      ∀ n, d.maxExclusive = some n →
        x < n.value ∨ n.value = x ∧ ∃ m, d.max = some m ∧ m.value = x := by
  refine (mergeUpper_iff (settleUpper_one d.settleLower) x).trans ?_
  rw [settleUpper_iff, settleLower_max, settleLower_maxExclusive]

variable {type d}

theorem Written.settleLower (h : d.Written) : d.settleLower.Written := by
  unfold Range.settleLower
  split
  · split
    · exact ⟨by simp, h.minExclusive, h.max, h.maxExclusive⟩
    · exact ⟨h.min, by simp, h.max, h.maxExclusive⟩
  · exact h

theorem Written.settleUpper (h : d.Written) : d.settleUpper.Written := by
  unfold Range.settleUpper
  split
  · split
    · exact ⟨h.min, h.minExclusive, by simp, h.maxExclusive⟩
    · exact ⟨h.min, h.minExclusive, h.max, by simp⟩
  · exact h

/-- No number is made up: the limits of a type and of decorators are all there is. -/
theorem Written.reconcile (htype : type.Written) (h : d.Written) :
    (type.reconcile d).Written := by
  have hd := h.settleLower.settleUpper
  constructor
  · intro n hn
    have hmem : type.min = some n ∨ d.settleLower.settleUpper.min = some n := by
      simp only [Range.reconcile] at hn
      unfold mergeLower at hn
      grind
    exact hmem.elim (htype.min n) (hd.min n)
  · intro n hn
    apply hd.minExclusive n
    simp only [Range.reconcile] at hn
    unfold mergeLower at hn
    grind
  · intro n hn
    have hmem : type.max = some n ∨ d.settleLower.settleUpper.max = some n := by
      simp only [Range.reconcile] at hn
      unfold mergeUpper at hn
      grind
    exact hmem.elim (htype.max n) (hd.max n)
  · intro n hn
    apply hd.maxExclusive n
    simp only [Range.reconcile] at hn
    unfold mergeUpper at hn
    grind

end Reconcile

/-- The range of a built-in type includes its ends. -/
theorem intrinsic_inclusive (name : String) :
    (intrinsic name).minExclusive = none ∧ (intrinsic name).maxExclusive = none := by
  unfold intrinsic
  split <;> exact ⟨rfl, rfl⟩

theorem written_ofInts (lo hi : Int) : (ofInts lo hi).Written where
  min := by
    intro n hn
    cases hn
    exact Number.written_ofInt lo
  minExclusive := by simp [ofInts]
  max := by
    intro n hn
    cases hn
    exact Number.written_ofInt hi
  maxExclusive := by simp [ofInts]

theorem written_intrinsic (name : String) : (intrinsic name).Written := by
  have hempty : ∀ b, ({ safe := b } : Range).Written := by
    intro b
    constructor <;> simp
  unfold intrinsic
  split
  case h_9 =>
    constructor
    · intro n hn
      cases hn
      show Number.parse? _ = _
      decide +kernel
    · simp
    · intro n hn
      cases hn
      show Number.parse? _ = _
      decide +kernel
    · simp
  case h_10 => exact hempty true
  case h_11 => exact hempty false
  all_goals exact written_ofInts _ _

end Range

/-! ### All decorators together -/

open SchemaLoom.Range SchemaLoom.Expr

/-- All limits are what their text says. -/
structure Decorators.Written (d : Decorators) : Prop where
  minValue : ∀ n, d.minValue = some n → n.Written
  minValueExclusive : ∀ n, d.minValueExclusive = some n → n.Written
  maxValue : ∀ n, d.maxValue = some n → n.Written
  maxValueExclusive : ∀ n, d.maxValueExclusive = some n → n.Written

/-- The values of one kind of limit. -/
def limitsOf (limit : Decorators → Option Number) (ds : List Decorators) : Set Rat :=
  { v | ∃ n, SetBy ds limit n ∧ n.value = v }

/-- A number keeps all limits of decorators. An exclusive limit that is the tightest of its kind
admits its end where the tightest inclusive one does. -/
structure Admits (ds : List Decorators) (x : Rat) : Prop where
  min : ∀ d ∈ ds, ∀ n, d.minValue = some n → n.value ≤ x
  minExclusive : ∀ d ∈ ds, ∀ n, d.minValueExclusive = some n →
    n.value < x ∨ n.value = x ∧
      IsGreatest (limitsOf (·.minValue) ds) x ∧ IsGreatest (limitsOf (·.minValueExclusive) ds) x
  max : ∀ d ∈ ds, ∀ n, d.maxValue = some n → x ≤ n.value
  maxExclusive : ∀ d ∈ ds, ∀ n, d.maxValueExclusive = some n →
    x < n.value ∨ n.value = x ∧
      IsLeast (limitsOf (·.maxValue) ds) x ∧ IsLeast (limitsOf (·.maxValueExclusive) ds) x

namespace Range

section Folded
variable {ds : List Decorators} {limit : Decorators → Option Number} {m : Option Number} {x : Rat}

theorem Tightest.isGreatest_iff (h : Tightest (fun a b => a ≤ b) (SetBy ds limit) m) :
    IsGreatest (limitsOf limit ds) x ↔ ∃ n, m = some n ∧ n.value = x := by
  constructor
  · intro hx
    obtain ⟨⟨n, hn, rfl⟩, hbound⟩ := hx
    cases m with
    | none => exact absurd hn (h n)
    | some k => exact ⟨k, rfl, le_antisymm (hbound ⟨k, h.1, rfl⟩) (h.2 n hn)⟩
  · intro hx
    obtain ⟨n, rfl, rfl⟩ := hx
    refine ⟨⟨n, h.1, rfl⟩, ?_⟩
    intro v hv
    obtain ⟨k, hk, rfl⟩ := hv
    exact h.2 k hk

theorem Tightest.isLeast_iff (h : Tightest (fun a b => b ≤ a) (SetBy ds limit) m) :
    IsLeast (limitsOf limit ds) x ↔ ∃ n, m = some n ∧ n.value = x := by
  constructor
  · intro hx
    obtain ⟨⟨n, hn, rfl⟩, hbound⟩ := hx
    cases m with
    | none => exact absurd hn (h n)
    | some k => exact ⟨k, rfl, le_antisymm (h.2 n hn) (hbound ⟨k, h.1, rfl⟩)⟩
  · intro hx
    obtain ⟨n, rfl, rfl⟩ := hx
    refine ⟨⟨n, h.1, rfl⟩, ?_⟩
    intro v hv
    obtain ⟨k, hk, rfl⟩ := hv
    exact h.2 k hk

/-- What the tightest limit says, all of them say, if it carries over to looser ones. -/
theorem Tightest.forall_iff {le : Rat → Rat → Prop} (h : Tightest le (SetBy ds limit) m)
    {P : Rat → Prop} (hP : ∀ a b, le a b → P b → P a) :
    (∀ n, m = some n → P n.value) ↔ ∀ d ∈ ds, ∀ n, limit d = some n → P n.value := by
  cases m with
  | none =>
    have hnone : ∀ d ∈ ds, ∀ n, limit d ≠ some n := fun d hd n hn => h n ⟨d, hd, hn⟩
    simp +contextual [hnone]
  | some k =>
    constructor
    · intro hk d hd n hn
      exact hP _ _ (h.2 n ⟨d, hd, hn⟩) (hk k rfl)
    · intro hall n hn
      cases hn
      obtain ⟨d, hd, hk⟩ := h.1
      exact hall d hd k hk

theorem Tightest.setBy {le : Rat → Rat → Prop} (h : Tightest le (SetBy ds limit) m) {n : Number}
    (hn : m = some n) : SetBy ds limit n := by
  subst hn
  exact h.1

theorem tightest_min : Tightest (fun a b => a ≤ b) (SetBy ds (·.minValue)) (ofDecorators ds).min := by
  rw [ofDecorators, foldl_narrow]
  exact tightest_foldl_max? _

theorem tightest_minExclusive : Tightest (fun a b => a ≤ b) (SetBy ds (·.minValueExclusive))
    (ofDecorators ds).minExclusive := by
  rw [ofDecorators, foldl_narrow]
  exact tightest_foldl_max? _

theorem tightest_max : Tightest (fun a b => b ≤ a) (SetBy ds (·.maxValue)) (ofDecorators ds).max := by
  rw [ofDecorators, foldl_narrow]
  exact tightest_foldl_min? _

theorem tightest_maxExclusive : Tightest (fun a b => b ≤ a) (SetBy ds (·.maxValueExclusive))
    (ofDecorators ds).maxExclusive := by
  rw [ofDecorators, foldl_narrow]
  exact tightest_foldl_min? _

theorem written_ofDecorators (h : ∀ d ∈ ds, d.Written) : (ofDecorators ds).Written where
  min := by
    intro n hn
    obtain ⟨d, hd, hlimit⟩ := tightest_min.setBy hn
    exact (h d hd).minValue n hlimit
  minExclusive := by
    intro n hn
    obtain ⟨d, hd, hlimit⟩ := tightest_minExclusive.setBy hn
    exact (h d hd).minValueExclusive n hlimit
  max := by
    intro n hn
    obtain ⟨d, hd, hlimit⟩ := tightest_max.setBy hn
    exact (h d hd).maxValue n hlimit
  maxExclusive := by
    intro n hn
    obtain ⟨d, hd, hlimit⟩ := tightest_maxExclusive.setBy hn
    exact (h d hd).maxValueExclusive n hlimit

/-- Only at the tightest of the exclusive limits can the exception `A` for its end matter. -/
theorem Tightest.exclusive_iff {le lt : Rat → Rat → Prop} {A : Prop}
    (h : Tightest le (SetBy ds limit) m) (hlt : ∀ a b, le a b → lt b x → lt a x)
    (heq : ∀ a, le a x → lt a x ∨ a = x) :
    (∀ n, m = some n → lt n.value x ∨ n.value = x ∧ A) ↔
    ∀ d ∈ ds, ∀ n, limit d = some n →
      lt n.value x ∨ n.value = x ∧ A ∧ ∃ k, m = some k ∧ k.value = x := by
  constructor
  · intro hm d hd n hn
    cases m with
    | none => exact absurd ⟨d, hd, hn⟩ (h n)
    | some k =>
      have hle := h.2 n ⟨d, hd, hn⟩
      rcases hm k rfl with hk | ⟨rfl, hA⟩
      · exact .inl (hlt _ _ hle hk)
      · exact (heq _ hle).imp_right fun hend => ⟨hend, hA, k, rfl, rfl⟩
  · intro hall n hn
    obtain ⟨d, hd, hlimit⟩ := h.setBy hn
    exact (hall d hd n hlimit).imp_right fun hend => ⟨hend.1, hend.2.1⟩

/-- The folded limits, settled against each other, admit what all decorators admit. -/
theorem admits_iff :
    Admits ds x ↔
      ((∀ n, (ofDecorators ds).min = some n → n.value ≤ x) ∧
        ∀ n, (ofDecorators ds).minExclusive = some n →
          n.value < x ∨ n.value = x ∧ ∃ m, (ofDecorators ds).min = some m ∧ m.value = x) ∧
      (∀ n, (ofDecorators ds).max = some n → x ≤ n.value) ∧
        ∀ n, (ofDecorators ds).maxExclusive = some n →
          x < n.value ∨ n.value = x ∧ ∃ m, (ofDecorators ds).max = some m ∧ m.value = x := by
  rw [tightest_min.forall_iff fun a b hab hb => le_trans hab hb,
    tightest_minExclusive.exclusive_iff (fun a b => lt_of_le_of_lt) (fun a => LE.le.lt_or_eq),
    tightest_max.forall_iff fun a b hba hb => le_trans hb hba,
    @Tightest.exclusive_iff _ _ _ x _ (fun a b => b < a) _ tightest_maxExclusive
      (fun a b hba hb => lt_of_lt_of_le hb hba) (fun a h => h.lt_or_eq.imp_right Eq.symm),
    ← tightest_min.isGreatest_iff, ← tightest_minExclusive.isGreatest_iff,
    ← tightest_max.isLeast_iff, ← tightest_maxExclusive.isLeast_iff]
  constructor
  · intro h
    exact ⟨⟨h.min, h.minExclusive⟩, h.max, h.maxExclusive⟩
  · intro h
    exact ⟨h.1.1, h.1.2, h.2.1, h.2.2⟩

end Folded

end Range

/-- The calls let through what lies in the range of the type and keeps all limits, and no side is
limited twice. -/
theorem numberCalls_pass_iff {ds : List Decorators} (hds : ∀ d ∈ ds, d.Written) (type : String)
    (big : Bool) :
    ∃ es, numberCalls ds (intrinsic type) big = .ok es ∧
      (∀ x : Rat, (∀ e ∈ es, e.Passes x) ↔ (intrinsic type).Contains x ∧ Admits ds x) ∧
      es.countP (callsOneOf lowerMethods) ≤ 1 ∧ es.countP (callsOneOf upperMethods) ≤ 1 := by
  have hwritten : ((intrinsic type).reconcile (ofDecorators ds)).Written :=
    (written_intrinsic type).reconcile (written_ofDecorators hds)
  obtain ⟨es, hes⟩ : ∃ es, numberCalls ds (intrinsic type) big = .ok es := ⟨_, calls_eq _ big⟩
  refine ⟨es, hes, ?_, countP_calls (reconcile_lower _ _) (reconcile_upper _ _) hes⟩
  intro x
  obtain ⟨hnoMin, hnoMax⟩ := intrinsic_inclusive type
  have hlower := reconcile_lower_iff (intrinsic type) (ofDecorators ds) x
  have hupper := reconcile_upper_iff (intrinsic type) (ofDecorators ds) x
  rw [forall_passes_iff hwritten hes, admits_iff]
  constructor
  · intro h
    obtain ⟨htypeMin, hmin⟩ := hlower.mp ⟨h.min, h.minExclusive⟩
    obtain ⟨htypeMax, hmax⟩ := hupper.mp ⟨h.max, h.maxExclusive⟩
    exact ⟨⟨htypeMin, by simp [hnoMin], htypeMax, by simp [hnoMax]⟩, hmin, hmax⟩
  · intro h
    obtain ⟨htype, hmin, hmax⟩ := h
    obtain ⟨hlo, hloEx⟩ := hlower.mpr ⟨htype.min, hmin⟩
    obtain ⟨hhi, hhiEx⟩ := hupper.mpr ⟨htype.max, hmax⟩
    exact ⟨hlo, hloEx, hhi, hhiEx⟩

/-- A number from five on, said in two ways, and below ninety-nine and a half. -/
def fromFive : List Decorators :=
  [{ minValue := some (.ofInt 5), maxValueExclusive := Number.parse? "99.5" },
    { minValueExclusive := some (.ofInt 5), maxValue := some (.ofInt 120) }]

theorem numberCalls_pass_iff_fromFive :
    (∀ d ∈ fromFive, d.Written) ∧
    ∃ es, numberCalls fromFive (intrinsic "int8") false = .ok es ∧
      (∀ x : Rat, (∀ e ∈ es, e.Passes x) ↔ (intrinsic "int8").Contains x ∧ Admits fromFive x) ∧
      es.countP (callsOneOf lowerMethods) ≤ 1 ∧ es.countP (callsOneOf upperMethods) ≤ 1 := by
  have hds : ∀ d ∈ fromFive, d.Written := by
    intro d hd
    rcases List.mem_pair.mp hd with rfl | rfl
    · refine ⟨?_, by simp, by simp, fun n => Number.written_of_parse?⟩
      simp [Number.written_ofInt]
    · constructor <;> simp [Number.written_ofInt]
  exact ⟨hds, numberCalls_pass_iff hds "int8" false⟩

end SchemaLoom

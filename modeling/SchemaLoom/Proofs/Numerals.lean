import Mathlib.Algebra.Order.Ring.Rat
import Mathlib.Data.List.TakeDrop
import Mathlib.Data.List.TakeWhile
import SchemaLoom.Expr.Literal
import SchemaLoom.Proofs.StringLiterals

/-!
# Written numbers

A literal is read back as the number it was written for: an integer by its decimal
digits, whether or not the mark of a big integer stands behind them, any other number
by the text it came with. Nothing is said here of texts that no number was read from.
-/

namespace SchemaLoom

set_option autoImplicit false

namespace Number

/-! ### Digits -/

section Digits
variable {cs : List Char}

theorem digitValue?_of_isDigit {c : Char} (h : c.isDigit = true) :
    digitValue? c = some (c.toNat - '0'.toNat) := by
  rw [digitValue?, if_pos h]

theorem lt_ten_of_isDigit {c : Char} (h : c.isDigit = true) : c.toNat - '0'.toNat < 10 := by
  have hle : c.toNat ≤ 57 := (Char.isDigit_iff_toNat.mp h).2
  change c.toNat - 48 < 10
  omega

/-- The digits read so far with more of them behind. -/
def pushAll (ds : Digits) (cs : List Char) : Digits :=
  cs.foldl (fun ds c => ds.push 10 (c.toNat - '0'.toNat)) ds

theorem read_append (hcs : ∀ c ∈ cs, c.isDigit = true) (ds : Digits) (point : Bool)
    (rest : List Char) :
    Digits.read 10 point ds (cs ++ rest) = Digits.read 10 point (pushAll ds cs) rest := by
  induction cs generalizing ds with
  | nil => rfl
  | cons c cs ih =>
    have hc := hcs c List.mem_cons_self
    have hpoint : c ≠ '.' := by
      rintro rfl
      cases hc
    have hseparator : c ≠ '_' := by
      rintro rfl
      cases hc
    rw [List.cons_append, Digits.read, digitValue?_of_isDigit hc]
    simp only [hpoint, hseparator, decide_false, Bool.false_and, Bool.false_eq_true, if_false,
      lt_ten_of_isDigit hc, if_true]
    exact ih (fun d hd => hcs d (List.mem_cons_of_mem c hd)) _

theorem value_pushAll (ds : Digits) : (pushAll ds cs).value = Nat.ofDigitChars 10 cs ds.value := by
  induction cs generalizing ds with
  | nil => rfl
  | cons c cs ih =>
    rw [Nat.ofDigitChars_cons, Nat.mul_comm]
    exact ih _

theorem point_pushAll {ds : Digits} (h : ds.point = none) : (pushAll ds cs).point = none := by
  induction cs generalizing ds with
  | nil => exact h
  | cons c cs ih =>
    apply ih
    simp [Digits.push, h]

theorem separated_pushAll {ds : Digits} (h : ds.misplaced = false)
    (hbefore : ds.before = .digit ∨ cs ≠ []) : (pushAll ds cs).separated = true := by
  induction cs generalizing ds with
  | nil =>
    have hdigit : ds.before = .digit := hbefore.resolve_right (by simp)
    simp [pushAll, Digits.separated, h, hdigit]
  | cons c cs ih => exact ih h (.inl rfl)

theorem count_pushAll (ds : Digits) (cs : List Char) :
    (pushAll ds cs).count = ds.count + cs.length := by
  induction cs generalizing ds with
  | nil => rfl
  | cons c cs ih =>
    have hpush : (ds.push 10 (c.toNat - '0'.toNat)).count = ds.count + 1 := rfl
    have hrest := ih (ds.push 10 (c.toNat - '0'.toNat))
    rw [hpush] at hrest
    change (pushAll (ds.push 10 _) cs).count = ds.count + (cs.length + 1)
    omega

end Digits

/-! ### Integers -/

section Integers
variable {cs rest : List Char}

/-- What may stand behind the digits of an integer: nothing, or the mark of a big one. -/
def IsEnding (rest : List Char) : Prop := rest = [] ∨ rest = ['n']

theorem IsEnding.read (h : IsEnding rest) (ds : Digits) (point : Bool) :
    Digits.read 10 point ds rest = (ds, rest) := by
  rcases h with rfl | rfl
  · rfl
  · rfl

theorem baseOf?_of_isDigit {c : Char} (h : c.isDigit = true) : baseOf? c = none := by
  have hall : ∀ d < 10, baseOf? (Nat.digitChar d) = none := by decide
  have hlt := lt_ten_of_isDigit h
  have hc : Nat.digitChar (c.toNat - '0'.toNat) = c := by
    have hle : 48 ≤ c.toNat := (Char.isDigit_iff_toNat.mp h).1
    apply Char.toNat_inj.mp
    rw [Nat.toNat_digitChar_of_lt_ten hlt]
    change 48 + (c.toNat - 48) = c.toNat
    omega
  rw [← hc]
  exact hall _ hlt

/-- Behind a leading zero stands no marker of a base. -/
theorem unsigned?_digits (hcs : ∀ c ∈ cs, c.isDigit = true) (hne : cs ≠ [])
    (hrest : IsEnding rest) :
    ∃ ds, unsigned? true (cs ++ rest) = some (ds, 10, rest) ∧
      ds.value = Nat.ofDigitChars 10 cs 0 ∧ ds.point = none := by
  obtain ⟨c, cs, rfl⟩ := List.exists_cons_of_ne_nil hne
  have htail : ∀ d ∈ cs, d.isDigit = true := fun d hd => hcs d (List.mem_cons_of_mem c hd)
  unfold unsigned?
  dsimp only
  split
  · rename_i d tail heq
    obtain ⟨hzero, htl⟩ : c = '0' ∧ cs ++ rest = d :: tail := List.cons.inj heq
    have hbase : baseOf? d = none := by
      cases cs with
      | nil =>
        rcases hrest with rfl | rfl
        · cases htl
        · cases htl
          rfl
      | cons e es =>
        rw [← (List.cons.inj htl).1]
        exact baseOf?_of_isDigit (htail e List.mem_cons_self)
    have hcount := count_pushAll { count := 1, before := .digit } cs
    have hsep : (pushAll { count := 1, before := .digit } cs).separated = true :=
      separated_pushAll rfl (.inl rfl)
    rw [hbase, ← htl]
    simp only [if_true, read_append htail, hrest.read, hsep]
    rw [if_neg (by simp [hcount])]
    refine ⟨_, rfl, ?_, point_pushAll rfl⟩
    rw [value_pushAll, Nat.ofDigitChars_cons, hzero]
    rfl
  · have hcount := count_pushAll {} (c :: cs)
    have hsep : (pushAll {} (c :: cs)).separated = true := separated_pushAll rfl (.inr (by simp))
    simp only [read_append hcs, hrest.read, hsep]
    rw [if_neg (by simp [hcount])]
    exact ⟨_, rfl, value_pushAll _, point_pushAll rfl⟩

theorem sign_of_isDigit {c : Char} (h : c.isDigit = true) : sign (c :: cs) = (false, c :: cs) := by
  unfold sign
  split
  · rename_i heq
    obtain ⟨rfl, _⟩ := List.cons.inj heq
    cases h
  · rename_i heq
    obtain ⟨rfl, _⟩ := List.cons.inj heq
    cases h
  · rfl

/-- A sign and digits, with the sign taken off. -/
def signed (neg : Bool) (cs : List Char) : List Char := if neg then '-' :: cs else cs

theorem sign_signed (hcs : ∀ c ∈ cs, c.isDigit = true) (hne : cs ≠ []) (neg : Bool)
    (rest : List Char) : sign (signed neg cs ++ rest) = (neg, cs ++ rest) := by
  obtain ⟨c, cs, rfl⟩ := List.exists_cons_of_ne_nil hne
  cases neg with
  | false => exact sign_of_isDigit (hcs c List.mem_cons_self)
  | true => rfl

theorem decimal?_signed (hcs : ∀ c ∈ cs, c.isDigit = true) (hne : cs ≠ []) (neg : Bool) :
    decimal? (signed neg cs) =
      some (if neg then -(Nat.ofDigitChars 10 cs 0 : Rat) else Nat.ofDigitChars 10 cs 0) := by
  obtain ⟨ds, hds, hvalue, hpoint⟩ := unsigned?_digits hcs hne (.inl rfl)
  have hsign := sign_signed hcs hne neg []
  rw [List.append_nil] at hds
  rw [List.append_nil, List.append_nil] at hsign
  have hpower : ∀ base, power base 0 = 1 := by simp [power]
  unfold decimal?
  rw [hsign]
  simp only [hds, Option.bind_eq_bind, Option.bind_some, exponentBase?, List.isEmpty_nil, if_true,
    hpoint, hvalue]
  by_cases hzero : Nat.ofDigitChars 10 cs 0 = 0
  · simp [hzero]
  · simp [hzero, hpower]

theorem decimal?_marked (hcs : ∀ c ∈ cs, c.isDigit = true) (hne : cs ≠ []) (neg : Bool) :
    decimal? (signed neg cs ++ ['n']) = none := by
  obtain ⟨ds, hds, _⟩ := unsigned?_digits hcs hne (.inr rfl)
  have hmark : exponentBase? ['n'] = none := rfl
  unfold decimal?
  rw [sign_signed hcs hne neg ['n']]
  simp [hds, hmark]

theorem valueOf?_of_no_slash (h : '/' ∉ cs) : valueOf? cs = decimal? cs := by
  have hall : ∀ c ∈ cs, (c != '/') = true := by
    intro c hc
    rw [bne_iff_ne]
    rintro rfl
    exact h hc
  unfold valueOf?
  rw [List.span_eq_takeWhile_dropWhile, List.dropWhile_eq_nil_iff.mpr hall]

end Integers

/-- An integer is written with a sign where it is negative, and digits. -/
theorem ofInt_eq (z : Int) :
    Text.ofInt z = Text.ofChars (signed (decide (z < 0)) (Nat.toDigits 10 z.natAbs)) := by
  cases z with
  | ofNat n =>
    have htext : toString (Int.ofNat n) = Nat.repr n := rfl
    have hneg : decide (Int.ofNat n < 0) = false := by simp
    rw [Text.ofInt, Text.ofString, htext, hneg, Nat.toList_repr]
    rfl
  | negSucc n =>
    have htext : toString (Int.negSucc n) = "-" ++ Nat.repr (n + 1) := rfl
    simp [Text.ofInt, Text.ofString, htext, signed]

theorem isDigit_toDigits {n : Nat} {c : Char} (h : c ∈ Nat.toDigits 10 n) : c.isDigit = true :=
  Nat.isDigit_of_mem_toDigits (by decide) (by decide) h

theorem slash_not_mem_signed (neg : Bool) (n : Nat) : '/' ∉ signed neg (Nat.toDigits 10 n) := by
  have hdigits : '/' ∉ Nat.toDigits 10 n := fun h => nomatch isDigit_toDigits h
  cases neg with
  | false => exact hdigits
  | true => simpa [signed] using hdigits

theorem parse?_ofInt (z : Int) : parse? (Text.ofInt z) = some (ofInt z) := by
  have hdigits : ∀ c ∈ Nat.toDigits 10 z.natAbs, c.isDigit = true := fun c => isDigit_toDigits
  have hvalue := decimal?_signed hdigits Nat.toDigits_ne_nil (decide (z < 0))
  rw [Nat.ofDigitChars_ten_toDigits] at hvalue
  have hz : (if decide (z < 0) then -(z.natAbs : Rat) else z.natAbs) = z := by
    by_cases hneg : z < 0
    · rw [if_pos (by simpa using hneg), ← Int.cast_natCast, Int.ofNat_natAbs_of_nonpos hneg.le]
      simp
    · rw [if_neg (by simpa using hneg), ← Int.cast_natCast,
        Int.natAbs_of_nonneg (Int.not_lt.mp hneg)]
  rw [hz] at hvalue
  rw [parse?, ofInt, ofInt_eq, chars?_ofChars]
  simp [valueOf?_of_no_slash (slash_not_mem_signed _ _), hvalue]

theorem parse?_marked (z : Int) : parse? (Text.ofInt z ++ "n") = none := by
  have hdigits : ∀ c ∈ Nat.toDigits 10 z.natAbs, c.isDigit = true := fun c => isDigit_toDigits
  have hnone := decimal?_marked hdigits Nat.toDigits_ne_nil (decide (z < 0))
  have hslash : '/' ∉ signed (decide (z < 0)) (Nat.toDigits 10 z.natAbs) ++ ['n'] := by
    simpa using slash_not_mem_signed _ _
  have htext : Text.ofInt z ++ "n" =
      Text.ofChars (signed (decide (z < 0)) (Nat.toDigits 10 z.natAbs) ++ ['n']) := by
    rw [ofInt_eq]
    simp [Text.ofChars]
    rfl
  rw [htext, parse?, chars?_ofChars]
  simp [valueOf?_of_no_slash hslash, hnone]

/-! ### Literals -/

/-- The text says the value, as it does for every number that was read. -/
def Written (n : Number) : Prop := parse? n.text = some n

theorem written_of_parse? {t : Text} {n : Number} (h : parse? t = some n) : n.Written := by
  unfold parse? at h
  obtain ⟨cs, hcs, h⟩ := Option.bind_eq_some_iff.mp h
  obtain ⟨v, hv, h⟩ := Option.bind_eq_some_iff.mp h
  cases h
  simp [Written, parse?, hcs, hv]

theorem written_ofInt (z : Int) : (ofInt z).Written := parse?_ofInt z

/-- The value of a literal: of a number as it stands, else of a big integer before its mark. -/
def readLiteral? (t : Text) : Option Rat :=
  ((parse? t).or (if t.getLast? = some (.char 'n') then parse? t.dropLast else none)).map (·.value)

theorem readLiteral?_literal {n : Number} (h : n.Written) (big : Bool) :
    readLiteral? (n.literal big) = some n.value := by
  have hplain : readLiteral? n.text = some n.value := by
    rw [readLiteral?, h]
    rfl
  unfold literal
  split
  · rename_i t ht
    unfold intText? at ht
    split at ht
    · rename_i hint
      cases ht
      have hvalue : (n.value.num : Rat) = n.value :=
        Rat.coe_int_num_of_den_eq_one (by simpa [isInt] using hint)
      have hmark : Text.ofString "n" = [.char 'n'] := rfl
      have hlast : (Text.ofInt n.value.num ++ "n").getLast? = some (.char 'n') := by
        simp [hmark]
      have hbefore : (Text.ofInt n.value.num ++ "n").dropLast = Text.ofInt n.value.num := by
        simp [hmark]
      rw [readLiteral?, parse?_marked, hlast, hbefore, if_pos rfl, parse?_ofInt, Option.none_or,
        Option.map_some, ofInt, hvalue]
    · cases ht
  · exact hplain

end Number

end SchemaLoom

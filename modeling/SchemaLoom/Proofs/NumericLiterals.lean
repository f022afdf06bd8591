import Mathlib.Algebra.Field.Rat
import Mathlib.Data.List.Induction
import Mathlib.Tactic.FieldSimp
import Mathlib.Tactic.Ring
import SchemaLoom.Proofs.Numerals
import SchemaLoom.Proofs.StringLiterals

/-!
# Numeric literals

The text of a number is written down as a literal the way it came, but for a big integer,
which is written anew. What a scanner of module code takes for a numeric literal is given by
a grammar that carries the exact value of each of its parts.

A number without a fraction bar is a literal exactly where its text keeps to what both sides
read: no zero before another digit, no power of two, and behind the mark of a base nothing
but digits and the separators between them. Where it is one, it is a literal of that very
number.
-/

namespace SchemaLoom

set_option autoImplicit false

namespace NumericLiteral

/-! ### The grammar -/

/-- A digit of a base with its value, a letter in either case. -/
def IsDigit (base : Nat) (c : Char) (d : Nat) : Prop := d < base ∧ c.toLower = Nat.digitChar d

/-- The letters that mark a base behind a zero. -/
def marks : List (Char × Nat) := [('b', 2), ('o', 8), ('x', 16)]

/-- Digits of a base, with at most one separator between two of them: their value and how many
they are. -/
inductive DigitRun (base : Nat) : List Char → Nat → Nat → Prop
  | one {c : Char} {d : Nat} : IsDigit base c d → DigitRun base [c] d 1
  | next {cs : List Char} {c : Char} {v k d : Nat} : DigitRun base cs v k → IsDigit base c d →
      DigitRun base (cs ++ [c]) (v * base + d) (k + 1)
  | separated {cs : List Char} {c : Char} {v k d : Nat} : DigitRun base cs v k →
      IsDigit base c d → DigitRun base (cs ++ ['_', c]) (v * base + d) (k + 1)

/-- A whole decimal number: a zero alone, or digits that begin with another one. -/
inductive Whole : List Char → Nat → Prop
  | zero : Whole ['0'] 0
  | digits {cs : List Char} {v k : Nat} : DigitRun 10 cs v k → cs.head? ≠ some '0' → Whole cs v

/-- A decimal number without its exponent. A digit stands on one side of the point at least. -/
inductive Mantissa : List Char → Rat → Prop
  | whole {ws : List Char} {w : Nat} : Whole ws w → Mantissa ws w
  | point {ws : List Char} {w : Nat} : Whole ws w → Mantissa (ws ++ ['.']) w
  | fraction {ws fs : List Char} {w f k : Nat} : Whole ws w → DigitRun 10 fs f k →
      Mantissa (ws ++ '.' :: fs) (w + f / 10 ^ k)
  | leading {fs : List Char} {f k : Nat} : DigitRun 10 fs f k → Mantissa ('.' :: fs) (f / 10 ^ k)

/-- An exponent of ten, or none. -/
inductive Exponent : List Char → Int → Prop
  | none : Exponent [] 0
  | plain {mark : Char} {cs : List Char} {v k : Nat} : mark.toLower = 'e' → DigitRun 10 cs v k →
      Exponent (mark :: cs) v
  | plus {mark : Char} {cs : List Char} {v k : Nat} : mark.toLower = 'e' → DigitRun 10 cs v k →
      Exponent (mark :: '+' :: cs) v
  | minus {mark : Char} {cs : List Char} {v k : Nat} : mark.toLower = 'e' → DigitRun 10 cs v k →
      Exponent (mark :: '-' :: cs) (-v)

/-- An integer in a marked base. -/
inductive Marked : List Char → Nat → Prop
  | intro {mark : Char} {base : Nat} {cs : List Char} {v k : Nat} : (mark.toLower, base) ∈ marks →
      DigitRun base cs v k → Marked ('0' :: mark :: cs) v

/-- A number without a sign. -/
inductive Unsigned : List Char → Rat → Prop
  | decimal {ms es : List Char} {q : Rat} {x : Int} : Mantissa ms q → Exponent es x →
      Unsigned (ms ++ es) (q * 10 ^ x)
  | marked {cs : List Char} {v : Nat} : Marked cs v → Unsigned cs v

/-- A number with a sign or without. -/
inductive Signed : List Char → Rat → Prop
  | plain {cs : List Char} {v : Rat} : Unsigned cs v → Signed cs v
  | plus {cs : List Char} {v : Rat} : Unsigned cs v → Signed ('+' :: cs) v
  | minus {cs : List Char} {v : Rat} : Unsigned cs v → Signed ('-' :: cs) (-v)

/-- A big integer without a sign. -/
inductive Big : List Char → Nat → Prop
  | whole {cs : List Char} {v : Nat} : Whole cs v → Big (cs ++ ['n']) v
  | marked {cs : List Char} {v : Nat} : Marked cs v → Big (cs ++ ['n']) v

/-- A literal with its sign and its exact value. A big integer has no plus sign. -/
inductive Literal : List Char → Rat → Prop
  | number {cs : List Char} {v : Rat} : Signed cs v → Literal cs v
  | big {cs : List Char} {v : Nat} : Big cs v → Literal cs v
  | minusBig {cs : List Char} {v : Nat} : Big cs v → Literal ('-' :: cs) (-v)

/-- The characters that a run of digits is made of. -/
def IsRunChar (base : Nat) (c : Char) : Prop := c = '_' ∨ ∃ d, IsDigit base c d

/-- What sets the texts that make a literal apart from all that are read as numbers: no zero
before another digit, no power of two, and nothing but digits behind the mark of a base. -/
structure Portable (cs : List Char) : Prop where
  zero : ∀ c rest, cs = '0' :: c :: rest → ¬ IsRunChar 10 c
  power : ∀ c ∈ cs, c.toLower ≠ 'p'
  marked : ∀ mark base rest, cs = '0' :: mark :: rest → (mark.toLower, base) ∈ marks →
    rest.head? ≠ some '_' ∧ ∀ c ∈ rest, IsRunChar base c

end NumericLiteral

namespace Number

open NumericLiteral

/-! ### How digits are read -/

section Reading
variable {base : Nat} {point : Bool} {ds : Digits} {cs rest : List Char}

theorem toNat_toLower (c : Char) :
    c.toLower.toNat = if 65 ≤ c.toNat ∧ c.toNat ≤ 90 then c.toNat + 32 else c.toNat := by
  have hshift : ('a'.val - 'A'.val).toNat = 32 := rfl
  have hupper : c.val ≥ 'A'.val ∧ c.val ≤ 'Z'.val ↔ 65 ≤ c.toNat ∧ c.toNat ≤ 90 := by
    rw [ge_iff_le, UInt32.le_iff_toNat_le, UInt32.le_iff_toNat_le]
    rfl
  unfold Char.toLower
  split
  · rename_i h
    have hle := hupper.mp h
    have hval : c.val.toNat = c.toNat := rfl
    rw [if_pos hle, Char.toNat, UInt32.toNat_add, hshift, hval]
    omega
  · rename_i h
    rw [if_neg (mt hupper.mpr h)]

/-- A digit as it is read, and as the grammar has it: both are a matter of code points. -/
theorem digitValue?_iff {c : Char} {d : Nat} (hd : d < 16) :
    digitValue? c = some d ↔ c.toLower = Nat.digitChar d := by
  have hchar : ∀ d < 16, (Nat.digitChar d).toNat = if d < 10 then d + 48 else d + 87 := by decide
  have hcode : digitValue? c =
      if 48 ≤ c.toNat ∧ c.toNat ≤ 57 then some (c.toNat - 48)
      else if 97 ≤ c.toNat ∧ c.toNat ≤ 122 then some (c.toNat - 97 + 10)
      else if 65 ≤ c.toNat ∧ c.toNat ≤ 90 then some (c.toNat - 65 + 10)
      else none := by
    unfold digitValue?
    delta Char.isDigit Char.isLower Char.isUpper
    simp only [ge_iff_le, UInt32.le_iff_toNat_le, Bool.and_eq_true, decide_eq_true_eq]
    rfl
  rw [← Char.toNat_inj, toNat_toLower, hchar d hd, hcode]
  split_ifs <;> simp only [Option.some.injEq, false_iff] <;> omega

/-- The characters that belong to a run of digits. -/
def inRun (base : Nat) (c : Char) : Bool := c == '_' || (digitValue? c).any (· < base)

def take (base : Nat) (ds : Digits) (c : Char) : Digits :=
  if c = '_' then ds.separator else ds.push base ((digitValue? c).getD 0)

def takeAll (base : Nat) (ds : Digits) (cs : List Char) : Digits := cs.foldl (take base) ds

theorem inRun_iff {c : Char} :
    inRun base c = true ↔ c = '_' ∨ ∃ d < base, digitValue? c = some d := by
  unfold inRun
  cases h : digitValue? c with
  | none => simp
  | some d => simp

theorem read_cons_of_inRun {c : Char} (hc : inRun base c = true) :
    Digits.read base point ds (c :: cs) = Digits.read base point (take base ds c) cs := by
  have hpoint : c ≠ '.' := by
    rintro rfl
    cases hc
  rw [Digits.read]
  simp only [hpoint, decide_false, Bool.false_and, Bool.false_eq_true, if_false]
  rcases inRun_iff.mp hc with rfl | ⟨d, hlt, hd⟩
  · rfl
  · have hseparator : c ≠ '_' := by
      rintro rfl
      cases hd
    simp [hd, hlt, hseparator, take]

theorem read_cons_of_not_inRun {c : Char} (hc : inRun base c = false)
    (hpoint : c = '.' → point = true → ds.point ≠ none) :
    Digits.read base point ds (c :: cs) = (ds, c :: cs) := by
  have hseparator : c ≠ '_' := by
    rintro rfl
    cases hc
  have hclosed : ¬ (decide (c = '.') && point && ds.point.isNone) = true := by
    simp only [Bool.and_eq_true, decide_eq_true_eq, Option.isNone_iff_eq_none]
    rintro ⟨⟨hc, hp⟩, hnone⟩
    exact hpoint hc hp hnone
  rw [Digits.read, if_neg hclosed, if_neg hseparator]
  cases hd : digitValue? c with
  | none => rfl
  | some d =>
    have hle : ¬ d < base := fun hlt => by
      rw [inRun_iff.mpr (.inr ⟨d, hlt, hd⟩)] at hc
      cases hc
    simp [hle]

theorem take_point {c : Char} : (take base ds c).point = none ↔ ds.point = none := by
  unfold take
  split <;> simp [Digits.separator, Digits.push]

theorem takeAll_point : (takeAll base ds cs).point = none ↔ ds.point = none := by
  induction cs generalizing ds with
  | nil => rfl
  | cons c cs ih => exact ih.trans take_point

theorem read_append_run (hcs : ∀ c ∈ cs, inRun base c = true) :
    Digits.read base point ds (cs ++ rest) =
      Digits.read base point (takeAll base ds cs) rest := by
  induction cs generalizing ds with
  | nil => rfl
  | cons c cs ih =>
    rw [List.cons_append, read_cons_of_inRun (hcs c List.mem_cons_self)]
    exact ih (fun d hd => hcs d (List.mem_cons_of_mem c hd))

theorem read_run (hcs : ∀ c ∈ cs, inRun base c = true) :
    Digits.read base point ds cs = (takeAll base ds cs, []) := by
  have hread : Digits.read base point ds (cs ++ []) =
      Digits.read base point (takeAll base ds cs) [] := read_append_run hcs
  rwa [List.append_nil] at hread

theorem read_point (h : ds.point = none) :
    Digits.read base true ds ('.' :: cs) = Digits.read base true ds.mark cs := by
  simp [Digits.read, h]

theorem read_stop (hrest : ∀ c ∈ rest.head?, inRun base c = false)
    (hpoint : rest.head? = some '.' → point = true → ds.point ≠ none) :
    Digits.read base point ds rest = (ds, rest) := by
  cases rest with
  | nil => rfl
  | cons c rest =>
    apply read_cons_of_not_inRun (hrest c rfl)
    rintro rfl
    exact hpoint rfl

theorem exists_run (base : Nat) (cs : List Char) : ∃ ws rest, cs = ws ++ rest ∧
    (∀ c ∈ ws, inRun base c = true) ∧ ∀ c ∈ rest.head?, inRun base c = false := by
  refine ⟨cs.takeWhile (inRun base), cs.dropWhile (inRun base),
    List.takeWhile_append_dropWhile.symm, fun c hc => List.mem_takeWhile_imp hc, fun c hc => ?_⟩
  simpa [Option.mem_def.mp hc] using List.head?_dropWhile_not (inRun base) cs

/-- Without a point to come, one run is read. -/
theorem read_closed {ds' : Digits} (hclosed : point = true → ds.point ≠ none)
    (h : Digits.read base point ds cs = (ds', rest)) :
    ∃ ws, cs = ws ++ rest ∧ (∀ c ∈ ws, inRun base c = true) ∧ ds' = takeAll base ds ws := by
  obtain ⟨ws, rest', rfl, hws, hstop⟩ := exists_run base cs
  have hpoint : rest'.head? = some '.' → point = true → (takeAll base ds ws).point ≠ none :=
    fun _ hp => mt takeAll_point.mp (hclosed hp)
  rw [read_append_run hws, read_stop hstop hpoint] at h
  cases h
  exact ⟨ws, rfl, hws, rfl⟩

/-- With a point to come, one run is read or two around the point. -/
theorem read_open {ds' : Digits} (hopen : ds.point = none)
    (h : Digits.read base true ds cs = (ds', rest)) :
    ∃ ws, (∀ c ∈ ws, inRun base c = true) ∧ ((cs = ws ++ rest ∧ ds' = takeAll base ds ws) ∨
      ∃ fs, cs = ws ++ '.' :: (fs ++ rest) ∧ (∀ c ∈ fs, inRun base c = true) ∧
        ds' = takeAll base (takeAll base ds ws).mark fs) := by
  obtain ⟨ws, rest', rfl, hws, hstop⟩ := exists_run base cs
  rw [read_append_run hws] at h
  refine ⟨ws, hws, ?_⟩
  by_cases hpoint : rest'.head? = some '.'
  · obtain ⟨tail, rfl⟩ := List.head?_eq_some_iff.mp hpoint
    rw [read_point (takeAll_point.mpr hopen)] at h
    obtain ⟨fs, rfl, hfs, hds'⟩ := read_closed (fun _ => Option.some_ne_none 0) h
    exact .inr ⟨fs, rfl, hfs, hds'⟩
  · rw [read_stop hstop (fun heq => absurd heq hpoint)] at h
    cases h
    exact .inl ⟨rfl, rfl⟩

end Reading

/-! ### Runs of digits -/

section Runs
variable {base : Nat} {point : Bool} {ds : Digits} {cs rest : List Char} {v k : Nat}

theorem take_digit {c : Char} {d : Nat} (h : digitValue? c = some d) :
    take base ds c = ds.push base d := by
  have hseparator : c ≠ '_' := by
    rintro rfl
    cases h
  simp [take, hseparator, h]

theorem take_misplaced {c : Char} (h : ds.misplaced = true) :
    (take base ds c).misplaced = true := by
  unfold take
  split <;> simp [Digits.separator, Digits.push, h]

theorem takeAll_append (cs' : List Char) :
    takeAll base ds (cs ++ cs') = takeAll base (takeAll base ds cs) cs' := List.foldl_append

/-- A run read behind what was read before. -/
def extended (ds : Digits) (base v k : Nat) : Digits :=
  { ds with value := ds.value * base ^ k + v, count := ds.count + k, before := .digit,
            point := ds.point.map (· + k) }

theorem push_eq_extended {d : Nat} : ds.push base d = extended ds base d 1 := by
  simp [Digits.push, extended]

theorem push_extended {d : Nat} :
    (extended ds base v k).push base d = extended ds base (v * base + d) (k + 1) := by
  simp only [Digits.push, extended, Option.map_map]
  congr 1
  rw [pow_succ]
  ring

theorem digit_iff (hbase : base ≤ 16) {c : Char} {d : Nat} :
    IsDigit base c d ↔ d < base ∧ digitValue? c = some d := by
  unfold IsDigit
  exact and_congr_right fun hd => (digitValue?_iff (hd.trans_le hbase)).symm

/-- A run of the grammar is read as its value, and adds as many digits as it has. -/
theorem takeAll_of_digitRun (hbase : base ≤ 16) (h : DigitRun base cs v k) (ds : Digits) :
    takeAll base ds cs = extended ds base v k := by
  induction h with
  | one hd => exact (take_digit ((digit_iff hbase).mp hd).2).trans push_eq_extended
  | next _ hd ih =>
    rw [takeAll_append, ih]
    exact (take_digit ((digit_iff hbase).mp hd).2).trans push_extended
  | @separated cs c v k d _ hd ih =>
    have hseparator : take base (extended ds base v k) '_' =
        { extended ds base v k with before := .separator } := by
      simp [take, Digits.separator, extended]
    have hpush : ({ extended ds base v k with before := .separator } : Digits).push base d =
        (extended ds base v k).push base d := rfl
    rw [takeAll_append, ih]
    change take base (take base (extended ds base v k) '_') c = _
    rw [hseparator, take_digit ((digit_iff hbase).mp hd).2, hpush, push_extended]

theorem inRun_of_digitRun (hbase : base ≤ 16) (h : DigitRun base cs v k) :
    ∀ c ∈ cs, inRun base c = true := by
  have hdigit : ∀ {c : Char} {d : Nat}, IsDigit base c d → inRun base c = true :=
    fun hd => inRun_iff.mpr (.inr ⟨_, (digit_iff hbase).mp hd⟩)
  induction h with
  | one hd => simpa using hdigit hd
  | next _ hd ih =>
    intro c hc
    rcases List.mem_append.mp hc with hc | hc
    · exact ih c hc
    · rw [List.mem_singleton.mp hc]
      exact hdigit hd
  | separated _ hd ih =>
    intro c hc
    rcases List.mem_append.mp hc with hc | hc
    · exact ih c hc
    · rcases List.mem_pair.mp hc with rfl | rfl
      · rfl
      · exact hdigit hd

/-- A run of the grammar is read up to what stands behind it. -/
theorem read_append_digitRun (hbase : base ≤ 16) (h : DigitRun base cs v k) :
    Digits.read base point ds (cs ++ rest) =
      Digits.read base point (extended ds base v k) rest := by
  rw [read_append_run (inRun_of_digitRun hbase h), takeAll_of_digitRun hbase h]

theorem read_digitRun (hbase : base ≤ 16) (h : DigitRun base cs v k) :
    Digits.read base point ds cs = (extended ds base v k, []) := by
  rw [read_run (inRun_of_digitRun hbase h), takeAll_of_digitRun hbase h]

theorem head?_of_digitRun (h : DigitRun base cs v k) :
    ∃ c d, cs.head? = some c ∧ IsDigit base c d := by
  induction h with
  | one hd => exact ⟨_, _, rfl, hd⟩
  | next _ _ ih | separated _ _ ih =>
    obtain ⟨c, d, hc, hd⟩ := ih
    exact ⟨c, d, by simp [hc], hd⟩

/-- A run ends at a misplaced separator, with none read, behind a digit, or with a separator
behind one. -/
theorem takeAll_cases (hbase : base ≤ 16) (hcs : ∀ c ∈ cs, inRun base c = true)
    (hother : ds.before = .other) :
    (takeAll base ds cs).misplaced = true ∨ cs = [] ∨
      (∃ v k, DigitRun base cs v k ∧ takeAll base ds cs = extended ds base v k) ∨
      (∃ ws v k, cs = ws ++ ['_'] ∧ DigitRun base ws v k ∧
        takeAll base ds cs = (extended ds base v k).separator) := by
  induction cs using List.reverseRecOn with
  | nil => exact .inr (.inl rfl)
  | append_singleton cs c ih =>
    have hc : inRun base c = true := hcs c (by simp)
    have hlast : takeAll base ds (cs ++ [c]) = take base (takeAll base ds cs) c :=
      takeAll_append [c]
    rcases ih (fun d hd => hcs d (by simp [hd])) with hmis | rfl | ⟨v, k, hrun, heq⟩ |
      ⟨ws, v, k, rfl, hrun, heq⟩
    · rw [hlast]
      exact .inl (take_misplaced hmis)
    · rcases inRun_iff.mp hc with rfl | ⟨d, hlt, hd⟩
      · exact .inl (by simp [takeAll, take, Digits.separator, hother])
      · exact .inr (.inr (.inl ⟨d, 1, .one ((digit_iff hbase).mpr ⟨hlt, hd⟩),
          (take_digit hd).trans push_eq_extended⟩))
    · rw [hlast, heq]
      rcases inRun_iff.mp hc with rfl | ⟨d, hlt, hd⟩
      · exact .inr (.inr (.inr ⟨cs, v, k, rfl, hrun, by simp [take]⟩))
      · exact .inr (.inr (.inl ⟨_, _, .next hrun ((digit_iff hbase).mpr ⟨hlt, hd⟩),
          (take_digit hd).trans push_extended⟩))
    · rw [hlast, heq]
      rcases inRun_iff.mp hc with rfl | ⟨d, hlt, hd⟩
      · exact .inl (by simp [take, Digits.separator])
      · have hpush : (extended ds base v k).separator.push base d =
            (extended ds base v k).push base d := by simp [Digits.push, Digits.separator, extended]
        refine .inr (.inr (.inl ⟨v * base + d, k + 1, ?_, ?_⟩))
        · rw [List.append_assoc]
          exact .separated hrun ((digit_iff hbase).mpr ⟨hlt, hd⟩)
        · rw [take_digit hd, hpush, push_extended]

theorem takeAll_misplaced (h : ds.misplaced = true) : (takeAll base ds cs).misplaced = true := by
  induction cs generalizing ds with
  | nil => exact h
  | cons c cs ih => exact ih (take_misplaced h)

/-- Where every separator stands between two digits, what was read is a run of the grammar. -/
theorem digitRun_of_separated (hbase : base ≤ 16) (hcs : ∀ c ∈ cs, inRun base c = true)
    (hother : ds.before = .other) (hsep : (takeAll base ds cs).separated = true) :
    cs = [] ∨ ∃ v k, DigitRun base cs v k ∧ takeAll base ds cs = extended ds base v k := by
  unfold Digits.separated at hsep
  rcases takeAll_cases hbase hcs hother with hmis | hnil | hrun | ⟨_, _, _, _, _, heq⟩
  · simp [hmis] at hsep
  · exact .inl hnil
  · exact .inr hrun
  · simp [heq, Digits.separator] at hsep

theorem misplaced_mark : ds.mark.misplaced = !ds.separated := by
  unfold Digits.mark Digits.separated
  cases ds.misplaced <;> cases ds.before <;> rfl

end Runs

/-! ### How a number is read -/

section Numbers
variable {cs rest : List Char} {ds : Digits} {base ebase : Nat} {x : Int} {v : Rat}

/-- A run that a number may consist of. -/
def Counts (ds : Digits) : Prop := ds.count ≠ 0 ∧ ds.separated = true

theorem not_refused_iff : ¬ (ds.count = 0 || !ds.separated) = true ↔ Counts ds := by
  unfold Counts
  simp only [Bool.or_eq_true, decide_eq_true_eq, Bool.not_eq_true', not_or, Bool.not_eq_false]

theorem baseOf?_iff {c : Char} : baseOf? c = some base ↔ (c.toLower, base) ∈ marks := by
  unfold baseOf? marks
  split
  case h_1 hc | h_2 hc | h_3 hc =>
    rw [hc]
    simp [eq_comm]
  case h_4 hb ho hx =>
    simp only [List.mem_cons, Prod.mk.injEq, List.not_mem_nil, or_false]
    tauto

theorem unsigned?_marked {mark : Char} {b : Nat} (h : baseOf? mark = some base)
    (hparse : unsigned? true ('0' :: mark :: cs) = some (ds, b, rest)) :
    b = base ∧ Digits.read base true { before := .digit } cs = (ds, rest) ∧ Counts ds := by
  unfold unsigned? at hparse
  simp only [h] at hparse
  obtain ⟨hcounts, hds⟩ := Option.ite_none_left_eq_some.mp hparse
  cases hds
  exact ⟨rfl, rfl, not_refused_iff.mp hcounts⟩

/-- No mark of a base stands behind a leading zero. -/
def Unmarked (cs : List Char) : Prop := ∀ c rest, cs = '0' :: c :: rest → baseOf? c = none

/-- Without a mark the base is ten, and the leading zero is a digit like any other. -/
theorem unsigned?_unmarked (h : Unmarked cs) : unsigned? true cs =
    if (Digits.read 10 true {} cs).1.count = 0 || !(Digits.read 10 true {} cs).1.separated then none
    else some ((Digits.read 10 true {} cs).1, 10, (Digits.read 10 true {} cs).2) := by
  unfold unsigned?
  dsimp only
  split
  · rename_i c rest
    rw [h c rest rfl]
    rfl
  · rfl

/-- An exponent as it is read: its value and its base. -/
def ReadExponent (cs : List Char) (x : Int) (ebase : Nat) : Prop :=
  (cs = [] ∧ x = 0 ∧ ebase = 10) ∨ ∃ rest es, exponentBase? cs = some (ebase, rest) ∧
    Digits.read 10 false {} (sign rest).2 = (es, []) ∧ Counts es ∧
      x = if (sign rest).1 then -(es.value : Int) else es.value

/-- What digits and an exponent stand for. -/
def scaled (ds : Digits) (base : Nat) (x : Int) (ebase : Nat) : Rat :=
  let places : Int := -((ds.point.getD 0 : Nat) : Int)
  ds.value * 10 ^ ((if base = 10 then places else 0) + if ebase = 10 then x else 0) *
    2 ^ ((if base = 10 then 0 else places * (Nat.log2 base : Int)) + if ebase = 10 then 0 else x)

theorem power_eq (base : Nat) (e : Int) : power base e = (base : Rat) ^ e := by
  unfold power
  split
  · rename_i he
    obtain ⟨n, rfl⟩ := Int.eq_ofNat_of_zero_le he
    simp
  · rename_i he
    obtain ⟨n, rfl⟩ : ∃ n : Nat, e = -n := ⟨(-e).toNat, by omega⟩
    simp [Rat.mkRat_eq_div]

/-- Digits of the value zero are not scaled at all, which comes to the same. -/
theorem eq_scaled {neg : Bool} {m : Nat} {ten two : Int}
    (h : (if m = 0 then some (0 : Rat)
      else if ten.natAbs > 1000000 || (ten + two).natAbs > 10000000 then none
      else some (if neg then -(m * power 10 ten * power 2 two)
        else m * power 10 ten * power 2 two)) = some v) :
    v = (if neg then -1 else 1) * (m * 10 ^ ten * 2 ^ two) := by
  by_cases hm : m = 0
  · rw [if_pos hm] at h
    cases h
    simp [hm]
  · rw [if_neg hm] at h
    obtain ⟨_, h⟩ := Option.ite_none_left_eq_some.mp h
    cases h
    rw [power_eq, power_eq]
    cases neg <;> simp

theorem decimal?_eq_some (h : decimal? cs = some v) :
    ∃ ds base rest x ebase, unsigned? true (sign cs).2 = some (ds, base, rest) ∧
      ReadExponent rest x ebase ∧
      v = (if (sign cs).1 then -1 else 1) * scaled ds base x ebase := by
  unfold decimal? at h
  -- the digits are read first, then the exponent; what is too large is refused last
  obtain ⟨⟨ds, base, rest⟩, hunsigned, h⟩ := Option.bind_eq_some_iff.mp h
  dsimp only at h
  split at h
  · split at h
    · rename_i hnone hempty
      exact ⟨ds, base, rest, 0, 10, hunsigned, .inl ⟨List.isEmpty_iff.mp hempty, rfl, rfl⟩,
        eq_scaled h⟩
    · cases h
  · rename_i ebase tail hbase
    obtain ⟨hcounts, h⟩ := Option.ite_none_left_eq_some.mp h
    obtain ⟨_, h⟩ := Option.ite_none_left_eq_some.mp h
    have hread : Counts (Digits.read 10 false {} (sign tail).2).1 ∧
        (Digits.read 10 false {} (sign tail).2).2 = [] := by
      rw [Bool.or_eq_true, not_or, not_refused_iff] at hcounts
      exact ⟨hcounts.1, by simpa using hcounts.2⟩
    exact ⟨ds, base, rest, _, ebase, hunsigned,
      .inr ⟨tail, _, hbase, Prod.ext rfl hread.2, hread.1, rfl⟩, eq_scaled h⟩

/-! ### A literal is read as its value -/

theorem toLower_ne_of_inRun (hbase : base ≤ 16) {c l : Char} (hc : inRun base c = true)
    (hl : l = 'p' ∨ l = 'n') : c.toLower ≠ l := by
  have hdigit : ∀ d < 16, Nat.digitChar d ≠ 'p' ∧ Nat.digitChar d ≠ 'n' := by decide
  rcases inRun_iff.mp hc with rfl | ⟨d, hlt, hd⟩
  · rcases hl with rfl | rfl <;> decide
  · have hd16 : d < 16 := by omega
    rw [(digitValue?_iff hd16).mp hd]
    rcases hl with rfl | rfl
    · exact (hdigit d hd16).1
    · exact (hdigit d hd16).2

theorem not_inRun_of_toLower {c : Char} (hc : c.toLower = 'e') : inRun 10 c = false := by
  have hdigit : ∀ d < 10, 'e' ≠ Nat.digitChar d := by decide
  rw [← Bool.not_eq_true, inRun_iff]
  rintro (rfl | ⟨d, hlt, hd⟩)
  · cases hc
  · rw [digitValue?_iff (by omega), hc] at hd
    exact hdigit d hlt hd

/-- Nothing begins here that the digits before could go on with. -/
def Stops (cs : List Char) : Prop :=
  ∀ c ∈ cs.head?, inRun 10 c = false ∧ c ≠ '.' ∧ baseOf? c = none

theorem stops_of_exponent {es : List Char} (h : Exponent es x) : Stops es := by
  have hmark : ∀ {mark : Char} {tail : List Char}, mark.toLower = 'e' → Stops (mark :: tail) := by
    intro mark tail he c hc
    cases hc
    refine ⟨not_inRun_of_toLower he, ?_, by simp [baseOf?, he]⟩
    rintro rfl
    cases he
  cases h with
  | none => exact fun c hc => nomatch hc
  | plain he | plus he | minus he => exact hmark he

theorem exists_run_of_whole {ws : List Char} {w : Nat} (h : Whole ws w) :
    ∃ k, DigitRun 10 ws w k := by
  cases h with
  | zero => exact ⟨1, .one ⟨by decide, rfl⟩⟩
  | digits hrun => exact ⟨_, hrun⟩

theorem length_ne_zero_of_digitRun {v k : Nat} (h : DigitRun base cs v k) : k ≠ 0 := by
  cases h <;> simp

theorem counts_extended {v k : Nat} (hrun : DigitRun base cs v k) (hds : ds.misplaced = false) :
    Counts (extended ds base v k) := by
  refine ⟨?_, by simp [extended, Digits.separated, hds]⟩
  have hk := length_ne_zero_of_digitRun hrun
  simp [extended, hk]

theorem counts_mark (h : Counts ds) : Counts ds.mark := by
  refine ⟨h.1, ?_⟩
  have hmisplaced : ds.mark.misplaced = false := by simp [misplaced_mark, h.2]
  have hbefore : ds.mark.before = .other := rfl
  simp [Digits.separated, hmisplaced, hbefore]

/-- The value of decimal digits with their point. -/
def fixed (ds : Digits) : Rat := ds.value * 10 ^ (-((ds.point.getD 0 : Nat) : Int))

theorem scaled_ten : scaled ds 10 x 10 = fixed ds * 10 ^ x := by
  have hten : (10 : Rat) ≠ 0 := by decide
  simp only [scaled, fixed, if_true, add_zero, zpow_zero, mul_one, zpow_add₀ hten, mul_assoc]

theorem fixed_of_no_point (h : ds.point = none) : fixed ds = ds.value := by
  simp [fixed, h]

theorem fixed_mark : fixed ds.mark = ds.value := by
  simp [fixed, Digits.mark]

theorem fixed_behind_point {f k : Nat} :
    fixed (extended ds.mark 10 f k) = ds.value + f / 10 ^ k := by
  have hplaces : (extended ds.mark 10 f k).point.getD 0 = k := by simp [extended, Digits.mark]
  have hvalue : (extended ds.mark 10 f k).value = ds.value * 10 ^ k + f := rfl
  rw [fixed, hplaces, hvalue, zpow_neg, zpow_natCast]
  push_cast
  field_simp

theorem read_mantissa {ms es : List Char} {q : Rat} (h : Mantissa ms q) (hes : Stops es) :
    ∃ ds, Digits.read 10 true {} (ms ++ es) = (ds, es) ∧ Counts ds ∧ fixed ds = q := by
  have hten : 10 ≤ 16 := by decide
  have hstop : ∀ ds, Digits.read 10 true ds es = (ds, es) := by
    intro ds
    exact read_stop (fun c hc => (hes c hc).1) (fun hpoint => absurd rfl (hes '.' hpoint).2.1)
  cases h with
  | whole hw =>
    obtain ⟨k, hrun⟩ := exists_run_of_whole hw
    rw [read_append_digitRun hten hrun, hstop]
    exact ⟨_, rfl, counts_extended hrun rfl, by simp [fixed, extended]⟩
  | point hw =>
    obtain ⟨k, hrun⟩ := exists_run_of_whole hw
    rw [List.append_assoc, read_append_digitRun hten hrun, List.singleton_append, read_point rfl,
      hstop]
    exact ⟨_, rfl, counts_mark (counts_extended hrun rfl), fixed_mark.trans (by simp [extended])⟩
  | @fraction ws fs w f k' hw hfs =>
    obtain ⟨k, hrun⟩ := exists_run_of_whole hw
    rw [List.append_assoc, read_append_digitRun hten hrun, List.cons_append, read_point rfl,
      read_append_digitRun hten hfs, hstop]
    refine ⟨_, rfl, counts_extended hfs rfl, fixed_behind_point.trans ?_⟩
    simp [extended]
  | leading hfs =>
    rw [List.cons_append, read_point rfl, read_append_digitRun hten hfs, hstop]
    exact ⟨_, rfl, counts_extended hfs rfl, fixed_behind_point.trans (by simp)⟩

/-- Behind the zero that a whole number begins with, its digits are over. -/
theorem head?_of_whole_zero {ws tail rest : List Char} {w : Nat} {c : Char} (h : Whole ws w)
    (heq : ws ++ tail = '0' :: c :: rest) : tail.head? = some c := by
  cases h with
  | zero => simpa using congrArg List.head? (List.cons.inj heq).2
  | digits hrun hzero =>
    obtain ⟨a, _, hhead, _⟩ := head?_of_digitRun hrun
    have ha := congrArg List.head? heq
    rw [List.head?_append, hhead, Option.some_or] at ha
    exact absurd (hhead.trans ha) hzero

/-- Behind the zero that a decimal number begins with stands the point, or the number is over. -/
theorem after_zero {ms es rest : List Char} {q : Rat} {c : Char} (h : Mantissa ms q)
    (heq : ms ++ es = '0' :: c :: rest) : c = '.' ∨ es.head? = some c := by
  cases h with
  | whole hw => exact .inr (head?_of_whole_zero hw heq)
  | point hw =>
    rw [List.append_assoc] at heq
    exact .inl (by simpa [eq_comm] using head?_of_whole_zero hw heq)
  | fraction hw hfs =>
    rw [List.append_assoc] at heq
    exact .inl (by simpa [eq_comm] using head?_of_whole_zero hw heq)
  | leading => cases heq

theorem unmarked_of_mantissa {ms es : List Char} {q : Rat} (h : Mantissa ms q) (hes : Stops es) :
    Unmarked (ms ++ es) := by
  intro c rest heq
  rcases after_zero h heq with rfl | hc
  · rfl
  · exact (hes c hc).2.2

/-- A mantissa is taken for the digits of a number. -/
theorem unsigned?_mantissa {ms es : List Char} {q : Rat} (h : Mantissa ms q) (hes : Stops es) :
    ∃ ds, unsigned? true (ms ++ es) = some (ds, 10, es) ∧ fixed ds = q := by
  obtain ⟨ds, hds, hcounts, hq⟩ := read_mantissa h hes
  refine ⟨ds, ?_, hq⟩
  rw [unsigned?_unmarked (unmarked_of_mantissa h hes), hds,
    if_neg (not_refused_iff.mpr hcounts)]

theorem sign_eq (h : ∀ c ∈ cs.head?, c ≠ '-' ∧ c ≠ '+') : sign cs = (false, cs) := by
  unfold sign
  split
  · exact absurd rfl (h '-' rfl).1
  · exact absurd rfl (h '+' rfl).2
  · rfl

theorem no_sign_of_digit {c : Char} {d : Nat} (hbase : base ≤ 16) (h : IsDigit base c d) :
    c ≠ '-' ∧ c ≠ '+' := by
  have hd := ((digit_iff hbase).mp h).2
  constructor
  · rintro rfl
    cases hd
  · rintro rfl
    cases hd

theorem sign_of_digitRun {v k : Nat} (h : DigitRun 10 cs v k) (tail : List Char) :
    sign (cs ++ tail) = (false, cs ++ tail) := by
  obtain ⟨c, d, hc, hd⟩ := head?_of_digitRun h
  apply sign_eq
  rw [List.head?_append, hc]
  intro _ hmem
  cases hmem
  exact no_sign_of_digit (by decide) hd

theorem readExponent_eq {es : List Char} {y : Int} (h : Exponent es x)
    (hread : ReadExponent es y ebase) : y = x ∧ ebase = 10 := by
  have hmark : ∀ {mark tail}, mark.toLower = 'e' → ReadExponent (mark :: tail) y ebase →
      ebase = 10 ∧ ∃ ds, Digits.read 10 false {} (sign tail).2 = (ds, []) ∧
        y = if (sign tail).1 then -(ds.value : Int) else ds.value := by
    rintro mark tail he (⟨hnil, _⟩ | ⟨rest, ds, hbase, hds, _, hy⟩)
    · cases hnil
    · simp only [exponentBase?, he, Option.some.injEq, Prod.mk.injEq] at hbase
      obtain ⟨rfl, rfl⟩ := hbase
      exact ⟨rfl, ds, hds, hy⟩
  have hvalue : ∀ {cs v k ds}, DigitRun 10 cs v k → Digits.read 10 false {} cs = (ds, []) →
      ds.value = v := by
    intro cs v k ds hrun hds
    rw [read_digitRun (by decide) hrun] at hds
    cases hds
    simp [extended]
  cases h with
  | none =>
    rcases hread with ⟨_, hy, hbase⟩ | ⟨_, _, hbase, _⟩
    · exact ⟨hy, hbase⟩
    · cases hbase
  | plain he hrun =>
    obtain ⟨hbase, ds, hds, hy⟩ := hmark he hread
    have hsign := sign_of_digitRun hrun []
    rw [List.append_nil] at hsign
    rw [hsign] at hds hy
    rw [hvalue hrun hds] at hy
    exact ⟨hy, hbase⟩
  | plus he hrun | minus he hrun =>
    obtain ⟨hbase, ds, hds, hy⟩ := hmark he hread
    rw [← hvalue hrun hds]
    exact ⟨hy, hbase⟩

theorem base_le_of_mark {mark : Char} (h : (mark.toLower, base) ∈ marks) : base ≤ 16 := by
  have hall : ∀ p ∈ marks, p.2 ≤ 16 := by decide
  exact hall _ h

theorem scaled_of_no_point (h : ds.point = none) : scaled ds base 0 10 = ds.value := by
  simp [scaled, h]

theorem readExponent_nil (h : ReadExponent [] x ebase) : x = 0 ∧ ebase = 10 :=
  readExponent_eq .none h

/-- An unsigned number of the grammar is read as its value. -/
theorem scaled_of_unsigned (h : Unsigned cs v) (hread : unsigned? true cs = some (ds, base, rest))
    (hexponent : ReadExponent rest x ebase) : scaled ds base x ebase = v := by
  cases h with
  | decimal hm he =>
    obtain ⟨ds', hds', hq⟩ := unsigned?_mantissa hm (stops_of_exponent he)
    rw [hds'] at hread
    cases hread
    obtain ⟨rfl, rfl⟩ := readExponent_eq he hexponent
    rw [scaled_ten, hq]
  | marked hmarked =>
    obtain @⟨mark, b, tail, w, k, hmark, hrun⟩ := hmarked
    have hb := base_le_of_mark hmark
    obtain ⟨rfl, hds, _⟩ := unsigned?_marked (baseOf?_iff.mpr hmark) hread
    rw [read_digitRun hb hrun] at hds
    cases hds
    obtain ⟨rfl, rfl⟩ := readExponent_nil hexponent
    rw [scaled_of_no_point rfl]
    simp [extended]

/-- A number without a sign does not begin with one. -/
theorem sign_append_of_unsigned (h : Unsigned cs v) (tail : List Char) :
    sign (cs ++ tail) = (false, cs ++ tail) := by
  have hwhole : ∀ {ws w}, Whole ws w → ∀ tail, sign (ws ++ tail) = (false, ws ++ tail) := by
    intro ws w hw tail
    obtain ⟨_, hrun⟩ := exists_run_of_whole hw
    exact sign_of_digitRun hrun tail
  cases h with
  | decimal hm he =>
    cases hm with
    | whole hw => simpa using hwhole hw _
    | point hw => simpa using hwhole hw _
    | fraction hw hfs => simpa using hwhole hw _
    | leading hfs => rfl
  | marked hmarked =>
    obtain ⟨_, _⟩ := hmarked
    rfl

theorem sign_of_unsigned (h : Unsigned cs v) : sign cs = (false, cs) := by
  simpa using sign_append_of_unsigned h []

/-- A signed number of the grammar is read as its value, if it is read. -/
theorem eq_of_signed {w : Rat} (h : Signed cs v) (hread : decimal? cs = some w) : v = w := by
  obtain ⟨ds, base, rest, x, ebase, hunsigned, hexponent, rfl⟩ := decimal?_eq_some hread
  cases h with
  | plain h =>
    rw [sign_of_unsigned h] at hunsigned ⊢
    rw [scaled_of_unsigned h hunsigned hexponent]
    simp
  | plus h =>
    rw [← scaled_of_unsigned h hunsigned hexponent]
    simp [sign]
  | minus h =>
    rw [← scaled_of_unsigned h hunsigned hexponent]
    simp [sign]

/-! ### A literal is portable -/

theorem isRunChar_iff (hbase : base ≤ 16) {c : Char} :
    IsRunChar base c ↔ inRun base c = true := by
  unfold IsRunChar
  simp only [digit_iff hbase, inRun_iff]

theorem mem_mantissa {ms : List Char} {q : Rat} (h : Mantissa ms q) {c : Char} (hc : c ∈ ms) :
    inRun 10 c = true ∨ c = '.' := by
  have hten : 10 ≤ 16 := by decide
  have hwhole : ∀ {ws w}, Whole ws w → c ∈ ws → inRun 10 c = true := by
    intro ws w hw hc
    obtain ⟨_, hrun⟩ := exists_run_of_whole hw
    exact inRun_of_digitRun hten hrun c hc
  cases h with
  | whole hw => exact .inl (hwhole hw hc)
  | point hw =>
    rcases List.mem_append.mp hc with hc | hc
    · exact .inl (hwhole hw hc)
    · exact .inr (List.mem_singleton.mp hc)
  | fraction hw hfs =>
    rcases List.mem_append.mp hc with hc | hc
    · exact .inl (hwhole hw hc)
    · exact (List.mem_cons.mp hc).symm.imp_left (inRun_of_digitRun hten hfs c)
  | leading hfs => exact (List.mem_cons.mp hc).symm.imp_left (inRun_of_digitRun hten hfs c)

theorem mem_exponent {es : List Char} (h : Exponent es x) {c : Char} (hc : c ∈ es) :
    inRun 10 c = true ∨ c.toLower = 'e' ∨ c = '+' ∨ c = '-' := by
  have hten : 10 ≤ 16 := by decide
  cases h with
  | none => cases hc
  | plain he hrun =>
    rcases List.mem_cons.mp hc with rfl | hc
    · exact .inr (.inl he)
    · exact .inl (inRun_of_digitRun hten hrun c hc)
  | plus he hrun | minus he hrun =>
    rcases List.mem_cons.mp hc with rfl | hc
    · exact .inr (.inl he)
    · rcases List.mem_cons.mp hc with rfl | hc
      · simp
      · exact .inl (inRun_of_digitRun hten hrun c hc)

/-- Neither a power of two nor the mark of a big integer is part of a number. -/
theorem toLower_ne_of_mem (h : Unsigned cs v) {c l : Char} (hc : c ∈ cs)
    (hl : l = 'p' ∨ l = 'n') : c.toLower ≠ l := by
  cases h with
  | decimal hm he =>
    rcases List.mem_append.mp hc with hc | hc
    · rcases mem_mantissa hm hc with hrun | rfl
      · exact toLower_ne_of_inRun (by decide) hrun hl
      · rcases hl with rfl | rfl <;> decide
    · rcases mem_exponent he hc with hrun | he | rfl | rfl
      · exact toLower_ne_of_inRun (by decide) hrun hl
      · rw [he]
        rcases hl with rfl | rfl <;> decide
      all_goals rcases hl with rfl | rfl <;> decide
  | marked hmarked =>
    obtain @⟨mark, b, tail, w, k, hmark, hrun⟩ := hmarked
    have hletter : ∀ p ∈ marks, p.1 ≠ 'p' ∧ p.1 ≠ 'n' := by decide
    rcases List.mem_cons.mp hc with rfl | hc
    · rcases hl with rfl | rfl <;> decide
    · rcases List.mem_cons.mp hc with rfl | hc
      · rcases hl with rfl | rfl
        · exact (hletter _ hmark).1
        · exact (hletter _ hmark).2
      · exact toLower_ne_of_inRun (base_le_of_mark hmark)
          (inRun_of_digitRun (base_le_of_mark hmark) hrun c hc) hl

theorem portable_of_unsigned (h : Unsigned cs v) : Portable cs := by
  have hpower : ∀ c ∈ cs, c.toLower ≠ 'p' := fun c hc => toLower_ne_of_mem h hc (.inl rfl)
  cases h with
  | @decimal ms es q x hm he =>
    have hes := stops_of_exponent he
    refine ⟨fun c rest heq => ?_, hpower, fun mark b rest heq hmark => ?_⟩
    · rw [isRunChar_iff (by decide), Bool.not_eq_true]
      rcases after_zero hm heq with rfl | hc
      · rfl
      · exact (hes c hc).1
    · have hnone := unmarked_of_mantissa hm hes mark rest heq
      rw [baseOf?_iff.mpr hmark] at hnone
      cases hnone
  | marked hmarked =>
    obtain @⟨mark, b, tail, w, k, hmark, hrun⟩ := hmarked
    have hb := base_le_of_mark hmark
    refine ⟨fun c rest heq => ?_, hpower, fun mark' b' rest heq hmark' => ?_⟩
    · obtain ⟨rfl, -⟩ := List.cons.inj (List.cons.inj heq).2
      have hletter : ∀ p ∈ marks, ∀ d < 10, p.1 ≠ '_' ∧ p.1 ≠ Nat.digitChar d := by decide
      rintro (rfl | ⟨d, hlt, hd⟩)
      · exact (hletter _ hmark 0 (by decide)).1 rfl
      · exact (hletter _ hmark d hlt).2 hd
    · obtain ⟨rfl, rfl⟩ := List.cons.inj (List.cons.inj heq).2
      have hbase : b = b' := by
        have h := baseOf?_iff.mpr hmark
        rw [baseOf?_iff.mpr hmark'] at h
        exact (Option.some.inj h).symm
      subst hbase
      refine ⟨?_, fun c hc => (isRunChar_iff hb).mpr (inRun_of_digitRun hb hrun c hc)⟩
      obtain ⟨c, d, hc, hd⟩ := head?_of_digitRun hrun
      rw [hc]
      intro heq
      cases heq
      exact nomatch ((digit_iff hb).mp hd).2

/-! ### What is portable is a literal -/

/-- With no zero before another digit, digits are a whole number. -/
theorem whole_of_digitRun {ws tail : List Char} {w k : Nat} (hrun : DigitRun 10 ws w k)
    (hzero : ∀ c rest, ws ++ tail = '0' :: c :: rest → ¬ IsRunChar 10 c) : Whole ws w := by
  have hten : 10 ≤ 16 := by decide
  by_cases hhead : ws.head? = some '0'
  · obtain ⟨rest, rfl⟩ := List.head?_eq_some_iff.mp hhead
    cases rest with
    | nil =>
      have hread := congrArg Digits.value (takeAll_of_digitRun hten hrun {})
      have hzero : (takeAll 10 {} ['0']).value = 0 := rfl
      have hvalue : w = 0 := by simpa [extended, hzero] using hread.symm
      subst hvalue
      exact .zero
    | cons c rest =>
      have hc := inRun_of_digitRun hten hrun c (by simp)
      exact absurd ((isRunChar_iff hten).mpr hc) (hzero c _ rfl)
  · exact .digits hrun hhead

theorem mantissa_of_read (hzero : ∀ c rest, cs = '0' :: c :: rest → ¬ IsRunChar 10 c)
    (hread : Digits.read 10 true {} cs = (ds, rest)) (hcounts : Counts ds) :
    ∃ ms, cs = ms ++ rest ∧ Mantissa ms (fixed ds) := by
  have hten : 10 ≤ 16 := by decide
  have hempty : ¬ Counts {} := fun h => h.1 rfl
  obtain ⟨ws, hws, ⟨rfl, rfl⟩ | ⟨fs, rfl, hfs, rfl⟩⟩ := read_open rfl hread
  · rcases digitRun_of_separated hten hws rfl hcounts.2 with rfl | ⟨w, k, hrun, heq⟩
    · exact absurd hcounts hempty
    · refine ⟨ws, rfl, ?_⟩
      rw [heq, fixed_of_no_point rfl]
      simpa [extended] using Mantissa.whole (whole_of_digitRun hrun hzero)
  · have hsep : (takeAll 10 {} ws).separated = true := by
      by_contra hnot
      rw [Bool.not_eq_true] at hnot
      have hmis : (takeAll 10 {} ws).mark.misplaced = true := by
        rw [misplaced_mark, hnot]
        rfl
      have hall : (takeAll 10 (takeAll 10 {} ws).mark fs).misplaced = true :=
        takeAll_misplaced hmis
      have hcount := hcounts.2
      simp [Digits.separated, hall] at hcount
    have hmark : (takeAll 10 {} ws).mark.before = .other := rfl
    have hbehind := digitRun_of_separated hten hfs hmark hcounts.2
    rcases digitRun_of_separated hten hws rfl hsep with rfl | ⟨w, k, hrun, heq⟩
    · rcases hbehind with rfl | ⟨f, k', hrun', heq'⟩
      · exact absurd rfl hcounts.1
      · refine ⟨'.' :: fs, rfl, ?_⟩
        rw [heq', fixed_behind_point]
        simpa [takeAll] using Mantissa.leading hrun'
    · have hwhole := whole_of_digitRun hrun hzero
      rcases hbehind with rfl | ⟨f, k', hrun', heq'⟩
      · refine ⟨ws ++ ['.'], by simp, ?_⟩
        have hfixed : fixed (takeAll 10 (takeAll 10 {} ws).mark []) = w := by
          rw [heq]
          exact fixed_mark.trans (by simp [extended])
        rw [hfixed]
        exact .point hwhole
      · refine ⟨ws ++ '.' :: fs, by simp, ?_⟩
        rw [heq', fixed_behind_point, heq]
        simpa [extended] using Mantissa.fraction hwhole hrun'

/-- An exponent that is read is one of ten, unless it is one of two. -/
theorem exponent_of_read (hpower : ∀ c ∈ cs, c.toLower ≠ 'p') (h : ReadExponent cs x ebase) :
    Exponent cs x ∧ ebase = 10 := by
  have hten : 10 ≤ 16 := by decide
  rcases h with ⟨rfl, rfl, hbase⟩ | ⟨tail, es, hbase, hread, hcounts, rfl⟩
  · exact ⟨.none, hbase⟩
  · cases cs with
    | nil => cases hbase
    | cons mark rest =>
      obtain ⟨he, rfl, rfl⟩ : mark.toLower = 'e' ∧ 10 = ebase ∧ rest = tail := by
        unfold exponentBase? at hbase
        dsimp only at hbase
        split at hbase
        · rename_i he
          cases hbase
          exact ⟨he, rfl, rfl⟩
        · rename_i hp
          exact absurd hp (hpower mark List.mem_cons_self)
        · cases hbase
      have hclosed : false = true → ({} : Digits).point ≠ none := by simp
      obtain ⟨ws, hws, hall, rfl⟩ := read_closed hclosed hread
      rw [List.append_nil] at hws
      obtain rfl | ⟨v, k, hrun, heq⟩ := digitRun_of_separated hten hall rfl hcounts.2
      · exact absurd rfl hcounts.1
      · have hvalue : (takeAll 10 {} ws).value = v := by simp [heq, extended]
        refine ⟨?_, rfl⟩
        rw [hvalue]
        unfold sign at hws ⊢
        split at hws
        · subst hws
          exact .minus he hrun
        · subst hws
          exact .plus he hrun
        · subst hws
          exact .plain he hrun

/-- A separator may come first behind a mark. Where none does, digits are read as ever. -/
theorem takeAll_marked (h : cs.head? ≠ some '_') (hne : cs ≠ []) :
    takeAll base { before := .digit } cs = takeAll base {} cs := by
  obtain ⟨c, cs, rfl⟩ := List.exists_cons_of_ne_nil hne
  have hc : c ≠ '_' := by simpa using h
  have htake : take base { before := .digit } c = take base {} c := by
    simp [take, hc, Digits.push]
  rw [takeAll, List.foldl_cons, htake]
  rfl

/-- A portable number that is read is one of the grammar, with the value it is read as. -/
theorem unsigned_of_portable (h : Portable cs) (hread : unsigned? true cs = some (ds, base, rest))
    (hexponent : ReadExponent rest x ebase) : Unsigned cs (scaled ds base x ebase) := by
  by_cases hmark : Unmarked cs
  · rw [unsigned?_unmarked hmark] at hread
    generalize hdigits : Digits.read 10 true {} cs = read at hread
    obtain ⟨hcounts, hds⟩ := Option.ite_none_left_eq_some.mp hread
    cases hds
    obtain ⟨ms, rfl, hm⟩ := mantissa_of_read h.zero hdigits (not_refused_iff.mp hcounts)
    obtain ⟨he, rfl⟩ :=
      exponent_of_read (fun c hc => h.power c (List.mem_append_right ms hc)) hexponent
    rw [scaled_ten]
    exact .decimal hm he
  · unfold Unmarked at hmark
    push Not at hmark
    obtain ⟨mark, tail, rfl, hb⟩ := hmark
    obtain ⟨b, hb⟩ := Option.ne_none_iff_exists'.mp hb
    have hletter := baseOf?_iff.mp hb
    have hle := base_le_of_mark hletter
    obtain ⟨hfirst, hall⟩ := h.marked mark b tail rfl hletter
    have hchars : ∀ c ∈ tail, inRun b c = true := fun c hc => (isRunChar_iff hle).mp (hall c hc)
    obtain ⟨rfl, hds, hcounts⟩ := unsigned?_marked hb hread
    rw [read_run hchars] at hds
    cases hds
    obtain ⟨rfl, rfl⟩ := readExponent_nil hexponent
    have hne : tail ≠ [] := by
      rintro rfl
      exact hcounts.1 rfl
    rw [takeAll_marked hfirst hne] at hcounts ⊢
    obtain rfl | ⟨w, k, hrun, heq⟩ := digitRun_of_separated hle hchars rfl hcounts.2
    · exact absurd rfl hne
    · rw [heq, scaled_of_no_point rfl]
      simpa [extended] using Unsigned.marked (.intro hletter hrun)

/-- A portable number is a literal, with a sign or without. -/
theorem signed_of_portable (h : Portable (sign cs).2) (hread : decimal? cs = some v) :
    Signed cs v := by
  obtain ⟨ds, base, rest, x, ebase, hunsigned, hexponent, rfl⟩ := decimal?_eq_some hread
  have hnumber := unsigned_of_portable h hunsigned hexponent
  unfold sign at hnumber ⊢
  split at hnumber
  · simpa using Signed.minus hnumber
  · simpa using Signed.plus hnumber
  · simpa using Signed.plain hnumber

theorem portable_of_signed (h : Signed cs v) : Portable (sign cs).2 := by
  cases h with
  | plain h =>
    rw [sign_of_unsigned h]
    exact portable_of_unsigned h
  | plus h | minus h => exact portable_of_unsigned h

end Numbers

/-! ### Big integers -/

section Big
variable {cs : List Char} {v : Rat}

theorem number_of_big {k : Nat} (h : Big cs k) : ∃ us, cs = us ++ ['n'] ∧ Unsigned us k := by
  cases h with
  | @whole us _ hw =>
    have hnumber := Unsigned.decimal (Mantissa.whole hw) .none
    rw [List.append_nil, zpow_zero, mul_one] at hnumber
    exact ⟨us, rfl, hnumber⟩
  | marked hm => exact ⟨_, rfl, .marked hm⟩

/-- Digits are read up to the mark of a big integer. -/
theorem rest_of_big {k base : Nat} {ds : Digits} {rest : List Char} (h : Big cs k)
    (hread : unsigned? true cs = some (ds, base, rest)) : rest = ['n'] := by
  cases h with
  | whole hw =>
    have hstops : Stops ['n'] := by
      intro c hc
      cases hc
      exact ⟨rfl, by decide, rfl⟩
    obtain ⟨_, hds, _⟩ := unsigned?_mantissa (.whole hw) hstops
    rw [hds] at hread
    cases hread
    rfl
  | marked hm =>
    obtain @⟨mark, b, tail, w, k, hmark, hrun⟩ := hm
    have hb := base_le_of_mark hmark
    have hstop : ∀ c ∈ ['n'].head?, inRun b c = false := by
      intro c hc
      cases hc
      rw [← Bool.not_eq_true]
      intro hin
      exact toLower_ne_of_inRun hb hin (.inr rfl) rfl
    rw [List.cons_append, List.cons_append] at hread
    obtain ⟨rfl, hds, _⟩ := unsigned?_marked (baseOf?_iff.mpr hmark) hread
    rw [read_append_digitRun hb hrun, read_stop hstop (by simp)] at hds
    cases hds
    rfl

/-- A big integer is never read back from its text. -/
theorem decimal?_big {k : Nat} (h : Big cs k) :
    decimal? cs = none ∧ decimal? ('-' :: cs) = none := by
  have hnone : ∀ {text}, (sign text).2 = cs → decimal? text = none := by
    intro text hsign
    by_contra hsome
    obtain ⟨v, hv⟩ := Option.ne_none_iff_exists'.mp hsome
    obtain ⟨ds, base, rest, x, ebase, hunsigned, hexponent, -⟩ := decimal?_eq_some hv
    rw [hsign] at hunsigned
    rw [rest_of_big h hunsigned] at hexponent
    rcases hexponent with ⟨hnil, _⟩ | ⟨_, _, hbase, _⟩
    · cases hnil
    · cases hbase
  obtain ⟨us, rfl, hu⟩ := number_of_big h
  refine ⟨hnone ?_, hnone rfl⟩
  rw [sign_append_of_unsigned hu]

/-- What is read as a number is a literal of that number, or none. -/
theorem literal_iff_of_read {w : Rat} (hread : decimal? cs = some w) :
    Literal cs v ↔ v = w ∧ Portable (sign cs).2 := by
  constructor
  · intro h
    cases h with
    | number hs => exact ⟨eq_of_signed hs hread, portable_of_signed hs⟩
    | big hb =>
      rw [(decimal?_big hb).1] at hread
      cases hread
    | minusBig hb =>
      rw [(decimal?_big hb).2] at hread
      cases hread
  · rintro ⟨rfl, h⟩
    exact .number (signed_of_portable h hread)

/-- Before the mark of a big integer stands a number of the same value. -/
theorem signed_of_literal (h : Literal (cs ++ ['n']) v) : Signed cs v := by
  generalize htext : cs ++ ['n'] = text at h
  have hmem : 'n' ∈ text := by simp [← htext]
  have hlast : ∀ {us k}, Unsigned us k → 'n' ∉ us := fun hu hn =>
    toLower_ne_of_mem hu hn (.inr rfl) rfl
  cases h with
  | number hs =>
    cases hs with
    | plain hu => exact absurd hmem (hlast hu)
    | plus hu | minus hu => exact absurd (List.mem_of_ne_of_mem (by decide) hmem) (hlast hu)
  | big hb =>
    obtain ⟨us, rfl, hu⟩ := number_of_big hb
    obtain ⟨rfl, _⟩ := List.append_inj' htext rfl
    exact .plain hu
  | minusBig hb =>
    obtain ⟨us, rfl, hu⟩ := number_of_big hb
    obtain ⟨rfl, _⟩ := List.append_inj' (htext.trans (List.cons_append ..).symm) rfl
    exact .minus hu

theorem isDigit_digitChar {d : Nat} (hd : d < 10) : IsDigit 10 (Nat.digitChar d) d := by
  have hall : ∀ d < 10, (Nat.digitChar d).toLower = Nat.digitChar d := by decide
  exact ⟨hd, hall d hd⟩

/-- The digits of a positive number do not begin with a zero. -/
theorem digitRun_toDigits {m : Nat} (hm : 0 < m) :
    (∃ k, DigitRun 10 (Nat.toDigits 10 m) m k) ∧ (Nat.toDigits 10 m).head? ≠ some '0' := by
  induction m using Nat.strong_induction_on with
  | _ m ih =>
    rcases Nat.lt_or_ge m 10 with hlt | hge
    · have hzero : ∀ d < 10, 0 < d → Nat.digitChar d ≠ '0' := by decide
      have hrun := DigitRun.one (isDigit_digitChar hlt)
      rw [Nat.toDigits_of_lt_base hlt]
      exact ⟨⟨1, hrun⟩, by simpa using hzero m hlt hm⟩
    · obtain ⟨⟨k, hrun⟩, hhead⟩ := ih (m / 10) (by omega) (by omega)
      have hnext := DigitRun.next hrun (isDigit_digitChar (Nat.mod_lt m (by decide)))
      rw [Nat.div_add_mod' m 10] at hnext
      obtain ⟨c, _, hc, _⟩ := head?_of_digitRun hrun
      rw [Nat.toDigits_of_base_le (by decide) hge]
      refine ⟨⟨_, hnext⟩, ?_⟩
      rwa [List.head?_append, hc, Option.some_or, ← hc]

theorem whole_toDigits (m : Nat) : Whole (Nat.toDigits 10 m) m := by
  rcases Nat.eq_zero_or_pos m with rfl | hpos
  · exact .zero
  · obtain ⟨⟨_, hrun⟩, hhead⟩ := digitRun_toDigits hpos
    exact .digits hrun hhead

/-- The digits of an integer under its sign have its value. -/
theorem decimal?_integer (z : Int) :
    decimal? (signed (decide (z < 0)) (Nat.toDigits 10 z.natAbs)) = some z := by
  have hread := parse?_ofInt z
  rw [parse?, ofInt, ofInt_eq, chars?_ofChars] at hread
  simpa [valueOf?_of_no_slash (slash_not_mem_signed _ _), Option.bind_eq_some_iff] using hread

/-- An integer with the mark of a big one is a literal of that integer only. -/
theorem literal_marked_iff (z : Int) :
    Literal (signed (decide (z < 0)) (Nat.toDigits 10 z.natAbs) ++ ['n']) v ↔ v = z := by
  constructor
  · intro h
    exact eq_of_signed (signed_of_literal h) (decimal?_integer z)
  · rintro rfl
    have hbig : Big (Nat.toDigits 10 z.natAbs ++ ['n']) z.natAbs := .whole (whole_toDigits _)
    by_cases hneg : z < 0
    · have hvalue : -(z.natAbs : Rat) = z := by
        rw [← Int.cast_natCast, Int.ofNat_natAbs_of_nonpos hneg.le, Int.cast_neg, neg_neg]
      rw [← hvalue, decide_eq_true hneg]
      exact .minusBig hbig
    · have hvalue : (z.natAbs : Rat) = z := by
        rw [← Int.cast_natCast, Int.natAbs_of_nonneg (Int.not_lt.mp hneg)]
      rw [← hvalue, decide_eq_false hneg]
      exact .big hbig

end Big

end Number

/-! ### The text of a number -/

/-- A text that is a literal of module code with its exact value. -/
def IsLiteral (t : Text) (v : Rat) : Prop :=
  ∃ cs, t = Text.ofChars cs ∧ NumericLiteral.Literal cs v

/-- A text that is portable but for its sign. -/
def IsPortable (t : Text) : Prop :=
  ∃ cs, t = Text.ofChars cs ∧ NumericLiteral.Portable (Number.sign cs).2

theorem isLiteral_ofChars {cs : List Char} {v : Rat} :
    IsLiteral (Text.ofChars cs) v ↔ NumericLiteral.Literal cs v := by
  constructor
  · rintro ⟨ds, heq, h⟩
    rwa [ofChars_injective heq]
  · exact fun h => ⟨cs, rfl, h⟩

theorem isPortable_ofChars {cs : List Char} :
    IsPortable (Text.ofChars cs) ↔ NumericLiteral.Portable (Number.sign cs).2 := by
  constructor
  · rintro ⟨ds, heq, h⟩
    rwa [ofChars_injective heq]
  · exact fun h => ⟨cs, rfl, h⟩

theorem Number.literal_of_isInt {n : Number} (h : n.isInt = true) :
    n.literal true = Text.ofInt n.value.num ++ "n" := by
  simp [Number.literal, Number.intText?, h]

theorem Number.literal_of_not_big {n : Number} {big : Bool} (h : ¬ (big = true ∧ n.isInt = true)) :
    n.literal big = n.text := by
  cases big with
  | false => rfl
  | true =>
    have hint : n.isInt = false := by simpa using h
    simp [Number.literal, Number.intText?, hint]

/-- What was read without a fraction bar. -/
theorem Number.decimal?_of_parse? {t : Text} {n : Number} (h : Number.parse? t = some n)
    (hslash : Rune.char '/' ∉ t) :
    ∃ cs, t = Text.ofChars cs ∧ n.text = t ∧ Number.decimal? cs = some n.value := by
  obtain ⟨cs, hcs, h⟩ := Option.bind_eq_some_iff.mp h
  obtain ⟨v, hv, h⟩ := Option.bind_eq_some_iff.mp h
  cases h
  obtain rfl := eq_ofChars_of_chars? hcs
  have hbar : '/' ∉ cs := fun hc => hslash (List.mem_map_of_mem hc)
  rw [Number.valueOf?_of_no_slash hbar] at hv
  exact ⟨cs, rfl, rfl, hv⟩

/-- A number that was read without a fraction bar is a literal exactly when it is a big integer
or its text is portable, and a literal of no value but its own. -/
theorem Number.isLiteral_literal_iff {t : Text} {n : Number} (h : Number.parse? t = some n)
    (hslash : Rune.char '/' ∉ t) (big : Bool) (v : Rat) :
    IsLiteral (n.literal big) v ↔
      v = n.value ∧ ((big = true ∧ n.isInt = true) ∨ IsPortable t) := by
  obtain ⟨cs, rfl, htext, hread⟩ := Number.decimal?_of_parse? h hslash
  by_cases hbig : big = true ∧ n.isInt = true
  · obtain ⟨rfl, hint⟩ := hbig
    have hvalue : (n.value.num : Rat) = n.value :=
      Rat.coe_int_num_of_den_eq_one (by simpa [Number.isInt] using hint)
    have hmarked : Text.ofInt n.value.num ++ "n" = Text.ofChars (Number.signed
        (decide (n.value.num < 0)) (Nat.toDigits 10 n.value.num.natAbs) ++ ['n']) := by
      rw [Number.ofInt_eq]
      simp [Text.ofChars]
      rfl
    rw [Number.literal_of_isInt hint, hmarked, isLiteral_ofChars, Number.literal_marked_iff, hvalue]
    simp [hint]
  · rw [Number.literal_of_not_big hbig, htext, isLiteral_ofChars,
      Number.literal_iff_of_read hread, isPortable_ofChars]
    simp [hbig]

/-- A literal with a sign, a separator, a point and an exponent, and a big integer that was
written in another base. -/
theorem isLiteral_literal_grouped :
    (Number.parse? "-1_000.25E+2" = some ⟨-100025, "-1_000.25E+2"⟩ ∧
      Rune.char '/' ∉ ("-1_000.25E+2" : Text) ∧ IsLiteral "-1_000.25E+2" (-100025)) ∧
    Number.parse? "0X1_f" = some ⟨31, "0X1_f"⟩ ∧ Rune.char '/' ∉ ("0X1_f" : Text) ∧
      IsLiteral "31n" 31 := by
  have hdecimal : Number.parse? "-1_000.25E+2" = some ⟨-100025, "-1_000.25E+2"⟩ := by
    decide +kernel
  have hmarked : Number.parse? "0X1_f" = some ⟨31, "0X1_f"⟩ := by decide +kernel
  have hbar : Rune.char '/' ∉ ("-1_000.25E+2" : Text) := by decide
  have hbar' : Rune.char '/' ∉ ("0X1_f" : Text) := by decide
  have hportable : IsPortable "-1_000.25E+2" := by
    refine ⟨"-1_000.25E+2".toList, rfl, ?_, ?_, ?_⟩
    · intro c rest heq
      cases heq
    · have hall : (Number.sign "-1_000.25E+2".toList).2.all (·.toLower != 'p') = true := by decide
      exact fun c hc => bne_iff_ne.mp (List.all_eq_true.mp hall c hc)
    · intro mark base rest heq
      cases heq
  exact ⟨⟨hdecimal, hbar, (Number.isLiteral_literal_iff hdecimal hbar false _).mpr
    ⟨rfl, .inr hportable⟩⟩, hmarked, hbar', (Number.isLiteral_literal_iff hmarked hbar' true _).mpr
    ⟨rfl, .inl ⟨rfl, by decide +kernel⟩⟩⟩

/-- A zero before other digits is read as nothing, and written down where it is no literal. -/
theorem leadingZero_not_isLiteral :
    Number.parse? "010" = some ⟨10, "010"⟩ ∧ Rune.char '/' ∉ ("010" : Text) ∧
      ∀ v, ¬ IsLiteral ((⟨10, "010"⟩ : Number).literal false) v := by
  have hread : Number.decimal? ['0', '1', '0'] = some 10 := by decide +kernel
  refine ⟨by decide +kernel, by decide, fun v h => ?_⟩
  have hportable := ((Number.literal_iff_of_read hread).mp (isLiteral_ofChars.mp h)).2
  exact hportable.zero '1' ['0'] rfl (.inr ⟨1, by decide, by decide⟩)

end SchemaLoom

import Mathlib.Data.List.Induction
import SchemaLoom.Expr.Constraint
import SchemaLoom.Proofs.StringLiterals

/-!
# Regular expression literals

A pattern is written between slashes, with a backslash before each slash of its own that has
none. What a scanner takes for a regular expression literal is given by a grammar: a body of
single characters, of escapes and of classes in brackets, none of which holds the end of a
line. The grammar is unambiguous, so where a literal ends depends on nothing behind it.

A pattern becomes one literal exactly when no line ends in it and every class in it is
closed. Both are asked of the pattern only, and nothing changes them on the way: a class that
is left open goes on behind the last slash, and an end of a line cuts the literal off.
-/

namespace SchemaLoom

set_option autoImplicit false

namespace RegexLiteral

/-! ### The grammar -/

/-- What may stand between the brackets of a class. -/
inductive ClassBody : List Char → Prop
  | nil : ClassBody []
  | char {c : Char} {cs : List Char} (hbreak : isLineTerminator c = false) (hescape : c ≠ '\\')
      (hclose : c ≠ ']') : ClassBody cs → ClassBody (c :: cs)
  | escape {c : Char} {cs : List Char} (hbreak : isLineTerminator c = false) :
      ClassBody cs → ClassBody ('\\' :: c :: cs)

/-- What may stand between the slashes of a literal, behind its first character. -/
inductive Body : List Char → Prop
  | nil : Body []
  | char {c : Char} {cs : List Char} (hbreak : isLineTerminator c = false) (hescape : c ≠ '\\')
      (hslash : c ≠ '/') (hopen : c ≠ '[') : Body cs → Body (c :: cs)
  | escape {c : Char} {cs : List Char} (hbreak : isLineTerminator c = false) :
      Body cs → Body ('\\' :: c :: cs)
  | cls {ks cs : List Char} : ClassBody ks → Body cs → Body ('[' :: ks ++ ']' :: cs)

/-- A literal without flags. With nothing between the slashes, or with a star behind the first
one, it would be a comment. -/
def IsLiteral (t : List Char) : Prop :=
  ∃ body, t = '/' :: body ++ ['/'] ∧ body ≠ [] ∧ body.head? ≠ some '*' ∧ Body body

/-- A text begins with a literal and as many flags as there are. -/
structure Scanned (isFlag : Char → Bool) (text literal flags rest : List Char) : Prop where
  whole : text = literal ++ (flags ++ rest)
  literal : IsLiteral literal
  flags : ∀ c ∈ flags, isFlag c = true
  longest : ∀ c ∈ rest.head?, isFlag c = false

/-- Before anything but a flag the text is scanned in one way: as one literal without flags, which
ends where the text does. -/
def IsToken (t : List Char) : Prop :=
  ∀ (isFlag : Char → Bool) (rest : List Char), (∀ c ∈ rest.head?, isFlag c = false) →
    ∀ literal flags rest', Scanned isFlag (t ++ rest) literal flags rest' ↔
      literal = t ∧ flags = [] ∧ rest' = rest

/-! ### Where a literal ends -/

section Unique
variable {cs ds rest rest' : List Char}

theorem ClassBody.unique (hcs : ClassBody cs) (hds : ClassBody ds)
    (h : cs ++ ']' :: rest = ds ++ ']' :: rest') : cs = ds ∧ rest = rest' := by
  induction hcs generalizing ds with
  | nil =>
    cases hds with
    | nil => simpa using h
    | char _ _ hclose => exact absurd (List.cons.inj h).1.symm hclose
    | escape => simp at h
  | char _ hescape hclose _ ih =>
    cases hds with
    | nil => exact absurd (List.cons.inj h).1 hclose
    | char _ _ _ hds =>
      obtain ⟨rfl, htail⟩ := List.cons.inj h
      obtain ⟨rfl, rfl⟩ := ih hds htail
      exact ⟨rfl, rfl⟩
    | escape => exact absurd (List.cons.inj h).1 hescape
  | escape _ _ ih =>
    cases hds with
    | nil => simp at h
    | char _ hescape => exact absurd (List.cons.inj h).1.symm hescape
    | escape _ hds =>
      obtain ⟨rfl, htail⟩ := List.cons.inj (List.cons.inj h).2
      obtain ⟨rfl, rfl⟩ := ih hds htail
      exact ⟨rfl, rfl⟩

theorem Body.unique (hcs : Body cs) (hds : Body ds) (h : cs ++ '/' :: rest = ds ++ '/' :: rest') :
    cs = ds ∧ rest = rest' := by
  induction hcs generalizing ds with
  | nil =>
    cases hds with
    | nil => simpa using h
    | char _ _ hslash => exact absurd (List.cons.inj h).1.symm hslash
    | escape => simp at h
    | cls => simp at h
  | char _ hescape hslash hopen _ ih =>
    cases hds with
    | nil => exact absurd (List.cons.inj h).1 hslash
    | char _ _ _ _ hds =>
      obtain ⟨rfl, htail⟩ := List.cons.inj h
      obtain ⟨rfl, rfl⟩ := ih hds htail
      exact ⟨rfl, rfl⟩
    | escape => exact absurd (List.cons.inj h).1 hescape
    | cls => exact absurd (List.cons.inj h).1 hopen
  | escape _ _ ih =>
    cases hds with
    | nil => simp at h
    | char _ hescape => exact absurd (List.cons.inj h).1.symm hescape
    | escape _ hds =>
      obtain ⟨rfl, htail⟩ := List.cons.inj (List.cons.inj h).2
      obtain ⟨rfl, rfl⟩ := ih hds htail
      exact ⟨rfl, rfl⟩
    | cls => simp at h
  | cls hks _ ih =>
    cases hds with
    | nil => simp at h
    | char _ _ _ hopen => exact absurd (List.cons.inj h).1.symm hopen
    | escape => simp at h
    | cls hks' hds =>
      simp only [List.cons_append, List.append_assoc, List.cons.injEq, true_and] at h
      obtain ⟨rfl, htail⟩ := hks.unique hks' h
      obtain ⟨rfl, rfl⟩ := ih hds htail
      exact ⟨rfl, rfl⟩

theorem IsLiteral.unique (hcs : IsLiteral cs) (hds : IsLiteral ds)
    (h : cs ++ rest = ds ++ rest') : cs = ds ∧ rest = rest' := by
  obtain ⟨body, rfl, _, _, hbody⟩ := hcs
  obtain ⟨body', rfl, _, _, hbody'⟩ := hds
  simp only [List.cons_append, List.append_assoc, List.cons.injEq, true_and, List.nil_append] at h
  obtain ⟨rfl, rfl⟩ := hbody.unique hbody' h
  exact ⟨rfl, rfl⟩

/-- What is a literal is the token that a scanner finds. -/
theorem isToken_iff {t : List Char} : IsToken t ↔ IsLiteral t := by
  constructor
  · intro h
    exact ((h (fun _ => false) [] (by simp) t [] []).mpr ⟨rfl, rfl, rfl⟩).literal
  · intro ht isFlag rest hrest literal flags rest'
    constructor
    · intro h
      obtain ⟨rfl, rfl⟩ := h.literal.unique ht h.whole.symm
      cases flags with
      | nil => exact ⟨rfl, rfl, rfl⟩
      | cons c flags =>
        have hflag := h.flags c List.mem_cons_self
        rw [hrest c (by simp)] at hflag
        cases hflag
    · rintro ⟨rfl, rfl, rfl⟩
      exact ⟨rfl, ht, by simp, hrest⟩

end Unique

/-! ### Patterns -/

/-- Every class that is opened is closed, escapes apart; `inClass` says that one is open already. -/
def closesClasses : Bool → List Char → Bool
  | inClass, [] => !inClass
  | inClass, '\\' :: _ :: cs => closesClasses inClass cs
  | _, '[' :: cs => closesClasses true cs
  | _, ']' :: cs => closesClasses false cs
  | inClass, _ :: cs => closesClasses inClass cs

/-- The last backslashes are not in pairs. -/
def EndsUnpaired (cs : List Char) : Prop := (cs.reverse.takeWhile (· == '\\')).length % 2 = 1

instance (cs : List Char) : Decidable (EndsUnpaired cs) := inferInstanceAs (Decidable (_ = 1))

/-- The second text is the first one with backslashes put in front of some slashes. -/
inductive Slashed : List Char → List Char → Prop
  | nil : Slashed [] []
  | keep (c : Char) {cs ds : List Char} : Slashed cs ds → Slashed (c :: cs) (c :: ds)
  | slash {cs ds : List Char} : Slashed cs ds → Slashed ('/' :: cs) ('\\' :: '/' :: ds)

theorem slashed_escapeSlashes (escaped : Bool) (cs : List Char) :
    Slashed cs (escapeSlashes escaped cs) := by
  induction cs generalizing escaped with
  | nil => cases escaped <;> exact .nil
  | cons c cs ih =>
    cases escaped with
    | true => exact .keep c (ih false)
    | false =>
      rw [escapeSlashes]
      split
      · exact .keep c (ih true)
      · split
        · rename_i hslash
          subst hslash
          exact .slash (ih false)
        · exact .keep c (ih false)

theorem Slashed.subset {cs ds : List Char} (h : Slashed cs ds) : cs ⊆ ds := by
  induction h with
  | nil => exact List.Subset.refl _
  | keep c _ ih => exact List.cons_subset_cons c ih
  | slash _ ih => exact List.subset_cons_of_subset _ (List.cons_subset_cons _ ih)

/-- A text begins as before, or with a backslash. -/
theorem Slashed.head? {cs ds : List Char} (h : Slashed cs ds) :
    ds.head? = cs.head? ∨ ds.head? = some '\\' := by
  cases h with
  | nil => exact .inl rfl
  | keep => exact .inl rfl
  | slash => exact .inr rfl

/-! ### Escapes -/

/-- A backslash that nothing escapes stands at the end. -/
def dangles : Bool → List Char → Bool
  | escaped, [] => escaped
  | true, _ :: cs => dangles false cs
  | false, c :: cs => dangles (c == '\\') cs

theorem dangles_append_singleton (escaped : Bool) (cs : List Char) (c : Char) :
    dangles escaped (cs ++ [c]) = (!dangles escaped cs && c == '\\') := by
  induction cs generalizing escaped with
  | nil => cases escaped <;> simp [dangles]
  | cons d cs ih => cases escaped <;> simp [dangles, ih]

theorem dangles_iff (cs : List Char) : dangles false cs = true ↔ EndsUnpaired cs := by
  induction cs using List.reverseRecOn with
  | nil => simp [dangles, EndsUnpaired]
  | append_singleton cs c ih =>
    rw [dangles_append_singleton, EndsUnpaired, List.reverse_concat, List.takeWhile_cons]
    rw [EndsUnpaired] at ih
    by_cases hc : c = '\\'
    · subst hc
      simp only [beq_self_eq_true, Bool.and_true, if_true, List.length_cons, Bool.not_eq_true',
        ← Bool.not_eq_true, ih]
      omega
    · simp [hc]

/-! ### From patterns to bodies -/

/-- The rest of a body, in a class or not. -/
def Continues (inClass : Bool) (ds : List Char) : Prop :=
  if inClass then ∃ ks es, ds = ks ++ ']' :: es ∧ ClassBody ks ∧ Body es else Body ds

section Continues
variable {inClass : Bool} {c : Char} {ds : List Char}

theorem Continues.escape (hbreak : isLineTerminator c = false) (h : Continues inClass ds) :
    Continues inClass ('\\' :: c :: ds) := by
  cases inClass with
  | false => exact Body.escape hbreak h
  | true =>
    obtain ⟨ks, es, rfl, hks, hes⟩ := h
    exact ⟨_, es, rfl, .escape hbreak hks, hes⟩

theorem Continues.opens (h : Continues true ds) : Continues inClass ('[' :: ds) := by
  obtain ⟨ks, es, rfl, hks, hes⟩ := h
  cases inClass with
  | false => exact Body.cls hks hes
  | true => exact ⟨'[' :: ks, es, rfl, .char rfl (by decide) (by decide) hks, hes⟩

theorem Continues.closes (h : Continues false ds) : Continues inClass (']' :: ds) := by
  cases inClass with
  | false => exact Body.char rfl (by decide) (by decide) (by decide) h
  | true => exact ⟨[], ds, rfl, .nil, h⟩

theorem Continues.char (hbreak : isLineTerminator c = false) (hescape : c ≠ '\\') (hslash : c ≠ '/')
    (hopen : c ≠ '[') (hclose : c ≠ ']') (h : Continues inClass ds) :
    Continues inClass (c :: ds) := by
  cases inClass with
  | false => exact Body.char hbreak hescape hslash hopen h
  | true =>
    obtain ⟨ks, es, rfl, hks, hes⟩ := h
    exact ⟨c :: ks, es, rfl, .char hbreak hescape hclose hks, hes⟩

end Continues

/-- A pattern on one line that closes its classes and does not end in the middle of an escape is
written as the rest of a body. -/
theorem continues_escapeSlashes {inClass : Bool} {cs : List Char}
    (hbreak : ∀ c ∈ cs, isLineTerminator c = false) (hclosed : closesClasses inClass cs = true)
    (hdangles : dangles false cs = false) : Continues inClass (escapeSlashes false cs) := by
  fun_induction closesClasses inClass cs with
  | case1 inClass =>
    cases inClass with
    | false => exact Body.nil
    | true => cases hclosed
  | case2 inClass c cs ih =>
    simp only [List.forall_mem_cons] at hbreak
    exact (ih hbreak.2.2 hclosed hdangles).escape hbreak.2.1
  | case3 inClass cs ih =>
    simp only [List.forall_mem_cons] at hbreak
    exact (ih hbreak.2 hclosed hdangles).opens
  | case4 inClass cs ih =>
    simp only [List.forall_mem_cons] at hbreak
    exact (ih hbreak.2 hclosed hdangles).closes
  | case5 inClass c cs hescape hopen hclose ih =>
    simp only [List.forall_mem_cons] at hbreak
    -- a backslash with nothing behind it is all that an escape can be cut off to
    have hne : c ≠ '\\' := by
      rintro rfl
      cases cs with
      | nil => cases hdangles
      | cons d cs => exact hescape d cs rfl rfl
    have hrest : dangles false cs = false := by
      rwa [dangles, beq_eq_false_iff_ne.mpr hne] at hdangles
    have hcontinues := ih hbreak.2 hclosed hrest
    rw [escapeSlashes, if_neg hne]
    split
    · exact hcontinues.escape hbreak.1
    · rename_i hslash
      exact hcontinues.char hbreak.1 hne hslash hopen hclose

/-! ### From bodies to patterns -/

theorem ClassBody.closes {ks : List Char} (h : ClassBody ks) (cs : List Char) :
    closesClasses true (ks ++ ']' :: cs) = closesClasses false cs := by
  induction h with
  | nil => rfl
  | escape _ _ ih => exact ih
  | @char c ks _ hescape hclose _ ih =>
    rw [List.cons_append]
    by_cases hopen : c = '['
    · subst hopen
      exact ih
    · rw [closesClasses.eq_5 _ _ _ (fun _ _ hc _ => hescape hc) hopen hclose]
      exact ih

theorem Body.closes {cs : List Char} (h : Body cs) : closesClasses false cs = true := by
  induction h with
  | nil => rfl
  | escape _ _ ih => exact ih
  | cls hks _ ih =>
    rw [List.cons_append, closesClasses, hks.closes, ih]
  | @char c cs _ hescape _ hopen _ ih =>
    by_cases hclose : c = ']'
    · subst hclose
      exact ih
    · rw [closesClasses.eq_5 _ _ _ (fun _ _ hc _ => hescape hc) hopen hclose]
      exact ih

theorem ClassBody.on_line {ks : List Char} (h : ClassBody ks) :
    ∀ c ∈ ks, isLineTerminator c = false := by
  induction h with
  | nil => simp
  | char hbreak _ _ _ ih => exact List.forall_mem_cons.mpr ⟨hbreak, ih⟩
  | escape hbreak _ ih =>
    exact List.forall_mem_cons.mpr ⟨rfl, List.forall_mem_cons.mpr ⟨hbreak, ih⟩⟩

theorem Body.on_line {cs : List Char} (h : Body cs) : ∀ c ∈ cs, isLineTerminator c = false := by
  induction h with
  | nil => simp
  | char hbreak _ _ _ _ ih => exact List.forall_mem_cons.mpr ⟨hbreak, ih⟩
  | escape hbreak _ ih =>
    exact List.forall_mem_cons.mpr ⟨rfl, List.forall_mem_cons.mpr ⟨hbreak, ih⟩⟩
  | cls hks _ ih =>
    rw [List.cons_append, List.forall_mem_cons, List.forall_mem_append, List.forall_mem_cons]
    exact ⟨rfl, hks.on_line, rfl, ih⟩

/-- Escaping a slash opens and closes nothing. -/
theorem closesClasses_escapeSlashes (inClass : Bool) (cs : List Char) :
    closesClasses inClass (escapeSlashes false cs) = closesClasses inClass cs := by
  fun_induction closesClasses inClass cs with
  | case1 inClass => rfl
  | case2 inClass c cs ih => exact ih
  | case3 inClass cs ih => exact ih
  | case4 inClass cs ih => exact ih
  | case5 inClass c cs hescape hopen hclose ih =>
    rw [escapeSlashes]
    split
    · rename_i hc
      cases cs with
      | nil =>
        subst hc
        rfl
      | cons d cs => exact absurd rfl (hescape d cs hc)
    · rename_i hne
      split
      · exact ih
      · rw [closesClasses.eq_5 _ _ _ (fun _ _ hc _ => hne hc) hopen hclose]
        exact ih

theorem isLiteral_regexLiteral_iff {pattern : List Char} (hne : pattern ≠ [])
    (hstar : pattern.head? ≠ some '*') (hpaired : ¬ EndsUnpaired pattern) :
    IsLiteral (regexLiteral pattern) ↔
      (∀ c ∈ pattern, isLineTerminator c = false) ∧ closesClasses false pattern = true := by
  constructor
  · rintro ⟨body, heq, _, _, hbody⟩
    obtain rfl : escapeSlashes false pattern = body :=
      List.append_cancel_right (List.cons.inj heq).2
    refine ⟨fun c hc => hbody.on_line c ((slashed_escapeSlashes false pattern).subset hc), ?_⟩
    rw [← closesClasses_escapeSlashes]
    exact hbody.closes
  · rintro ⟨hbreak, hclosed⟩
    have hslashed := slashed_escapeSlashes false pattern
    have hdangles : dangles false pattern = false := by rwa [← Bool.not_eq_true, dangles_iff]
    refine ⟨_, rfl, ?_, ?_, continues_escapeSlashes hbreak hclosed hdangles⟩
    · exact List.ne_nil_of_mem (hslashed.subset (List.head_mem hne))
    · rcases hslashed.head? with hhead | hhead
      · rwa [hhead]
      · rw [hhead]
        decide

end RegexLiteral

/-- A pattern is written as one literal, if no line ends in it and no class is left open in it, and
only then. In any case it is written between slashes as it is, but for backslashes in front of
slashes. -/
theorem regexLiteral_isToken_iff {pattern : List Char} (hne : pattern ≠ [])
    (hstar : pattern.head? ≠ some '*') (hpaired : ¬ RegexLiteral.EndsUnpaired pattern) :
    (RegexLiteral.IsToken (regexLiteral pattern) ↔
      (∀ c ∈ pattern, isLineTerminator c = false) ∧
        RegexLiteral.closesClasses false pattern = true) ∧
    ∃ body, regexLiteral pattern = '/' :: body ++ ['/'] ∧ RegexLiteral.Slashed pattern body :=
  ⟨RegexLiteral.isToken_iff.trans (RegexLiteral.isLiteral_regexLiteral_iff hne hstar hpaired),
    _, rfl, RegexLiteral.slashed_escapeSlashes false pattern⟩

/-- Slashes in a class, behind a backslash and on their own. -/
def pathPattern : List Char := "^[^/\\]]+\\/\\\\/x$".toList

theorem regexLiteral_isToken_pathPattern :
    pathPattern ≠ [] ∧ pathPattern.head? ≠ some '*' ∧ ¬ RegexLiteral.EndsUnpaired pathPattern ∧
    regexLiteral pathPattern = "/^[^\\/\\]]+\\/\\\\\\/x$/".toList ∧
    RegexLiteral.IsToken (regexLiteral pathPattern) ∧
    ∃ body, regexLiteral pathPattern = '/' :: body ++ ['/'] ∧
      RegexLiteral.Slashed pathPattern body := by
  have hne : pathPattern ≠ [] := by decide
  have hstar : pathPattern.head? ≠ some '*' := by decide
  have hpaired : ¬ RegexLiteral.EndsUnpaired pathPattern := by decide
  obtain ⟨htoken, hslashed⟩ := regexLiteral_isToken_iff hne hstar hpaired
  have hline : ∀ c ∈ pathPattern, isLineTerminator c = false := by
    have hall : pathPattern.all (!isLineTerminator ·) = true := by decide
    exact fun c hc => Bool.not_eq_eq_eq_not.mp (List.all_eq_true.mp hall c hc)
  exact ⟨hne, hstar, hpaired, by decide, htoken.mpr ⟨hline, by decide⟩, hslashed⟩

/-- A pattern with an end of a line in it is no literal. -/
theorem brokenPattern_not_isToken :
    ['a', '\n', 'b'] ≠ [] ∧ ['a', '\n', 'b'].head? ≠ some '*' ∧
    ¬ RegexLiteral.EndsUnpaired ['a', '\n', 'b'] ∧
    ¬ RegexLiteral.IsToken (regexLiteral ['a', '\n', 'b']) := by
  have hpaired : ¬ RegexLiteral.EndsUnpaired ['a', '\n', 'b'] := by decide
  refine ⟨by decide, by decide, hpaired, ?_⟩
  rw [RegexLiteral.isToken_iff,
    RegexLiteral.isLiteral_regexLiteral_iff (by decide) (by decide) hpaired]
  exact fun h => absurd (h.1 '\n' (by simp)) (by decide)

end SchemaLoom

import SchemaLoom.Proofs.JsonPieces
import SchemaLoom.Proofs.StringLiterals
import SchemaLoom.Yaml.Scalar

/-!
# Strings and words of JSON as YAML scalars

Between brackets the reader of YAML scalars ends a string or a word of JSON where the
reader of JSON does. A string keeps its text unless there are blanks or line ends in it as
they are; some escapes of JSON are refused.
-/

namespace SchemaLoom.Yaml

set_option autoImplicit false

open Json (skipGaps skipGaps_cons_of_gap skipGaps_cons_of_not_gap stringBody? joinUnits)

/-! ### Gaps -/

/-- The blanks and line ends of YAML. -/
def gaps : List Char := [' ', '\t', '\n', '\r', '\u0085', '\u2028', '\u2029']

theorem mem_gaps {c : Char} (h : isGap c = true) : c ∈ gaps := by
  simp only [isGap, isSpace, isBreak, Bool.or_eq_true, beq_iff_eq] at h
  simpa [gaps, or_assoc] using h

theorem ne_of_test {p : Char → Bool} {c d : Char} (hc : p c = true) (hd : p d = false) :
    c ≠ d := by
  rintro rfl
  exact Bool.false_ne_true (hd.symm.trans hc)

/-- What no gap satisfies rules out that a character is one. -/
theorem isGap_eq_false {p : Char → Bool} {c : Char} (hc : p c = true)
    (hgaps : gaps.all (! p ·) = true) : isGap c = false := by
  refine Bool.eq_false_iff.mpr fun h => ?_
  simpa [hc] using List.all_eq_true.mp hgaps c (mem_gaps h)

theorem isGap_of_json {c : Char} (h : Json.isGap c = true) : isGap c = true := by
  simp only [Json.isGap, Bool.or_eq_true, beq_iff_eq] at h
  rcases h with ((rfl | rfl) | rfl) | rfl <;> rfl

theorem json_of_isSpace {c : Char} (h : isSpace c = true) : Json.isGap c = true := by
  simp only [isSpace, Bool.or_eq_true, beq_iff_eq] at h
  rcases h with rfl | rfl <;> rfl

theorem skipGaps_dropWhile {p : Char → Bool} (hp : ∀ c, p c = true → Json.isGap c = true)
    (cs : List Char) : skipGaps (cs.dropWhile p) = skipGaps cs := by
  induction cs with
  | nil => rfl
  | cons c cs ih =>
    rw [List.dropWhile_cons]
    split
    · next hc => rw [ih, skipGaps_cons_of_gap (hp c hc)]
    · rfl

theorem drop_length_takeWhile (p : Char → Bool) (cs : List Char) :
    cs.drop (cs.takeWhile p).length = cs.dropWhile p := by
  have h : (cs.takeWhile p ++ cs.dropWhile p).drop (cs.takeWhile p).length = cs.dropWhile p :=
    List.drop_left
  rwa [List.takeWhile_append_dropWhile] at h

/-- Behind the gaps of JSON stands neither a gap of YAML nor a comment. -/
def Visible (cs : List Char) : Prop := ∀ c ∈ (skipGaps cs).head?, c ≠ '#' ∧ isGap c = false

namespace Visible
variable {cs cs' : List Char} {c : Char}

theorem congr (h : Visible cs) (heq : skipGaps cs' = skipGaps cs) : Visible cs' := by
  unfold Visible
  rwa [heq]

theorem not_comment (h : Visible ('#' :: cs)) : False := by
  rw [Visible, skipGaps_cons_of_not_gap (by decide)] at h
  exact (h '#' rfl).1 rfl

theorem json_of_gap (h : Visible (c :: cs)) (hgap : isGap c = true) : Json.isGap c = true := by
  by_contra hjson
  rw [Visible, skipGaps_cons_of_not_gap (Bool.eq_false_iff.mpr hjson)] at h
  exact Bool.eq_false_iff.mp (h c rfl).2 hgap

theorem of_follows (h : Json.Follows cs) : Visible cs := by
  obtain ⟨c, rest, hcs, hc⟩ := h
  intro d hd
  rw [hcs] at hd
  cases hd
  rcases hc with rfl | hc
  · exact ⟨by decide, rfl⟩
  · unfold Json.Piece.closing? at hc
    split at hc
    · exact ⟨by decide, rfl⟩
    · exact ⟨by decide, rfl⟩
    · exact absurd rfl hc

end Visible

namespace Cursor
variable {c : Cursor} {ch : Char} {rest : List Char}

@[simp] theorem forward_rest (c : Cursor) (n : Nat) : (c.forward n).rest = c.rest.drop n := rfl

theorem skipWhile_rest (p : Char → Bool) (c : Cursor) :
    (c.skipWhile p).rest = c.rest.dropWhile p :=
  drop_length_takeWhile p c.rest

/-- Two characters make one line break only if the first is a carriage return. -/
theorem newline_rest (hrest : c.rest = ch :: rest) (hbreak : isBreak ch = true) :
    c.newline.rest = rest ∨ ch = '\r' ∧ rest = '\n' :: c.newline.rest := by
  unfold newline
  split
  · next r heq =>
    cases heq.symm.trans hrest
    exact .inr ⟨rfl, rfl⟩
  · next b r _ heq =>
    cases heq.symm.trans hrest
    rw [if_pos hbreak]
    exact .inl rfl
  · next heq => cases heq.symm.trans hrest

theorem skipGaps_newline (hrest : c.rest = ch :: rest) (hbreak : isBreak ch = true)
    (hjson : Json.isGap ch = true) : skipGaps c.newline.rest = skipGaps c.rest := by
  rw [hrest, skipGaps_cons_of_gap hjson]
  rcases newline_rest hrest hbreak with h | ⟨-, h⟩
  · rw [h]
  · rw [h, skipGaps_cons_of_gap rfl]

end Cursor

theorem isGap_iff {c : Char} : isGap c = true ↔ isSpace c = true ∨ isBreak c = true := by
  rw [isGap, Bool.or_eq_true]

/-- A gap of a scalar ends inside the gap of JSON, or with it. -/
theorem Gap.skipGaps_read {limit fuel : Nat} {g g' : Gap} {c c' : Cursor} (hv : Visible c.rest)
    (h : Gap.read limit fuel g c = some (g', c')) : skipGaps c'.rest = skipGaps c.rest := by
  induction fuel generalizing g c with
  | zero =>
    cases h
    rfl
  | succ fuel ih =>
    have step {g₁ : Gap} {c₁ : Cursor} (hc₁ : skipGaps c₁.rest = skipGaps c.rest)
        (h : Gap.read limit fuel g₁ c₁ = some (g', c')) :
        skipGaps c'.rest = skipGaps c.rest :=
      (ih (hv.congr hc₁) h).trans hc₁
    rw [Gap.read] at h
    split at h
    · cases h
      rfl
    · next ch hch =>
      obtain ⟨rest, hrest⟩ := List.head?_eq_some_iff.mp hch
      rw [hrest] at hv
      have hforward (hspace : isSpace ch = true) :
          skipGaps (c.forward 1).rest = skipGaps c.rest := by
        rw [Cursor.forward_rest, hrest, List.drop_one, List.tail_cons,
          skipGaps_cons_of_gap (hv.json_of_gap (isGap_iff.mpr (.inl hspace)))]
      split at h
      · next hspace =>
        split at h
        · cases h
        · split at h
          · exact step (hforward hspace) h
          · exact step (hforward hspace) h
      · split at h
        · next hbreak =>
          exact step (Cursor.skipGaps_newline hrest hbreak
            (hv.json_of_gap (isGap_iff.mpr (.inr hbreak)))) h
        · cases h
          rfl

/-! ### Words -/

theorem plainWord_of_follows {cs : List Char} (h : Json.Follows cs) : plainWord true cs = [] := by
  obtain ⟨c, rest, hcs, hc⟩ := h
  cases cs with
  | nil => rfl
  | cons d cs =>
    rw [plainWord, if_pos]
    cases hd : Json.isGap d with
    | true => rw [isGap_of_json hd, Bool.true_or, Bool.true_or]
    | false =>
      rw [skipGaps_cons_of_not_gap hd] at hcs
      cases hcs
      rcases hc with rfl | hc
      · simp [isFlowStop]
      · unfold Json.Piece.closing? at hc
        split at hc
        · simp [isFlowStop]
        · simp [isFlowStop]
        · exact absurd rfl hc

theorem continues_of_isWordChar {c : Char} (h : Json.isWordChar c = true) :
    isGap c = false ∧ c ≠ ':' ∧ isFlowStop c = false := by
  have hne (d : Char) (hd : Json.isWordChar d = false) : c ≠ d := ne_of_test h hd
  refine ⟨isGap_eq_false h rfl, hne _ rfl, ?_⟩
  simp [isFlowStop, hne ',' rfl, hne '?' rfl, hne '[' rfl, hne ']' rfl, hne '\x7b' rfl,
    hne '\x7d' rfl]

theorem plainWord_word {w rest : List Char} (hw : ∀ c ∈ w, Json.isWordChar c = true)
    (hrest : Json.Follows rest) : plainWord true (w ++ rest) = w := by
  induction w with
  | nil => exact plainWord_of_follows hrest
  | cons c w ih =>
    rw [List.forall_mem_cons] at hw
    obtain ⟨hgap, hcolon, hstop⟩ := continues_of_isWordChar hw.1
    rw [List.cons_append, plainWord, if_neg (by simp [hgap, hcolon, hstop]), ih hw.2]

/-- Where no word stands, a plain scalar ends. -/
theorem rest_of_readPlain_nil {indent fuel : Nat} {text text' : List Char} {gap : Gap}
    {broken : Bool} {c c' : Cursor} (hword : plainWord true c.rest = [])
    (h : readPlain true indent fuel text gap c = some (text', broken, c')) :
    c'.rest = c.rest := by
  cases fuel with
  | zero =>
    cases h
    rfl
  | succ fuel =>
    rw [readPlain] at h
    split at h
    · cases h
      rfl
    · simp only [hword, List.isEmpty_nil, Bool.true_or, if_true] at h
      cases h
      rfl

/-- A plain scalar ends with the word, or in the gap behind it. -/
theorem skipGaps_plainScalar? {indent : Nat} {c c' : Cursor} {w rest : List Char} {text : String}
    {broken : Bool} (hc : c.rest = w ++ rest) (hw : ∀ d ∈ w, Json.isWordChar d = true)
    (hrest : Json.Follows rest) (hstart : c.atDocumentMarker = false ∧ c.peek? ≠ some '#')
    (h : plainScalar? true indent c = some (text, broken, c')) :
    skipGaps c'.rest = skipGaps rest := by
  obtain ⟨⟨text', broken', c₁⟩, h, heq⟩ := Option.bind_eq_some_iff.mp h
  cases heq
  have hword : plainWord true c.rest = w := by rw [hc, plainWord_word hw hrest]
  have hnext : (c.forward w.length).rest = rest := by
    rw [Cursor.forward_rest, hc, List.drop_left]
  rw [readPlain, if_neg (by simpa using hstart), hword] at h
  dsimp only at h
  split at h
  · cases h
    rw [hnext]
  · obtain ⟨⟨gap, next⟩, hgap, h⟩ := Option.bind_eq_some_iff.mp h
    have hskip : skipGaps next.rest = skipGaps rest := by
      have hread := Gap.skipGaps_read (hnext ▸ Visible.of_follows hrest) hgap
      rwa [hnext] at hread
    have hfollows : Json.Follows next.rest := by
      obtain ⟨d, r, hd, hstop⟩ := hrest
      exact ⟨d, r, hskip.trans hd, hstop⟩
    rw [if_neg nofun] at h
    rw [rest_of_readPlain_nil (plainWord_of_follows hfollows) h, hskip]

/-! ### Strings -/

theorem stringBody?_char {c : Char} (hquote : c ≠ '"') (hslash : c ≠ '\\') (cs : List Char) :
    stringBody? (c :: cs) = if c.toNat < 0x20 then none
      else (stringBody? cs).map fun (units, rest) => (c.toNat :: units, rest) := by
  rw [stringBody?]
  · cases stringBody? cs <;> rfl
  · exact hquote
  · exact fun _ _ _ _ _ h _ => hslash h
  · exact fun _ _ h _ => hslash h

theorem stringBody?_escaped {e : Char} (he : e ≠ 'u') (cs : List Char) :
    stringBody? ('\\' :: e :: cs) = (Json.escaped? e).bind fun x =>
      (stringBody? cs).map fun (units, rest) => (x.toNat :: units, rest) := by
  rw [stringBody?]
  · cases Json.escaped? e <;> cases stringBody? cs <;> rfl
  · exact fun _ _ _ _ _ h _ => he h

/-- Behind the characters `xs` of a string there is as much left to read for JSON at `cs'`. -/
def Past (cs xs cs' : List Char) : Prop :=
  ∀ units rest, stringBody? cs = some (units, rest) →
    ∃ units', units = xs.map Char.toNat ++ units' ∧ stringBody? cs' = some (units', rest)

namespace Past
variable {cs cs' cs'' xs ys : List Char}

theorem refl (cs : List Char) : Past cs [] cs := fun units _ h => ⟨units, rfl, h⟩

theorem trans (h : Past cs xs cs') (h' : Past cs' ys cs'') : Past cs (xs ++ ys) cs'' := by
  intro units rest hunits
  obtain ⟨units', rfl, hunits'⟩ := h units rest hunits
  obtain ⟨units'', rfl, hunits''⟩ := h' units' rest hunits'
  exact ⟨units'', by rw [List.map_append, List.append_assoc], hunits''⟩

/-- A character that stands for itself. -/
theorem char {c : Char} (hquote : c ≠ '"') (hslash : c ≠ '\\') : Past (c :: cs) [c] cs := by
  intro units rest h
  rw [stringBody?_char hquote hslash] at h
  obtain ⟨_, h⟩ := Option.ite_none_left_eq_some.mp h
  obtain ⟨⟨units', rest'⟩, hunits, h⟩ := Option.map_eq_some_iff.mp h
  cases h
  exact ⟨units', rfl, hunits⟩

theorem quote {units : List Nat} {rest : List Char}
    (h : stringBody? ('"' :: cs) = some (units, rest)) : units = [] ∧ rest = cs := by
  rw [stringBody?] at h
  cases h
  exact ⟨rfl, rfl⟩

end Past

/-- The escapes of one letter mean the same where both readers know them. -/
theorem escape?_of_escaped? {e x : Char} {r : Char ⊕ Nat} (hjson : Json.escaped? e = some x)
    (h : escape? e = some r) : r = .inl x := by
  unfold Json.escaped? at hjson
  split at hjson
  all_goals cases hjson <;> cases h <;> rfl

theorem stringBody?_escaped_break {e : Char} (he : isBreak e = true) (cs : List Char) :
    stringBody? ('\\' :: e :: cs) = none := by
  simp only [isBreak, Bool.or_eq_true, beq_iff_eq] at he
  rcases he with (((rfl | rfl) | rfl) | rfl) | rfl
  all_goals exact stringBody?_escaped (by decide) cs

namespace Past
variable {cs : List Char} {e : Char}

theorem escaped {x : Char} (he : escape? e = some (.inl x)) : Past ('\\' :: e :: cs) [x] cs := by
  intro units rest h
  have hu : e ≠ 'u' := by
    rintro rfl
    cases he
  rw [stringBody?_escaped hu] at h
  obtain ⟨y, hy, h⟩ := Option.bind_eq_some_iff.mp h
  obtain ⟨⟨units', rest'⟩, hunits, h⟩ := Option.map_eq_some_iff.mp h
  cases h
  cases escape?_of_escaped? hy he
  exact ⟨units', rfl, hunits⟩

/-- A character given by its number. Only four digits are known to both readers. -/
theorem coded {n v : Nat} {digits : List Char} (he : escape? e = some (.inr n))
    (hv : hexNumber? n digits = some v) (hvalid : v.isValidChar) :
    Past ('\\' :: e :: digits) [Char.ofNat v] (digits.drop n) := by
  by_cases hu : e = 'u'
  · subst hu
    cases he
    match digits, hv with
    | a :: b :: c :: d :: rest, hv =>
      intro units rest' h
      rw [stringBody?] at h
      obtain ⟨na, ha, h⟩ := Option.bind_eq_some_iff.mp h
      obtain ⟨nb, hb, h⟩ := Option.bind_eq_some_iff.mp h
      obtain ⟨nc, hc, h⟩ := Option.bind_eq_some_iff.mp h
      obtain ⟨nd, hd, h⟩ := Option.bind_eq_some_iff.mp h
      obtain ⟨⟨units', rest''⟩, hunits, h⟩ := Option.bind_eq_some_iff.mp h
      cases h
      have hsame : Json.hexValue? = hexValue? := rfl
      rw [hsame] at ha hb hc hd
      have hvalue : v = ((na * 16 + nb) * 16 + nc) * 16 + nd := by
        simpa [hexNumber?, ha, hb, hc, hd] using hv.symm
      have hchar : (Char.ofNat v).toNat = v := by
        rw [Char.ofNat, dif_pos hvalid]
        rfl
      exact ⟨units', by rw [List.map_singleton, hchar, hvalue]; rfl, hunits⟩
    | [], hv | [_], hv | [_, _], hv | [_, _, _], hv => cases hv
  · refine fun units rest h => ?_
    rw [stringBody?_escaped hu] at h
    obtain ⟨x, hx, _⟩ := Option.bind_eq_some_iff.mp h
    cases escape?_of_escaped? hx he

end Past

section Reading
variable {units : List Nat} {rest : List Char}

/-- A part of a quoted scalar without gaps has no escaped line end if it is a part of a string. -/
theorem past_quotedWord {fuel : Nat} {acc w : List Char} {escaped : Bool} {c c' : Cursor}
    (h : quotedWord false fuel acc c = some (w, escaped, c'))
    (hs : stringBody? c.rest = some (units, rest)) :
    ∃ xs units', units = xs.map Char.toNat ++ units' ∧
      stringBody? c'.rest = some (units', rest) ∧ w = acc.reverse ++ xs ∧ escaped = false := by
  induction fuel generalizing acc c units with
  | zero =>
    cases h
    exact ⟨[], units, rfl, hs, (List.append_nil _).symm, rfl⟩
  | succ fuel ih =>
    have step {x : Char} {n : Nat} (hpast : Past c.rest [x] (c.rest.drop n))
        (h : quotedWord false fuel (x :: acc) (c.forward n) = some (w, escaped, c')) :
        ∃ xs units', units = xs.map Char.toNat ++ units' ∧
          stringBody? c'.rest = some (units', rest) ∧ w = acc.reverse ++ xs ∧ escaped = false := by
      obtain ⟨units₁, rfl, hs₁⟩ := hpast units rest hs
      obtain ⟨xs, units', rfl, hs', rfl, hescaped⟩ := ih h hs₁
      exact ⟨x :: xs, units', rfl, hs', by simp, hescaped⟩
    rw [quotedWord] at h
    split at h
    · cases h
      exact ⟨[], units, rfl, hs, (List.append_nil _).symm, rfl⟩
    · next ch chars hchars =>
      split at h
      · cases h
        exact ⟨[], units, rfl, hs, (List.append_nil _).symm, rfl⟩
      · rw [if_neg nofun] at h
        split at h
        · cases h
          exact ⟨[], units, rfl, hs, (List.append_nil _).symm, rfl⟩
        · next hquote =>
          split at h
          · next hslash =>
            obtain rfl := beq_iff_eq.mp hslash
            split at h
            · cases h
            · next e digits =>
              split at h
              · next hbreak =>
                rw [hchars, stringBody?_escaped_break hbreak] at hs
                cases hs
              · split at h
                · cases h
                · next x hx => exact step (hchars ▸ Past.escaped hx) h
                · next n hn =>
                  obtain ⟨v, hv, h⟩ := Option.bind_eq_some_iff.mp h
                  obtain ⟨hscalar, h⟩ := Option.ite_none_left_eq_some.mp h
                  have hvalid : v.isValidChar := by
                    simp only [Bool.or_eq_true, Bool.and_eq_true, decide_eq_true_eq] at hscalar
                    simp only [Nat.isValidChar]
                    omega
                  have hpast := Past.coded hn hv hvalid
                  rw [Nat.add_comm] at h
                  exact step (hchars ▸ hpast) h
          · next hslash =>
            exact step (hchars ▸ Past.char (by simpa using hquote) (by simpa using hslash)) h

theorem past_gap {limit fuel : Nat} {g g' : Gap} {c c' : Cursor}
    (h : Gap.read limit fuel g c = some (g', c'))
    (hs : stringBody? c.rest = some (units, rest)) :
    ∃ xs units', units = xs.map Char.toNat ++ units' ∧
      stringBody? c'.rest = some (units', rest) ∧ (∀ x ∈ xs, isGap x = true) ∧
      (xs = [] → g' = g) := by
  induction fuel generalizing g c units with
  | zero =>
    cases h
    exact ⟨[], units, rfl, hs, nofun, fun _ => rfl⟩
  | succ fuel ih =>
    rw [Gap.read] at h
    split at h
    · cases h
      exact ⟨[], units, rfl, hs, nofun, fun _ => rfl⟩
    · next ch hch =>
      obtain ⟨chars, hchars⟩ := List.head?_eq_some_iff.mp hch
      have step {g₁ : Gap} {c₁ : Cursor} (hgap : isGap ch = true) (hc₁ : c₁.rest = chars)
          (h : Gap.read limit fuel g₁ c₁ = some (g', c')) :
          ∃ xs units', units = xs.map Char.toNat ++ units' ∧
            stringBody? c'.rest = some (units', rest) ∧ (∀ x ∈ xs, isGap x = true) ∧
            (xs = [] → g' = g) := by
        have hpast : Past (ch :: chars) [ch] chars :=
          .char (ne_of_test hgap rfl) (ne_of_test hgap rfl)
        obtain ⟨units₁, rfl, hs₁⟩ := hpast units rest (hchars ▸ hs)
        obtain ⟨xs, units', rfl, hs', hxs, _⟩ := ih h (hc₁ ▸ hs₁)
        exact ⟨ch :: xs, units', rfl, hs', List.forall_mem_cons.mpr ⟨hgap, hxs⟩, nofun⟩
      have hforward : (c.forward 1).rest = chars := by rw [Cursor.forward_rest, hchars]; rfl
      split at h
      · next hspace =>
        have hgap := isGap_iff.mpr (.inl hspace)
        split at h
        · cases h
        · split at h
          · exact step hgap hforward h
          · exact step hgap hforward h
      · split at h
        · next hbreak =>
          refine step (isGap_iff.mpr (.inr hbreak)) ?_ h
          rcases Cursor.newline_rest hchars hbreak with heq | ⟨hreturn, _⟩
          · exact heq
          · -- a carriage return cannot stand in a string as it is
            rw [hchars, hreturn, stringBody?_char (by decide) (by decide)] at hs
            cases hs
        · cases h
          exact ⟨[], units, rfl, hs, nofun, fun _ => rfl⟩

/-- One round of reading a quoted scalar: to the closing quote, or to the end of a gap. -/
theorem readQuoted_cases {fuel : Nat} {text text' : List Char} {c c' : Cursor}
    (h : readQuoted false (fuel + 1) text c = some (text', c')) : ∃ word escaped c₁,
      quotedWord false (c.rest.length + 1) [] c = some (word, escaped, c₁) ∧
        ((∃ chars, c₁.rest = '"' :: chars ∧ text' = text ++ word ∧ c' = c₁.forward 1) ∨
          ∃ gap c₂, Gap.read 0 (c₁.rest.length + 1)
              (if escaped then { breaks := [[]], broken := true } else {}) c₁ = some (gap, c₂) ∧
            readQuoted false fuel (text ++ word ++ gap.fold) c₂ = some (text', c')) := by
  rw [readQuoted] at h
  obtain ⟨_, h⟩ := Option.ite_none_left_eq_some.mp h
  obtain ⟨⟨word, escaped, c₁⟩, hword, h⟩ := Option.bind_eq_some_iff.mp h
  refine ⟨word, escaped, c₁, hword, ?_⟩
  have goesOn (h : ((Gap.read 0 (c₁.rest.length + 1)
      (if escaped then { breaks := [[]], broken := true } else {}) c₁).bind fun p =>
        readQuoted false fuel (text ++ word ++ p.1.fold) p.2) = some (text', c')) :
      ∃ gap c₂, Gap.read 0 (c₁.rest.length + 1)
          (if escaped then { breaks := [[]], broken := true } else {}) c₁ = some (gap, c₂) ∧
        readQuoted false fuel (text ++ word ++ gap.fold) c₂ = some (text', c') := by
    obtain ⟨⟨gap, c₂⟩, hgap, h⟩ := Option.bind_eq_some_iff.mp h
    exact ⟨gap, c₂, hgap, h⟩
  cases hpeek : c₁.peek? with
  | none =>
    simp only [hpeek] at h
    exact .inr (goesOn h)
  | some ch =>
    obtain ⟨chars, hchars⟩ := List.head?_eq_some_iff.mp hpeek
    simp only [hpeek, Bool.false_eq_true, if_false, beq_iff_eq] at h
    split at h
    · next hquote =>
      cases h
      exact .inl ⟨chars, hquote ▸ hchars, rfl, rfl⟩
    · exact .inr (goesOn h)

theorem past_readQuoted {fuel : Nat} {text text' : List Char} {c c' : Cursor}
    (h : readQuoted false fuel text c = some (text', c'))
    (hs : stringBody? c.rest = some (units, rest)) :
    ∃ xs, units = xs.map Char.toNat ∧ c'.rest = rest ∧
      ((∀ x ∈ xs, isGap x = false) → text' = text ++ xs) := by
  induction fuel generalizing text c units with
  | zero => cases h
  | succ fuel ih =>
    obtain ⟨word, escaped, c₁, hword, hround⟩ := readQuoted_cases h
    obtain ⟨xs, units₁, rfl, hs₁, hxs, rfl⟩ := past_quotedWord hword hs
    rw [List.reverse_nil, List.nil_append] at hxs
    subst hxs
    obtain ⟨chars, hchars, rfl, rfl⟩ | ⟨gap, c₂, hgap, h⟩ := hround
    · rw [hchars] at hs₁
      obtain ⟨rfl, rfl⟩ := Past.quote hs₁
      exact ⟨word, List.append_nil _, by rw [Cursor.forward_rest, hchars]; rfl, fun _ => rfl⟩
    · obtain ⟨ys, units₂, rfl, hs₂, hys, hnone⟩ := past_gap hgap hs₁
      obtain ⟨zs, rfl, hrest, htext⟩ := ih h hs₂
      refine ⟨word ++ ys ++ zs, by simp, hrest, fun hplain => ?_⟩
      simp only [List.forall_mem_append] at hplain
      obtain ⟨⟨_, hgapless⟩, hzs⟩ := hplain
      obtain rfl : ys = [] := List.eq_nil_iff_forall_not_mem.mpr fun y hy =>
        absurd (hys y hy) (Bool.eq_false_iff.mp (hgapless y hy))
      rw [htext hzs, hnone rfl]
      simp [Gap.fold]

end Reading

theorem joinUnits_map_toNat (xs : List Char) : joinUnits (xs.map Char.toNat) = xs := by
  induction xs with
  | nil => rfl
  | cons x xs ih =>
    have hvalid : x.toNat < 0xD800 ∨ 0xDFFF < x.toNat ∧ x.toNat < 0x110000 := x.valid
    rw [List.map_cons, joinUnits_cons (by omega), Char.ofNat_toNat, ih]

/-- A quoted scalar ends with the string, and has its text if there is no gap in it. -/
theorem quotedScalar?_string {c c' : Cursor} {body rest : List Char} {s t : String}
    (hc : c.rest = '"' :: body) (hs : Json.string? body = some (s, rest))
    (h : quotedScalar? false c = some (t, c')) :
    c'.rest = rest ∧ ((∀ x ∈ s.toList, isGap x = false) → t = s) := by
  obtain ⟨⟨units, rest'⟩, hunits, hs⟩ := Option.bind_eq_some_iff.mp hs
  cases hs
  obtain ⟨⟨text, c₁⟩, htext, h⟩ := Option.bind_eq_some_iff.mp h
  cases h
  have hbody : (c.forward 1).rest = body := by rw [Cursor.forward_rest, hc]; rfl
  obtain ⟨xs, rfl, hrest, hplain⟩ := past_readQuoted htext (hbody ▸ hunits)
  rw [joinUnits_map_toNat, String.toList_ofList]
  exact ⟨hrest, fun hxs => by rw [hplain hxs, List.nil_append]⟩

end SchemaLoom.Yaml

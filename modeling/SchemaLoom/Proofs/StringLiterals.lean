import Mathlib.Algebra.Group.Nat.Defs
import Mathlib.Data.List.Basic
import SchemaLoom.Json.Parse
import SchemaLoom.Text.Quoted

/-!
# String literals

A quoted text is read back as the text it was written for, whatever stands behind it. The
reader is the one of double-quoted literals in strict code, with every escape there is, not
only those that quoting uses. It yields code units, because an escape may stand for half a
character; the units of a text determine the text.

Nothing is said of texts with stray bytes, which are quoted as something else.
-/

namespace SchemaLoom

set_option autoImplicit false

/-! ### Reading -/

/-- The code units of a code point. -/
def codeUnits (n : Nat) : List Nat :=
  if n < 0x10000 then [n]
  else [0xD800 + (n - 0x10000) / 0x400, 0xDC00 + (n - 0x10000) % 0x400]

/-- The code units of a text. -/
def unitsOf (cs : List Char) : List Nat := cs.flatMap fun c => codeUnits c.toNat

def isLineTerminator (c : Char) : Bool :=
  c == '\n' || c == '\r' || c == '\u2028' || c == '\u2029'

namespace StringLiteral

/-- The number that hexadecimal digits spell. -/
def hexNumber? (ds : List Char) : Option Nat :=
  ds.foldlM (fun n d => (Json.hexValue? d).map (n * 16 + ·)) 0

/-- The code point between braces, behind the opening one. -/
def braced? (cs : List Char) : Option (List Nat × List Char) :=
  match cs.span (· != '\x7d') with
  | (d :: ds, _ :: rest) => do
    let n ← hexNumber? (d :: ds)
    if n ≤ 0x10FFFF then some (codeUnits n, rest) else none
  | _ => none

/-- What a single letter stands for behind a backslash; most stand for themselves. -/
def letterValue (c : Char) : Nat :=
  match c with
  | 'b' => 0x08
  | 't' => 0x09
  | 'n' => 0x0A
  | 'v' => 0x0B
  | 'f' => 0x0C
  | 'r' => 0x0D
  | c => c.toNat

/-- One escape behind its backslash, and the rest. An escaped line end stands for nothing;
of the digits only a zero that no digit follows can be escaped. -/
def escape? : List Char → Option (List Nat × List Char)
  | 'x' :: a :: b :: rest => (hexNumber? [a, b]).map fun n => ([n], rest)
  | 'u' :: '\x7b' :: rest => braced? rest
  | 'u' :: a :: b :: c :: d :: rest => (hexNumber? [a, b, c, d]).map fun n => ([n], rest)
  | '0' :: rest => if (rest.head?.map Char.isDigit).getD false then none else some ([0], rest)
  | '\r' :: '\n' :: rest => some ([], rest)
  | c :: rest =>
    if isLineTerminator c then some ([], rest)
    else if c.isDigit || c == 'x' || c == 'u' then none
    else some (codeUnits (letterValue c), rest)
  | [] => none

/-- The code units up to the closing quote, and the rest behind it. -/
def body? : Nat → List Char → Option (List Nat × List Char)
  | 0, _ => none
  | _ + 1, [] => none
  | _ + 1, '"' :: rest => some ([], rest)
  | fuel + 1, '\\' :: rest =>
    (escape? rest).bind fun e => (body? fuel e.2).map fun r => (e.1 ++ r.1, r.2)
  | fuel + 1, c :: rest =>
    if c = '\n' || c = '\r' then none
    else (body? fuel rest).map fun r => (codeUnits c.toNat ++ r.1, r.2)

/-- A double-quoted literal and the rest behind it. -/
def read? : List Char → Option (List Nat × List Char)
  | '"' :: rest => body? (rest.length + 1) rest
  | _ => none

/-- A quote stands where no backslash escapes it. -/
def hasBareQuote : List Char → Bool
  | [] => false
  | '\\' :: _ :: rest => hasBareQuote rest
  | c :: rest => c == '"' || hasBareQuote rest

/-- A literal is read as a text up to its own end, holds nothing that ends a line or controls,
and no quote but the outer ones that is not escaped. -/
structure Spells (literal text : List Char) : Prop where
  reads : ∀ rest, read? (literal ++ rest) = some (unitsOf text, rest)
  printable : ∀ c ∈ literal, 0x20 ≤ c.toNat ∧ isLineTerminator c = false
  quotes : ∃ body, literal = '"' :: body ++ ['"'] ∧ hasBareQuote body = false

/-! ### Hexadecimal digits -/

theorem hexValue?_hexDigit (n : Nat) : Json.hexValue? (hexDigit n) = some (n % 16) := by
  have hall : ∀ d < 16, Json.hexValue? d.digitChar = some d := by decide
  exact hall _ (Nat.mod_lt n (by decide))

theorem hexNumber?_append (ds : List Char) (d : Char) :
    hexNumber? (ds ++ [d]) =
      (hexNumber? ds).bind fun n => (Json.hexValue? d).map (n * 16 + ·) := by
  simp [hexNumber?, List.foldlM_append]

theorem hexNumber?_hexDigits (width n : Nat) :
    hexNumber? (hexDigits width n) = some (n % 16 ^ width) := by
  induction width generalizing n with
  | zero => simp [hexDigits, hexNumber?, Nat.mod_one]
  | succ width ih =>
    rw [hexDigits, hexNumber?_append, ih, Option.bind_some, hexValue?_hexDigit, Option.map_some,
      Nat.pow_succ', Nat.mod_mul]
    congr 1
    omega

/-- No digit opens a brace, quotes, escapes, ends a line or controls. -/
theorem hexDigit_plain (n : Nat) : hexDigit n ≠ '\x7b' ∧ hexDigit n ≠ '"' ∧ hexDigit n ≠ '\\' ∧
    0x20 ≤ (hexDigit n).toNat ∧ isLineTerminator (hexDigit n) = false := by
  have hall : ∀ d < 16, d.digitChar ≠ '\x7b' ∧ d.digitChar ≠ '"' ∧ d.digitChar ≠ '\\' ∧
      0x20 ≤ d.digitChar.toNat ∧ isLineTerminator d.digitChar = false := by decide
  exact hall _ (Nat.mod_lt n (by decide))

theorem mem_hexDigits {width n : Nat} {c : Char} (h : c ∈ hexDigits width n) :
    ∃ m, c = hexDigit m := by
  induction width generalizing n with
  | zero => cases h
  | succ width ih =>
    rcases List.mem_append.mp h with h | h
    · exact ih h
    · exact ⟨n, List.mem_singleton.mp h⟩

/-! ### One character -/

/-- The ways in which a character is written inside a literal. -/
inductive Written (c : Char) : List Char → Prop
  | plain (hquote : c ≠ '"') (hescape : c ≠ '\\') (hbreak : isLineTerminator c = false)
      (hcontrol : 0x20 ≤ c.toNat) : Written c [c]
  | letter {l : Char} (hl : l ∈ ['"', '\\', 'n', 'r', 't']) (hvalue : letterValue l = c.toNat) :
      Written c ['\\', l]
  | unit (hlt : c.toNat < 0x10000) : Written c ('\\' :: 'u' :: hexDigits 4 c.toNat)

theorem written_quoteChar (c : Char) : Written c (Text.quoteChar c) := by
  unfold Text.quoteChar
  split
  · rename_i hc
    exact .letter (by decide) (by rw [hc]; rfl)
  rename_i hquote
  split
  · rename_i hc
    exact .letter (by decide) (by rw [hc]; rfl)
  rename_i hescape
  split
  · rename_i hc
    exact .letter (by decide) (by rw [hc]; rfl)
  rename_i hfeed
  split
  · rename_i hc
    exact .letter (by decide) (by rw [hc]; rfl)
  rename_i hreturn
  split
  · rename_i hc
    exact .letter (by decide) (by rw [hc]; rfl)
  split
  · rename_i hc
    simp only [Bool.or_eq_true, decide_eq_true_eq] at hc
    refine .unit ?_
    rcases hc with (rfl | rfl) | hc
    · decide
    · decide
    · omega
  · rename_i hc
    simp only [Bool.or_eq_true, decide_eq_true_eq, not_or, Nat.not_lt] at hc
    refine .plain hquote hescape ?_ hc.2
    simp [isLineTerminator, hfeed, hreturn, hc.1]

theorem Written.ne_nil {c : Char} {w : List Char} (h : Written c w) : w ≠ [] := by
  cases h with
  | plain => simp
  | letter => simp
  | unit => simp

theorem body?_plain {c : Char} (hquote : c ≠ '"') (hescape : c ≠ '\\')
    (hbreak : isLineTerminator c = false) (fuel : Nat) (rest : List Char) :
    body? (fuel + 1) (c :: rest) =
      (body? fuel rest).map fun r => (codeUnits c.toNat ++ r.1, r.2) := by
  simp only [isLineTerminator, Bool.or_eq_false_iff, beq_eq_false_iff_ne] at hbreak
  rw [body?.eq_5 _ _ _ hquote hescape]
  simp [hbreak]

/-- An escape is read off whole, whatever stands behind it. -/
theorem Written.escape? {c : Char} {w : List Char} (h : Written c ('\\' :: w))
    (rest : List Char) : StringLiteral.escape? (w ++ rest) = some (codeUnits c.toNat, rest) := by
  generalize hw : '\\' :: w = v at h
  cases h with
  | plain hquote hescape => exact absurd (List.cons.inj hw).1.symm hescape
  | letter hl hvalue =>
    obtain ⟨-, rfl⟩ := List.cons.inj hw
    rw [← hvalue]
    simp only [List.mem_cons, List.not_mem_nil, or_false] at hl
    rcases hl with rfl | rfl | rfl | rfl | rfl <;> rfl
  | unit hlt =>
    obtain ⟨-, rfl⟩ := List.cons.inj hw
    have hnumber := hexNumber?_hexDigits 4 c.toNat
    rw [Nat.mod_eq_of_lt (by simpa using hlt)] at hnumber
    have hunits : codeUnits c.toNat = [c.toNat] := if_pos hlt
    have hbrace := (hexDigit_plain (c.toNat / 16 / 16 / 16)).1
    simp only [hexDigits, List.nil_append, List.cons_append] at hnumber ⊢
    rw [StringLiteral.escape?, hnumber, hunits]
    · rfl
    · exact hbrace

/-- Reading the written form takes it off and yields the units of the character. -/
theorem Written.body? {c : Char} {w : List Char} (h : Written c w) (fuel : Nat)
    (rest : List Char) : StringLiteral.body? (fuel + 1) (w ++ rest) =
      (StringLiteral.body? fuel rest).map fun r => (codeUnits c.toNat ++ r.1, r.2) := by
  cases h with
  | plain hquote hescape hbreak _ => exact body?_plain hquote hescape hbreak fuel rest
  | letter hl hvalue =>
    rw [List.cons_append, StringLiteral.body?, (Written.letter hl hvalue).escape? rest]
    rfl
  | unit hlt =>
    rw [List.cons_append, StringLiteral.body?, (Written.unit hlt).escape? rest]
    rfl

/-- Nothing in a written form ends a line or controls. -/
theorem Written.printable {c : Char} {w : List Char} (h : Written c w) :
    ∀ d ∈ w, 0x20 ≤ d.toNat ∧ isLineTerminator d = false := by
  cases h with
  | plain _ _ hbreak hcontrol => exact List.forall_mem_singleton.mpr ⟨hcontrol, hbreak⟩
  | letter hl =>
    have hall : ∀ l ∈ ['"', '\\', 'n', 'r', 't'], 0x20 ≤ l.toNat ∧ isLineTerminator l = false := by
      simp [isLineTerminator]
    exact List.forall_mem_cons.mpr ⟨by decide, List.forall_mem_singleton.mpr (hall _ hl)⟩
  | unit =>
    refine List.forall_mem_cons.mpr ⟨by decide, List.forall_mem_cons.mpr ⟨by decide, ?_⟩⟩
    intro d hd
    obtain ⟨m, rfl⟩ := mem_hexDigits hd
    exact (hexDigit_plain m).2.2.2

theorem hasBareQuote_append {w : List Char} (h : ∀ d ∈ w, d ≠ '"' ∧ d ≠ '\\')
    (rest : List Char) : hasBareQuote (w ++ rest) = hasBareQuote rest := by
  induction w with
  | nil => rfl
  | cons d w ih =>
    obtain ⟨hquote, hescape⟩ := h d List.mem_cons_self
    rw [List.cons_append, hasBareQuote, ih fun e he => h e (List.mem_cons_of_mem d he)]
    · simp [hquote]
    · exact fun _ _ hd _ => hescape hd

/-- A written form escapes the quote in it and nothing behind it. -/
theorem Written.hasBareQuote {c : Char} {w : List Char} (h : Written c w) (rest : List Char) :
    StringLiteral.hasBareQuote (w ++ rest) = StringLiteral.hasBareQuote rest := by
  cases h with
  | plain hquote hescape =>
    exact hasBareQuote_append (List.forall_mem_singleton.mpr ⟨hquote, hescape⟩) rest
  | letter => rfl
  | unit =>
    refine hasBareQuote_append (w := hexDigits 4 c.toNat) ?_ rest
    intro d hd
    obtain ⟨m, rfl⟩ := mem_hexDigits hd
    exact ⟨(hexDigit_plain m).2.1, (hexDigit_plain m).2.2.1⟩

/-! ### Texts -/

theorem body?_quoted (text rest : List Char) {fuel : Nat} (hfuel : text.length < fuel) :
    body? fuel (text.flatMap Text.quoteChar ++ '"' :: rest) = some (unitsOf text, rest) := by
  induction text generalizing fuel with
  | nil =>
    obtain ⟨fuel, rfl⟩ := Nat.exists_eq_succ_of_ne_zero (Nat.ne_of_gt hfuel)
    rfl
  | cons c text ih =>
    obtain ⟨fuel, rfl⟩ := Nat.exists_eq_succ_of_ne_zero (Nat.ne_of_gt (Nat.zero_lt_of_lt hfuel))
    rw [List.flatMap_cons, List.append_assoc, (written_quoteChar c).body? fuel,
      ih (Nat.lt_of_succ_lt_succ hfuel)]
    rfl

theorem length_le_quoted (text : List Char) :
    text.length ≤ (text.flatMap Text.quoteChar).length := by
  induction text with
  | nil => exact Nat.le_refl 0
  | cons c text ih =>
    have hpos := List.length_pos_iff.mpr (written_quoteChar c).ne_nil
    rw [List.flatMap_cons, List.length_append, List.length_cons]
    omega

theorem hasBareQuote_quoted (text : List Char) :
    hasBareQuote (text.flatMap Text.quoteChar) = false := by
  induction text with
  | nil => rfl
  | cons c text ih => rw [List.flatMap_cons, (written_quoteChar c).hasBareQuote, ih]

theorem spells_quoteChars (text : List Char) : Spells (Text.quoteChars text) text where
  reads := by
    intro rest
    have hlength := length_le_quoted text
    rw [Text.quoteChars, List.cons_append, List.cons_append, List.append_assoc, read?]
    exact body?_quoted text rest (by simp only [List.length_append, List.length_cons]; omega)
  printable := by
    intro c hc
    rcases List.mem_cons.mp hc with rfl | hc
    · decide
    rcases List.mem_append.mp hc with hc | hc
    · obtain ⟨d, _, hc⟩ := List.mem_flatMap.mp hc
      exact (written_quoteChar d).printable c hc
    · obtain rfl := List.mem_singleton.mp hc
      decide
  quotes := ⟨_, rfl, hasBareQuote_quoted text⟩

end StringLiteral

/-! ### Code units -/

theorem joinUnits_cons {n : Nat} (hlow : n < 0xD800 ∨ 0xDFFF < n) (units : List Nat) :
    Json.joinUnits (n :: units) = Char.ofNat n :: Json.joinUnits units := by
  have hhigh : Json.isHighSurrogate n = false := by simp [Json.isHighSurrogate]; omega
  have hlow : Json.isLowSurrogate n = false := by simp [Json.isLowSurrogate]; omega
  cases units with
  | nil => simp [Json.joinUnits, hhigh, hlow]
  | cons m units => simp [Json.joinUnits, hhigh, hlow]

theorem joinUnits_codeUnits (c : Char) (units : List Nat) :
    Json.joinUnits (codeUnits c.toNat ++ units) = c :: Json.joinUnits units := by
  have hvalid : c.toNat < 0xD800 ∨ 0xDFFF < c.toNat ∧ c.toNat < 0x110000 := c.valid
  unfold codeUnits
  split
  · rw [List.singleton_append, joinUnits_cons (by omega), Char.ofNat_toNat]
  · have hhigh : Json.isHighSurrogate (0xD800 + (c.toNat - 0x10000) / 0x400) = true := by
      simp [Json.isHighSurrogate]; omega
    have hlow : Json.isLowSurrogate (0xDC00 + (c.toNat - 0x10000) % 0x400) = true := by
      simp [Json.isLowSurrogate]; omega
    have hsum : 0x10000 + (0xD800 + (c.toNat - 0x10000) / 0x400 - 0xD800) * 0x400 +
        (0xDC00 + (c.toNat - 0x10000) % 0x400 - 0xDC00) = c.toNat := by omega
    rw [List.cons_append, List.cons_append, List.nil_append, Json.joinUnits, hhigh, hlow, hsum,
      Char.ofNat_toNat]
    rfl

theorem joinUnits_unitsOf (text : List Char) : Json.joinUnits (unitsOf text) = text := by
  induction text with
  | nil => rfl
  | cons c text ih => rw [unitsOf, List.flatMap_cons, joinUnits_codeUnits, ← unitsOf, ih]

theorem ofChars_injective : Function.Injective Text.ofChars :=
  List.map_injective_iff.mpr fun _ _ h => Rune.char.inj h

theorem eq_ofChars_of_chars? {t : Text} {cs : List Char} (h : t.chars? = some cs) :
    t = Text.ofChars cs := by
  induction t generalizing cs with
  | nil =>
    cases h
    rfl
  | cons r t ih =>
    rw [Text.chars?, List.mapM_cons] at h
    obtain ⟨c, hc, h⟩ := Option.bind_eq_some_iff.mp h
    obtain ⟨tail, htail, h⟩ := Option.bind_eq_some_iff.mp h
    cases h
    cases r with
    | char d =>
      cases hc
      rw [ih htail]
      rfl
    | stray => cases hc

theorem chars?_ofChars (cs : List Char) : (Text.ofChars cs).chars? = some cs := by
  induction cs with
  | nil => rfl
  | cons c cs ih =>
    simp only [Text.chars?, Text.ofChars, List.map_cons, List.mapM_cons] at ih ⊢
    rw [ih]
    rfl

/-- Every text is written as a literal that spells it, and no two as the same one; the units
that are read make up the text again. -/
theorem quoteLiteral_spells :
    (∀ text, ∃ literal, (Text.ofChars text).quoteLiteral = Text.ofChars literal ∧
      StringLiteral.Spells literal text ∧ Json.joinUnits (unitsOf text) = text) ∧
    Function.Injective fun text => (Text.ofChars text).quoteLiteral := by
  have hquoted (text : List Char) :
      (Text.ofChars text).quoteLiteral = Text.ofChars (Text.quoteChars text) := by
    simp [Text.quoteLiteral, Text.ofChars, Text.toChars, Function.comp_def, Rune.toChar]
  refine ⟨fun text => ⟨_, hquoted text, StringLiteral.spells_quoteChars text,
    joinUnits_unitsOf text⟩, ?_⟩
  intro text other h
  simp only [hquoted] at h
  have hread := (StringLiteral.spells_quoteChars text).reads []
  rw [ofChars_injective h, (StringLiteral.spells_quoteChars other).reads []] at hread
  have hunits := (Prod.mk.inj (Option.some.inj hread)).1
  rw [← joinUnits_unitsOf text, ← hunits, joinUnits_unitsOf]

end SchemaLoom

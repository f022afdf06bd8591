import SchemaLoom.Proofs.FlowScalars
import SchemaLoom.Yaml.Scan

/-!
# Tokens of JSON texts

The scanner of YAML reads a JSON text piece by piece: behind the gap in front of a piece
it finds a token that shows the piece. It looks some tokens ahead, and at a colon it puts a
key token in front of the last token it has read, which is a name.

A text that the scanner refuses, as it does with some escapes and with tabs in front of the
outermost bracket, is outside of all this.
-/

namespace SchemaLoom

set_option autoImplicit false

open Json (Ahead skipGaps skipGaps_cons_of_not_gap)

/-! ### Where pieces start -/

namespace Json

/-- The end of the text, or the start of a piece. -/
def startsPiece : List Char → Bool
  | [] => true
  | c :: rest =>
    (Piece.opening? c).isSome || (Piece.closing? c).isSome || c == ',' || c == ':' || c == '"' ||
      startsWord (c :: rest)

/-- Characters that no piece starts with: marks that mean something to YAML, and its gaps. -/
def neverStarts : List Char := ['#', '%', '.', '\uFEFF'] ++ Yaml.gaps

theorem startsPiece_ne {c d : Char} {rest : List Char} (h : startsPiece (c :: rest) = true)
    (hd : d ∈ neverStarts) : c ≠ d := by
  rintro rfl
  have hnone : ∀ c ∈ neverStarts, startsPiece (c :: rest) = false := by
    simp only [neverStarts, Yaml.gaps, List.cons_append, List.nil_append, List.forall_mem_cons]
    exact ⟨rfl, rfl, rfl, rfl, rfl, rfl, rfl, rfl, rfl, rfl, rfl, List.forall_mem_nil _⟩
  rw [hnone c hd] at h
  cases h

theorem startsWord_append {w : List Char} (h : startsWord w = true) (rest : List Char) :
    startsWord (w ++ rest) = true := by
  cases w with
  | nil => cases h
  | cons c w =>
    cases w with
    | nil =>
      simp only [startsWord, List.head?_nil, Option.any_none, Bool.and_false, Bool.or_false] at h
      simp [startsWord, h]
    | cons d w => exact h

theorem Ahead.startsPiece {depth : Nat} {spot : Spot} {cs : List Char} {ps : List Piece}
    (h : Ahead depth spot cs ps) : startsPiece (skipGaps cs) = true := by
  cases h with
  | done h => rw [h]; rfl
  | opening h hp => rw [h]; simp [Json.startsPiece, hp]
  | closing h hp => rw [h]; simp [Json.startsPiece, hp]
  | comma h | text h | name h | colon h => rw [h]; rfl
  | @word _ _ _ w rest _ h hw =>
    have hstarts := startsWord_append (Bool.and_eq_true_iff.mp hw).1 rest
    rw [h]
    cases hall : w ++ rest with
    | nil => rfl
    | cons c cs => rw [Json.startsPiece, ← hall, hstarts, Bool.or_true]

end Json

namespace Yaml

theorem visible_of_ahead {depth : Nat} {spot : Json.Spot} {cs : List Char} {ps : List Json.Piece}
    (h : Ahead depth spot cs ps) : Visible cs := by
  intro c hc
  obtain ⟨rest, hrest⟩ := List.head?_eq_some_iff.mp hc
  have hne (d : Char) (hd : d ∈ Json.neverStarts) : c ≠ d :=
    Json.startsPiece_ne (hrest ▸ h.startsPiece) hd
  exact ⟨hne '#' (by decide), Bool.eq_false_iff.mpr fun hgap =>
    hne c (List.mem_append_right _ (mem_gaps hgap)) rfl⟩

/-- A token stands for a piece. -/
inductive Shows : Lexeme → Json.Piece → Prop
  | openObject : Shows .flowMappingStart .openObject
  | closeObject : Shows .flowMappingEnd .closeObject
  | openArray : Shows .flowSequenceStart .openArray
  | closeArray : Shows .flowSequenceEnd .closeArray
  | comma : Shows .flowEntry .comma
  | colon : Shows .value .colon
  | text {s t : String} : ((∀ c ∈ s.toList, isGap c = false) → t = s) →
      Shows (.scalar .quoted t) (.text s)
  | word (t : String) : Shows (.scalar .plain t) .word

/-- Tokens that show the first of the pieces, when the pieces `ahead` are the others. Behind the
last piece there may be more tokens, and in front of any piece but a closing bracket there may be
key tokens. -/
inductive Queued (ahead : List Json.Piece) : List Lexeme → List Json.Piece → Prop
  | nil : Queued ahead [] ahead
  | done {ls : List Lexeme} : ahead = [] → Queued ahead ls []
  | cons {l : Lexeme} {ls : List Lexeme} {p : Json.Piece} {ps : List Json.Piece} : Shows l p →
      Queued ahead ls ps → Queued ahead (l :: ls) (p :: ps)
  | key {ls : List Lexeme} {p : Json.Piece} {ps : List Json.Piece} : p.isClosing = false →
      Queued ahead ls (p :: ps) → Queued ahead (.key :: ls) (p :: ps)

namespace Queued
variable {l : Lexeme} {ls : List Lexeme} {p : Json.Piece} {ahead ps : List Json.Piece}

theorem push (h : Queued (p :: ahead) ls ps) (hshows : Shows l p) :
    Queued ahead (ls ++ [l]) ps := by
  induction h with
  | nil => exact .cons hshows .nil
  | done h => cases h
  | cons h _ ih => exact .cons h ih
  | key hp _ ih => exact .key hp ih

theorem pushEnd (h : Queued [] ls ps) (l : Lexeme) : Queued [] (ls ++ [l]) ps := by
  induction h with
  | nil => exact .done rfl
  | done => exact .done rfl
  | cons h _ ih => exact .cons h ih
  | key hp _ ih => exact .key hp ih

theorem pushKey (h : Queued (.colon :: ahead) ls ps) :
    Queued (.colon :: ahead) (ls ++ [.key]) ps := by
  induction h with
  | nil => exact .key rfl .nil
  | done h => cases h
  | cons h _ ih => exact .cons h ih
  | key hp _ ih => exact .key hp ih

/-- A key token in front of the last token, if that is a string. -/
theorem insertKey {t : String} (h : Queued ahead (ls ++ [.scalar .quoted t]) ps) :
    Queued ahead (ls ++ [.key, .scalar .quoted t]) ps := by
  induction ls generalizing ps with
  | nil =>
    cases h with
    | done h => exact .done h
    | cons hshows h =>
      cases hshows with
      | text ht => exact .key rfl (.cons (.text ht) h)
  | cons l ls ih =>
    cases h with
    | done h => exact .done h
    | cons hshows h => exact .cons hshows (ih h)
    | key hp h => exact .key hp (ih h)

end Queued

namespace Scanner

/-- The tokens that have been read and not been taken. -/
def lexemes (s : Scanner) : List Lexeme := s.queue.map (·.lexeme)

/-- What is known of the scanner at a place. Where a name may stand a key may too; behind a name
a pending key is at that name, which is the last token. -/
def Ready (s : Scanner) : Json.Spot → Prop
  | .entry => s.keyAllowed = true
  | .colon => (∀ k ∈ s.key?, k.position + 1 = s.size) ∧
      ∀ l ∈ s.lexemes.getLast?, ∃ t, l = .scalar .quoted t
  | .other => True

/-- The scanner is between two pieces, outside of all block collections. Of the pieces `ps` those
that are not ahead of it are in the queue. -/
structure Stands (s : Scanner) (spot : Json.Spot) (ahead ps : List Json.Piece) : Prop where
  unmarked : s.marked = false
  unindented : s.indents = []
  ready : s.Ready spot
  queued : Queued ahead s.lexemes ps
  ahead : Ahead s.flow spot s.cursor.rest ahead

/-- The pieces that are not taken yet. -/
def Holds (s : Scanner) (ps : List Json.Piece) : Prop := ∃ spot ahead, s.Stands spot ahead ps

/-- One more token has been read outside of block collections. -/
structure Reads (s s' : Scanner) (l : Lexeme) : Prop where
  marked : s'.marked = s.marked
  indents : s'.indents = s.indents
  lexemes : s'.lexemes = s.lexemes ++ [l]

section
variable {s s' : Scanner} {l : Lexeme}

theorem Reads.of_push {line : Nat} (hmarked : s'.marked = s.marked)
    (hindents : s'.indents = s.indents) (hqueue : s'.queue = s.queue ++ [⟨l, line⟩]) :
    Reads s s' l where
  marked := hmarked
  indents := hindents
  lexemes := by simp [Scanner.lexemes, hqueue]

theorem Stands.read {spot : Json.Spot} {p : Json.Piece} {ahead ps : List Json.Piece}
    (h : s.Stands spot (p :: ahead) ps) (spot' : Json.Spot) (hreads : Reads s s' l)
    (hshows : Shows l p) (hready : s'.Ready spot')
    (hahead : Ahead s'.flow spot' s'.cursor.rest ahead) :
    s'.Holds ps :=
  ⟨spot', ahead, hreads.marked.trans h.unmarked, hreads.indents.trans h.unindented, hready,
    hreads.lexemes ▸ h.queued.push hshows, hahead⟩

theorem clearKey_eq (s : Scanner) : ∃ levels, s.clearKey = { s with levels } := by
  unfold clearKey
  split
  · exact ⟨_, rfl⟩
  · exact ⟨_, rfl⟩

theorem dropKey_eq (h : s.dropKey = some s') : ∃ levels, s' = { s with levels } := by
  unfold dropKey at h
  split at h
  · obtain ⟨_, h⟩ := Option.ite_none_left_eq_some.mp h
    cases h
    exact clearKey_eq s
  · cases h
    exact ⟨_, rfl⟩

theorem saveKey_eq (h : s.saveKey = some s') : ∃ levels, s' = { s with levels } ∧
    (s.keyAllowed = true → ∀ k ∈ s'.key?, k.position = s.size) := by
  unfold saveKey at h
  split at h
  · next hallowed =>
    cases h
    exact ⟨_, rfl, fun hkey => by simp [hkey] at hallowed⟩
  · obtain ⟨s₁, hdrop, h⟩ := Option.bind_eq_some_iff.mp h
    obtain ⟨levels, rfl⟩ := dropKey_eq hdrop
    cases h
    refine ⟨_, rfl, fun _ k hk => ?_⟩
    cases hk
    rfl

/-- A key token for a pending key at the last token goes in front of that token, or where it would
be if it has been taken. -/
theorem insertAt_last {position : Nat} (hposition : position + 1 = s.size) (line : Nat) :
    ∃ queue, s.insertAt position .key line = { s with queue } ∧
      (s.queue = [] ∧ queue = [⟨.key, line + 1⟩] ∨
        ∃ q t, s.queue = q ++ [t] ∧ queue = q ++ [⟨.key, line + 1⟩, t]) := by
  rcases List.eq_nil_or_concat' s.queue with hqueue | ⟨q, t, hqueue⟩
  · refine ⟨_, ?_, .inl ⟨hqueue, rfl⟩⟩
    have hsize : s.size = s.taken := by rw [size, hqueue]; rfl
    rw [insertAt, if_pos (by omega), push, hqueue, List.nil_append]
  · refine ⟨_, ?_, .inr ⟨q, t, hqueue, rfl⟩⟩
    have hsize : s.size = s.taken + (q.length + 1) := by
      rw [size, hqueue, List.length_append, List.length_singleton]
    have hindex : position - s.taken = q.length := by omega
    rw [insertAt, if_neg (by omega), hindex, hqueue]
    dsimp only
    rw [List.take_left, List.drop_left]

theorem roll_of_inFlow (hflow : s.inFlow = true) (column position : Nat) (line : Nat) :
    s.roll column position l line = some s := by
  rw [roll, hflow, Bool.true_or, if_pos rfl]

theorem unroll_of_indents (h : s.indents = []) (column : Int) : s.unroll column = s := by
  unfold unroll
  split
  · rfl
  · rw [h]
    rfl

/-! ### One token -/

theorem reads_openFlow (h : s.openFlow l = some s') : Reads s s' l ∧ s'.Ready .entry ∧
    s'.flow = s.flow + 1 ∧ s'.cursor.rest = s.cursor.rest.drop 1 := by
  obtain ⟨s₁, hsave, h⟩ := Option.bind_eq_some_iff.mp h
  obtain ⟨levels, rfl, _⟩ := saveKey_eq hsave
  obtain ⟨_, h⟩ := Option.ite_none_left_eq_some.mp h
  cases h
  exact ⟨.of_push rfl rfl rfl, rfl, rfl, rfl⟩

theorem reads_closeFlow {depth : Nat} (hflow : s.flow = depth + 1)
    (h : s.closeFlow l = some s') : Reads s s' l ∧
    s'.flow = depth ∧ s'.cursor.rest = s.cursor.rest.drop 1 := by
  obtain ⟨s₁, hdrop, h⟩ := Option.bind_eq_some_iff.mp h
  obtain ⟨levels, rfl⟩ := dropKey_eq hdrop
  have hin : ({ s with levels } : Scanner).inFlow = true := by simp [inFlow, hflow]
  rw [hin, if_pos rfl] at h
  cases h
  exact ⟨.of_push rfl rfl rfl, by simp [single, push, hflow], rfl⟩

theorem reads_flowEntry (h : s.flowEntry = some s') :
    Reads s s' .flowEntry ∧ s'.Ready .entry ∧ s'.flow = s.flow ∧
      s'.cursor.rest = s.cursor.rest.drop 1 := by
  obtain ⟨s₁, hdrop, h⟩ := Option.bind_eq_some_iff.mp h
  obtain ⟨levels, rfl⟩ := dropKey_eq hdrop
  cases h
  exact ⟨.of_push rfl rfl rfl, rfl, rfl, rfl⟩

theorem queued_valueMark {ahead ps : List Json.Piece} (hflow : s.inFlow = true)
    (hready : s.Ready .colon) (hqueued : Queued (.colon :: ahead) s.lexemes ps)
    (h : s.valueMark = some s') : s'.marked = s.marked ∧ s'.indents = s.indents ∧
      Queued ahead s'.lexemes ps ∧ s'.flow = s.flow ∧
      s'.cursor.rest = s.cursor.rest.drop 1 := by
  obtain ⟨hposition, hlast⟩ := hready
  unfold valueMark at h
  dsimp only at h
  split at h
  · next k hk =>
    obtain ⟨hkey, _⟩ := Option.filter_eq_some_iff.mp hk
    obtain ⟨queue, hinsert, hqueue⟩ := insertAt_last (hposition k hkey) k.line
    obtain ⟨levels, hclear⟩ := clearKey_eq ({ s with queue } : Scanner)
    rw [hinsert, roll_of_inFlow (show ({ s with queue } : Scanner).inFlow = true from hflow)] at h
    simp only [Option.bind_eq_bind, Option.bind_some, hclear, Option.some.injEq] at h
    subst h
    refine ⟨rfl, rfl, ?_, rfl, rfl⟩
    have hkeyed : Queued (.colon :: ahead) (queue.map (·.lexeme)) ps := by
      obtain ⟨hnil, rfl⟩ | ⟨q, t, hsnoc, rfl⟩ := hqueue
      · rw [lexemes, hnil] at hqueued
        exact hqueued.pushKey
      · rw [lexemes, hsnoc, List.map_append, List.map_singleton] at hqueued hlast
        obtain ⟨text, htext⟩ := hlast t.lexeme (by rw [List.getLast?_concat]; rfl)
        rw [htext] at hqueued
        simpa [htext] using hqueued.insertKey
    simpa [lexemes, single, push] using hkeyed.push .colon
  · obtain ⟨levels, hclear⟩ := clearKey_eq s
    have hin : ({ s with levels } : Scanner).inFlow = true := hflow
    rw [hclear] at h
    split at h
    · cases h
    · simp only [hin, Bool.not_true, Bool.false_and, Bool.false_eq_true, if_false,
        roll_of_inFlow hin, Option.bind_eq_bind, Option.bind_some, Option.some.injEq] at h
      subst h
      refine ⟨rfl, rfl, ?_, rfl, rfl⟩
      simpa [lexemes, single, push] using hqueued.push .colon

theorem reads_quotedScalar (h : s.quotedScalar false = some s') : ∃ t c,
    quotedScalar? false s.cursor = some (t, c) ∧ Reads s s' (.scalar .quoted t) ∧
      (s.Ready .entry → s'.Ready .colon) ∧ s'.flow = s.flow ∧ s'.cursor = c := by
  obtain ⟨s₁, hsave, h⟩ := Option.bind_eq_some_iff.mp h
  obtain ⟨levels, rfl, hposition⟩ := saveKey_eq hsave
  obtain ⟨⟨t, c⟩, htext, h⟩ := Option.bind_eq_some_iff.mp h
  cases h
  refine ⟨t, c, htext, .of_push rfl rfl rfl, fun hallowed => ⟨fun k hk => ?_, ?_⟩, rfl, rfl⟩
  · rw [hposition hallowed k hk]
    simp [size, push, Nat.add_assoc]
  · simp [lexemes, push]

theorem reads_plainScalar {broken : Bool} (hflow : s.inFlow = true)
    (h : s.plainScalar = some (s', broken)) : ∃ t c,
    plainScalar? true (s.indent + 1).toNat s.cursor = some (t, broken, c) ∧
      Reads s s' (.scalar .plain t) ∧ s'.flow = s.flow ∧ s'.cursor = c := by
  obtain ⟨s₁, hsave, h⟩ := Option.bind_eq_some_iff.mp h
  obtain ⟨levels, rfl, _⟩ := saveKey_eq hsave
  obtain ⟨⟨t, b, c⟩, htext, h⟩ := Option.bind_eq_some_iff.mp h
  have hin : ({ s with levels } : Scanner).inFlow = true := hflow
  rw [hin] at htext
  cases h
  exact ⟨t, c, htext, .of_push rfl rfl rfl, rfl, rfl⟩

/-- In front of a piece there is no comment. -/
theorem skipLineComment_of_visible (h : Visible s.cursor.rest) : s.skipLineComment = s := by
  unfold skipLineComment
  dsimp only
  rw [if_neg]
  intro hcomment
  obtain ⟨_, hhash⟩ := Bool.and_eq_true_iff.mp hcomment
  rw [beq_iff_eq, ← List.head?_drop, drop_length_takeWhile] at hhash
  obtain ⟨rest, hrest⟩ := List.head?_eq_some_iff.mp hhash
  have hv := h.congr (skipGaps_dropWhile (fun _ => json_of_isSpace) s.cursor.rest)
  rw [hrest] at hv
  exact hv.not_comment

theorem of_withComment {o : Option Scanner} {ps : List Json.Piece} (h : withComment o = some s')
    (ho : ∀ s₁, o = some s₁ → s₁.Holds ps) : s'.Holds ps := by
  obtain ⟨s₁, hs₁, rfl⟩ := Option.map_eq_some_iff.mp h
  obtain ⟨spot, ahead, hs⟩ := ho s₁ hs₁
  rw [skipLineComment_of_visible (visible_of_ahead hs.ahead)]
  exact ⟨spot, ahead, hs⟩

/-- A character that starts a word has no other meaning between brackets. -/
theorem token_word {c : Char} {rest : List Char} (hrest : s.cursor.rest = c :: rest)
    (hstarts : Json.startsWord (c :: rest) = true) :
    s.token c = s.plainScalar.map fun (s, broken) => if broken then s else s.skipLineComment := by
  have hnext : s.cursor.peekAt? 1 = rest.head? := by
    rw [Cursor.peekAt?, hrest, List.getElem?_cons_succ, List.head?_eq_getElem?]
  simp only [Json.startsWord, Bool.or_eq_true, Bool.and_eq_true, beq_iff_eq] at hstarts
  rcases hstarts with hc | ⟨rfl, hdigit⟩
  · have hne (d : Char) (hd : d.isAlphanum = false) : c ≠ d := ne_of_test hc hd
    have hcode (n : Nat) (hn : (Char.ofNat n).isAlphanum = false) : c.toNat ≠ n := by
      rintro rfl
      rw [Char.ofNat_toNat, hc] at hn
      cases hn
    have hgap : isGap c = false := isGap_eq_false hc rfl
    simp [token, startsPlain, hgap, hne '[' rfl, hne '\x7b' rfl, hne ']' rfl, hne '\x7d' rfl,
      hne ',' rfl, hne '-' rfl, hne '?' rfl, hne ':' rfl, hne '*' rfl, hne '&' rfl, hne '!' rfl,
      hne '|' rfl, hne '>' rfl, hne '"' rfl, hne '#' rfl, hne '%' rfl, hne '@' rfl,
      hcode 39 rfl, hcode 96 rfl]
  · cases rest with
    | nil => cases hdigit
    | cons d rest =>
      have hgap : isGap d = false := isGap_eq_false (p := Char.isDigit) hdigit rfl
      obtain ⟨hspace, _⟩ := Bool.or_eq_false_iff.mp hgap
      simp [token, startsPlain, hnext, endsWord, hgap, hspace]

theorem token_gap {c : Char} (hc : isGap c = true) : s.token c = none := by
  have hmem := mem_gaps hc
  simp only [gaps, List.mem_cons, List.not_mem_nil, or_false] at hmem
  rcases hmem with rfl | rfl | rfl | rfl | rfl | rfl | rfl
  all_goals simp [token, startsPlain, hc]

namespace Stands
variable {spot : Json.Spot} {p : Json.Piece} {ahead ps : List Json.Piece} {c : Char}
  {rest : List Char}

theorem readOpening (h : s.Stands spot (p :: ahead) ps) (hrest : s.cursor.rest = c :: rest)
    (hp : Json.Piece.opening? c = some p) (hahead : Ahead (s.flow + 1) .entry rest ahead)
    (ht : s.token c = some s') : s'.Holds ps := by
  have hopen (l : Lexeme) (hshows : Shows l p) (s₁ : Scanner) (hs₁ : s.openFlow l = some s₁) :
      s₁.Holds ps := by
    obtain ⟨hreads, hentry, hdepth, hcursor⟩ := reads_openFlow hs₁
    refine h.read .entry hreads hshows hentry ?_
    rwa [hdepth, hcursor, hrest]
  unfold Json.Piece.opening? at hp
  split at hp
  · cases hp
    exact of_withComment ht (hopen _ .openObject)
  · cases hp
    exact of_withComment ht (hopen _ .openArray)
  · cases hp

theorem readClosing {depth : Nat} (h : s.Stands spot (p :: ahead) ps)
    (hrest : s.cursor.rest = c :: rest) (hflow : s.flow = depth + 1)
    (hp : Json.Piece.closing? c = some p) (hahead : Ahead depth .other rest ahead)
    (ht : s.token c = some s') : s'.Holds ps := by
  have hclose (l : Lexeme) (hshows : Shows l p) (s₁ : Scanner) (hs₁ : s.closeFlow l = some s₁) :
      s₁.Holds ps := by
    obtain ⟨hreads, hdepth, hcursor⟩ := reads_closeFlow hflow hs₁
    refine h.read .other hreads hshows trivial ?_
    rwa [hdepth, hcursor, hrest]
  unfold Json.Piece.closing? at hp
  split at hp
  · cases hp
    exact of_withComment ht (hclose _ .closeObject)
  · cases hp
    exact of_withComment ht (hclose _ .closeArray)
  · cases hp

theorem readComma (h : s.Stands spot (.comma :: ahead) ps) (hrest : s.cursor.rest = ',' :: rest)
    (hahead : Ahead s.flow .entry rest ahead) (ht : s.token ',' = some s') : s'.Holds ps := by
  refine of_withComment ht fun s₁ hs₁ => ?_
  obtain ⟨hreads, hentry, hdepth, hcursor⟩ := reads_flowEntry hs₁
  refine h.read .entry hreads .comma hentry ?_
  rwa [hdepth, hcursor, hrest]

theorem readString {spot' : Json.Spot} {body : List Char} {t : String}
    (h : s.Stands spot (.text t :: ahead) ps) (hrest : s.cursor.rest = '"' :: body)
    (hbody : Json.string? body = some (t, rest))
    (hspot : spot' = .other ∨ spot = .entry ∧ spot' = .colon)
    (hahead : Ahead s.flow spot' rest ahead) (ht : s.token '"' = some s') : s'.Holds ps := by
  refine of_withComment ht fun s₁ hs₁ => ?_
  obtain ⟨t', c, htext, hreads, hcolon, hdepth, rfl⟩ := reads_quotedScalar hs₁
  obtain ⟨hend, hsame⟩ := quotedScalar?_string hrest hbody htext
  have hready : s₁.Ready spot' := by
    rcases hspot with rfl | ⟨rfl, rfl⟩
    · trivial
    · exact hcolon h.ready
  refine h.read spot' hreads (.text hsame) hready ?_
  rwa [hdepth, hend]

theorem readWord {w rest' : List Char} (h : s.Stands spot (.word :: ahead) ps)
    (hrest : s.cursor.rest = c :: rest) (hstart : c :: rest = w ++ rest')
    (hw : Json.isWord w = true) (hfollows : Json.Follows rest') (hin : s.inFlow = true)
    (hmarker : s.cursor.atDocumentMarker = false) (hahead : Ahead s.flow .other rest' ahead)
    (ht : s.token c = some s') : s'.Holds ps := by
  obtain ⟨hstarts, hall⟩ := Bool.and_eq_true_iff.mp hw
  have hword : Json.startsWord (c :: rest) = true :=
    hstart ▸ Json.startsWord_append hstarts rest'
  rw [token_word hrest hword] at ht
  obtain ⟨⟨s₁, broken⟩, hs₁, ht⟩ := Option.map_eq_some_iff.mp ht
  obtain ⟨t, c', htext, hreads, hdepth, rfl⟩ := reads_plainScalar hin hs₁
  have hcomment : s.cursor.peek? ≠ some '#' := by
    rw [Cursor.peek?, hrest]
    rintro ⟨⟩
    cases hword
  have hskip := skipGaps_plainScalar? (hrest.trans hstart) (List.all_eq_true.mp hall) hfollows
    ⟨hmarker, hcomment⟩ htext
  have hahead' : Ahead s₁.flow .other s₁.cursor.rest ahead := by
    rw [hdepth]
    exact hahead.congr hskip
  dsimp only at ht
  rw [skipLineComment_of_visible (visible_of_ahead hahead'), ite_self] at ht
  subst ht
  exact h.read .other hreads (.word t) trivial hahead'

theorem readColon (h : s.Stands .colon (.colon :: ahead) ps)
    (hrest : s.cursor.rest = ':' :: rest) (hin : s.inFlow = true)
    (hahead : Ahead s.flow .other rest ahead) (ht : s.token ':' = some s') : s'.Holds ps := by
  have hvalue : s.token ':' = withComment s.valueMark := by simp [token, hin]
  rw [hvalue] at ht
  refine of_withComment ht fun s₁ hs₁ => ?_
  obtain ⟨hmarked, hindents, hqueued, hdepth, hcursor⟩ := queued_valueMark hin h.ready h.queued hs₁
  refine ⟨.other, ahead, hmarked.trans h.unmarked, hindents.trans h.unindented, trivial, hqueued,
    ?_⟩
  rwa [hdepth, hcursor, hrest]

/-- At a piece that starts with the character at the cursor, the token of that character shows
the piece. -/
theorem readToken (h : s.Stands spot ahead ps) (hrest : s.cursor.rest = c :: rest)
    (hmarker : s.cursor.atDocumentMarker = false) (ht : s.token c = some s') : s'.Holds ps := by
  have hgap : Json.isGap c = false := by
    refine Bool.eq_false_iff.mpr fun hjson => ?_
    rw [token_gap (isGap_of_json hjson)] at ht
    cases ht
  have hskip : skipGaps s.cursor.rest = c :: rest := by rw [hrest, skipGaps_cons_of_not_gap hgap]
  have hahead := h.ahead
  generalize hflow : s.flow = depth at hahead
  have hin (n : Nat) (hn : depth = n + 1) : s.inFlow = true := by simp [inFlow, hflow, hn]
  cases hahead with
  | done hcs => cases hcs.symm.trans hskip
  | opening hcs hp hahead =>
    cases hcs.symm.trans hskip
    exact h.readOpening hrest hp (hflow ▸ hahead) ht
  | closing hcs hp hahead =>
    cases hcs.symm.trans hskip
    exact h.readClosing hrest hflow hp hahead ht
  | comma hcs hahead =>
    cases hcs.symm.trans hskip
    exact h.readComma hrest (hflow ▸ hahead) ht
  | text hcs hs hahead =>
    cases hcs.symm.trans hskip
    exact h.readString hrest hs (.inl rfl) (hflow ▸ hahead) ht
  | name hcs hs hahead =>
    cases hcs.symm.trans hskip
    exact h.readString hrest hs (.inr ⟨rfl, rfl⟩) (hflow ▸ hahead) ht
  | word hcs hw hfollows hahead =>
    exact h.readWord hrest (hskip.symm.trans hcs) hw hfollows (hin _ rfl) hmarker
      (hflow ▸ hahead) ht
  | colon hcs hahead =>
    cases hcs.symm.trans hskip
    exact h.readColon hrest (hin _ rfl) (hflow ▸ hahead) ht

end Stands

end

/-! ### Between two tokens -/

/-- Between two tokens only the place changes, and whether a key may stand there. The new place
is in the gap, or behind it. -/
theorem skipGap_eq (fuel : Nat) {s : Scanner} (hmarked : s.marked = false)
    (hv : Visible s.cursor.rest) : ∃ cursor keyAllowed,
      skipGap fuel s = { s with cursor, keyAllowed } ∧ (s.keyAllowed = true → keyAllowed = true) ∧
        skipGaps cursor.rest = skipGaps s.cursor.rest := by
  induction fuel generalizing s with
  | zero => exact ⟨_, _, rfl, id, rfl⟩
  | succ fuel ih =>
    have hmark : s.skipMark = s.cursor := by simp [skipMark, hmarked]
    rw [skipGap, hmark]
    generalize hp : (fun ch => ch == ' ' || (s.inFlow || !s.keyAllowed) && ch == '\t') = p
    have hblanks (ch : Char) (hch : p ch = true) : Json.isGap ch = true := by
      subst hp
      simp only [Bool.or_eq_true, Bool.and_eq_true, beq_iff_eq] at hch
      rcases hch with rfl | ⟨_, rfl⟩ <;> rfl
    have hskip : skipGaps (s.cursor.skipWhile p).rest = skipGaps s.cursor.rest := by
      rw [Cursor.skipWhile_rest, skipGaps_dropWhile hblanks]
    have hvisible := hv.congr hskip
    generalize s.cursor.skipWhile p = c at hskip hvisible
    have hcomment : ¬ (c.peek? == some '#') = true := by
      intro hhash
      obtain ⟨rest, hrest⟩ := List.head?_eq_some_iff.mp (beq_iff_eq.mp hhash)
      rw [hrest] at hvisible
      exact hvisible.not_comment
    rw [if_neg hcomment]
    cases hpeek : c.peek? with
    | none => exact ⟨c, s.keyAllowed, rfl, id, hskip⟩
    | some ch =>
      obtain ⟨rest, hrest⟩ := List.head?_eq_some_iff.mp hpeek
      dsimp only
      split
      · next hbreak =>
        have hjson := (hrest ▸ hvisible).json_of_gap (isGap_iff.mpr (.inr hbreak))
        have hnewline := (Cursor.skipGaps_newline hrest hbreak hjson).trans hskip
        obtain ⟨cursor, keyAllowed, heq, hallowed, hrest'⟩ :=
          ih (s := { s with cursor := c.newline, keyAllowed := s.keyAllowed || !s.inFlow }) hmarked
            (hv.congr hnewline)
        exact ⟨cursor, keyAllowed, heq, fun h => hallowed (by simp [h]), hrest'.trans hnewline⟩
      · exact ⟨c, s.keyAllowed, rfl, id, hskip⟩

/-- No marker of documents stands where a piece starts. -/
theorem atMarker_of_startsPiece {c : Cursor} {mark : Char} (hmark : mark = '-' ∨ mark = '.')
    (h : Json.startsPiece c.rest = true) : c.atMarker mark = false := by
  refine Bool.eq_false_iff.mpr fun hmarker => ?_
  simp only [Cursor.atMarker, Cursor.peekAt?, Bool.and_eq_true, beq_iff_eq] at hmarker
  obtain ⟨⟨⟨⟨_, h₀⟩, h₁⟩, _⟩, _⟩ := hmarker
  match hrest : c.rest, h₀, h₁ with
  | a :: b :: rest, h₀, h₁ =>
    cases h₀
    cases h₁
    rw [hrest] at h
    rcases hmark with rfl | rfl
    · cases h
    · cases h

namespace Stands
variable {s s' : Scanner} {spot : Json.Spot} {ahead ps : List Json.Piece}

/-- At the end of the text every further token is the last one. -/
theorem pushEnd (hmarked : s.marked = false) (hindents : s.indents = []) (hflow : s.flow = 0)
    (hqueued : Queued [] s.lexemes ps) (hrest : s.cursor.rest = [])
    (hn : (s.reset.bind fun s => some (s.push .streamEnd s.cursor.line)) = some s') :
    s'.Holds ps := by
  obtain ⟨s₁, hreset, hn⟩ := Option.bind_eq_some_iff.mp hn
  obtain ⟨s₂, hdrop, hreset⟩ := Option.bind_eq_some_iff.mp hreset
  rw [unroll_of_indents hindents] at hdrop
  obtain ⟨levels, rfl⟩ := dropKey_eq hdrop
  cases hreset
  cases hn
  have hahead : Ahead s.flow .other s.cursor.rest [] := by
    rw [hflow, hrest]
    exact .done rfl
  refine ⟨.other, [], hmarked, hindents, trivial, ?_, hahead⟩
  simpa [lexemes, push] using hqueued.pushEnd .streamEnd

/-- Neither a directive nor a marker of documents stands in front of a piece. -/
theorem no_marker {c : Char} {rest : List Char} (h : s.Stands spot ahead ps)
    (hrest : s.cursor.rest = c :: rest) :
    c ≠ '%' ∧ s.cursor.atMarker '-' = false ∧ s.cursor.atMarker '.' = false := by
  cases hc : isGap c with
  | true =>
    have hne (d : Char) (hd : isGap d = false) : c ≠ d := ne_of_test hc hd
    simp [Cursor.atMarker, Cursor.peekAt?, hrest, hne '%' rfl, hne '-' rfl, hne '.' rfl]
  | false =>
    have hjson : Json.isGap c = false :=
      Bool.eq_false_iff.mpr fun h => by simp [isGap_of_json h] at hc
    have hstarts := h.ahead.startsPiece
    rw [hrest, skipGaps_cons_of_not_gap hjson] at hstarts
    refine ⟨Json.startsPiece_ne hstarts (by decide), ?_, ?_⟩
    · exact atMarker_of_startsPiece (.inl rfl) (hrest ▸ hstarts)
    · exact atMarker_of_startsPiece (.inr rfl) (hrest ▸ hstarts)

theorem next (h : s.Stands spot ahead ps) (hn : s.next = some s') : s'.Holds ps := by
  obtain ⟨cursor, keyAllowed, hgap, hallowed, hskip⟩ :=
    skipGap_eq (s.length + 1) h.unmarked (visible_of_ahead h.ahead)
  have hready : ({ s with cursor, keyAllowed } : Scanner).Ready spot := by
    cases spot with
    | entry => exact hallowed h.ready
    | colon => exact h.ready
    | other => trivial
  have hs : ({ s with cursor, keyAllowed } : Scanner).Stands spot ahead ps :=
    ⟨h.unmarked, h.unindented, hready, h.queued, h.ahead.congr hskip⟩
  unfold Scanner.next at hn
  rw [hgap] at hn
  clear hgap h hskip hallowed hready
  generalize ({ s with cursor, keyAllowed } : Scanner) = s at hs hn
  simp only [unroll_of_indents hs.unindented, hs.unmarked, Bool.false_and] at hn
  split at hn
  · next hpeek =>
    have hrest : s.cursor.rest = [] := List.head?_eq_none_iff.mp hpeek
    obtain ⟨hflow, rfl⟩ := hs.ahead.end_of_skipGaps (by rw [hrest]; rfl)
    refine pushEnd ?_ ?_ ?_ ?_ ?_ hn
    · rfl
    · exact hs.unindented
    · exact hflow
    · exact hs.queued
    · rwa [apply_ite Cursor.rest, ite_self]
  · next c hpeek =>
    obtain ⟨rest, hrest⟩ := List.head?_eq_some_iff.mp hpeek
    have hs' : ({ s with marked := false } : Scanner).Stands spot ahead ps :=
      ⟨rfl, hs.unindented, hs.ready, hs.queued, hs.ahead⟩
    obtain ⟨hpercent, hdash, hdot⟩ := hs.no_marker hrest
    rw [if_neg (by simp [hpercent]), hdash, hdot, if_neg nofun, if_neg nofun] at hn
    exact hs'.readToken hrest (by simp [Cursor.atDocumentMarker, hdash, hdot]) hn

end Stands

namespace Holds
variable {s s' : Scanner} {ps : List Json.Piece}

theorem forgetKey (h : s.Holds ps) (position : Nat) : (s.forgetKey position).Holds ps := by
  obtain ⟨spot, ahead, h⟩ := h
  refine ⟨spot, ahead, h.unmarked, h.unindented, ?_, h.queued, h.ahead⟩
  cases spot with
  | entry => exact h.ready
  | colon =>
    refine ⟨fun k hk => h.ready.1 k ?_, h.ready.2⟩
    rw [Scanner.key?, Scanner.forgetKey, List.head?_map] at hk
    obtain ⟨level, hlevel, hk⟩ := Option.bind_eq_some_iff.mp hk
    obtain ⟨level, hhead, rfl⟩ := Option.map_eq_some_iff.mp hlevel
    exact Option.bind_eq_some_iff.mpr ⟨level, hhead, (Option.filter_eq_some_iff.mp hk).1⟩
  | other => trivial

theorem supply {fuel : Nat} (h : s.Holds ps) (hs : s.supply fuel = some s') : s'.Holds ps := by
  induction fuel generalizing s with
  | zero =>
    cases hs
    exact h
  | succ fuel ih =>
    have goesOn (hs : s.next.bind (Scanner.supply fuel) = some s') : s'.Holds ps := by
      obtain ⟨s₁, hn, hs⟩ := Option.bind_eq_some_iff.mp hs
      obtain ⟨spot, ahead, h⟩ := h
      exact ih (h.next hn) hs
    rw [Scanner.supply] at hs
    split at hs
    · exact goesOn hs
    · split at hs
      · cases hs
        exact h
      · split at hs
        · exact goesOn hs
        · obtain ⟨_, hs⟩ := Option.ite_none_left_eq_some.mp hs
          cases hs
          exact h.forgetKey _

/-- A token that is handed out is a key token, which no closing bracket follows, or it shows the
first piece. -/
theorem take {t : Token} (h : s.Holds ps) (ht : s.queue.head? = some t) :
    t.lexeme = .key ∧ (∀ p ∈ ps.head?, p.isClosing = false) ∧ s.take.Holds ps ∨
      ∀ p ps', ps = p :: ps' → Shows t.lexeme p ∧ s.take.Holds ps' := by
  obtain ⟨queue, hqueue⟩ := List.head?_eq_some_iff.mp ht
  obtain ⟨spot, ahead, h⟩ := h
  have hlexemes : s.lexemes = t.lexeme :: s.take.lexemes := by
    simp [lexemes, hqueue, Scanner.take]
  have hready : s.take.Ready spot := by
    cases spot with
    | entry => exact h.ready
    | colon =>
      have hsize : s.take.size = s.size := by
        simp only [size, Scanner.take, hqueue, List.tail_cons, List.length_cons]
        omega
      refine ⟨fun k hk => (h.ready.1 k hk).trans hsize.symm, fun l hl => h.ready.2 l ?_⟩
      rw [hlexemes, List.getLast?_cons, Option.mem_def.mp hl]
      rfl
    | other => trivial
  have hqueued := h.queued
  rw [hlexemes] at hqueued
  generalize hl : t.lexeme = l at hqueued
  generalize htake : s.take.lexemes = ls at hqueued
  cases hqueued with
  | done => exact .inr nofun
  | @cons _ _ p ps hshows hqueued =>
    refine .inr fun p' ps' hps => ?_
    cases hps
    exact ⟨hshows, spot, ahead, h.unmarked, h.unindented, hready, htake ▸ hqueued, h.ahead⟩
  | @key _ p ps hp hqueued =>
    refine .inl ⟨rfl, by simpa using hp, spot, ahead, h.unmarked, h.unindented, hready, ?_, h.ahead⟩
    exact htake ▸ hqueued

theorem peek? {t : Token} (h : s.Holds ps) (ht : s.peek? = some (t, s')) : s'.Holds ps ∧
    (t.lexeme = .key ∧ (∀ p ∈ ps.head?, p.isClosing = false) ∧ s'.take.Holds ps ∨
      ∀ p ps', ps = p :: ps' → Shows t.lexeme p ∧ s'.take.Holds ps') := by
  obtain ⟨s₁, hsupply, ht⟩ := Option.bind_eq_some_iff.mp ht
  obtain ⟨t', hhead, ht⟩ := Option.bind_eq_some_iff.mp ht
  cases ht
  have hholds := h.supply hsupply
  exact ⟨hholds, hholds.take hhead⟩

/-- The pieces of a text are ahead of the scanner that starts with it. -/
theorem of_start? {cs : List Char} (h : Ahead 0 .entry cs ps) (hs : start? cs = some s) :
    s.Holds ps := by
  obtain ⟨_, hs⟩ := Option.ite_none_right_eq_some.mp hs
  cases hs
  refine ⟨.entry, ps, ?_, rfl, rfl, .nil, h⟩
  cases cs with
  | nil => rfl
  | cons c cs =>
    refine Bool.eq_false_iff.mpr fun hmark => ?_
    cases (Option.some.inj (beq_iff_eq.mp hmark) : c = '\uFEFF')
    exact Json.startsPiece_ne h.startsPiece (by decide) rfl

end Holds

end Scanner

end Yaml

end SchemaLoom

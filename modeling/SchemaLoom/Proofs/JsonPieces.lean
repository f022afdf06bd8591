import Mathlib.Logic.Basic
import SchemaLoom.Json.Parse

/-!
# JSON texts as sequences of pieces

The reader of JSON takes a text apart by its structure. A reader that goes from
sign to sign sees the same text as a sequence of pieces: brackets, commas, colons,
strings and words. This module says which sequence that is, and what stands at the
place of each piece, so that the second reader can be compared with the first one.

Of numbers, truth values and null only the place is kept.
-/

namespace SchemaLoom.Json

set_option autoImplicit false

/-- The pieces a JSON text consists of. -/
inductive Piece where
  | openObject
  | closeObject
  | openArray
  | closeArray
  | comma
  | colon
  | text (s : String)
  | word
  deriving DecidableEq, Repr

namespace Piece

def opening? : Char → Option Piece
  | '\x7b' => some openObject
  | '[' => some openArray
  | _ => none

def closing? : Char → Option Piece
  | '\x7d' => some closeObject
  | ']' => some closeArray
  | _ => none

def isClosing : Piece → Bool
  | closeObject | closeArray => true
  | _ => false

def isStart : Piece → Bool
  | openObject | openArray | text _ | word => true
  | _ => false

end Piece

mutual
def pieces : Json → List Piece
  | null | bool _ | number _ => [.word]
  | string s => [.text s]
  | array items => .openArray :: (itemPieces items).tail ++ [.closeArray]
  | object ms => .openObject :: (memberPieces ms).tail ++ [.closeObject]

/-- The pieces of items, each behind a comma. -/
def itemPieces : List Json → List Piece
  | [] => []
  | j :: js => .comma :: pieces j ++ itemPieces js

/-- The pieces of members, each behind a comma. -/
def memberPieces : List Member → List Piece
  | [] => []
  | m :: ms => .comma :: ownPieces m ++ memberPieces ms

def ownPieces : Member → List Piece
  | ⟨key, _, v⟩ => .text key :: .colon :: pieces v
end

theorem exists_pieces_eq_cons (j : Json) : ∃ p ps, pieces j = p :: ps ∧ p.isStart = true := by
  cases j <;> exact ⟨_, _, rfl, rfl⟩

/-! ### Words -/

/-- The characters of numbers, truth values and null. -/
def isWordChar (c : Char) : Bool := c.isAlphanum || c == '-' || c == '+' || c == '.'

/-- A letter or a digit starts a word, and so does a minus in front of a digit. -/
def startsWord : List Char → Bool
  | [] => false
  | c :: rest => c.isAlphanum || (c == '-' && rest.head?.any Char.isDigit)

def isWord (w : List Char) : Bool := startsWord w && w.all isWordChar

/-- Behind a value inside brackets: a comma or a closing bracket. -/
def Follows (cs : List Char) : Prop :=
  ∃ c rest, skipGaps cs = c :: rest ∧ (c = ',' ∨ Piece.closing? c ≠ none)

/-! ### What is ahead -/

/-- A place between two pieces, by the piece before it. -/
inductive Spot where
  /-- Behind an opening bracket or a comma, where a name may stand. -/
  | entry
  /-- Behind a name. -/
  | colon
  | other
  deriving DecidableEq, Repr

/-- The pieces that are ahead of a place, at a depth of brackets. -/
inductive Ahead : Nat → Spot → List Char → List Piece → Prop
  | done {spot : Spot} {cs : List Char} : skipGaps cs = [] → Ahead 0 spot cs []
  | opening {depth : Nat} {spot : Spot} {cs rest : List Char} {c : Char} {p : Piece}
      {ps : List Piece} : skipGaps cs = c :: rest → Piece.opening? c = some p →
      Ahead (depth + 1) .entry rest ps → Ahead depth spot cs (p :: ps)
  | closing {depth : Nat} {spot : Spot} {cs rest : List Char} {c : Char} {p : Piece}
      {ps : List Piece} : skipGaps cs = c :: rest → Piece.closing? c = some p →
      Ahead depth .other rest ps → Ahead (depth + 1) spot cs (p :: ps)
  | comma {depth : Nat} {spot : Spot} {cs rest : List Char} {ps : List Piece} :
      skipGaps cs = ',' :: rest →
      Ahead (depth + 1) .entry rest ps → Ahead (depth + 1) spot cs (.comma :: ps)
  | text {depth : Nat} {spot : Spot} {cs body rest : List Char} {s : String} {ps : List Piece} :
      skipGaps cs = '"' :: body → string? body = some (s, rest) →
      Ahead (depth + 1) .other rest ps → Ahead (depth + 1) spot cs (.text s :: ps)
  | word {depth : Nat} {spot : Spot} {cs w rest : List Char} {ps : List Piece} :
      skipGaps cs = w ++ rest → isWord w = true → Follows rest →
      Ahead (depth + 1) .other rest ps → Ahead (depth + 1) spot cs (.word :: ps)
  | name {depth : Nat} {cs body rest : List Char} {s : String} {ps : List Piece} :
      skipGaps cs = '"' :: body → string? body = some (s, rest) →
      Ahead (depth + 1) .colon rest ps → Ahead (depth + 1) .entry cs (.text s :: ps)
  | colon {depth : Nat} {cs rest : List Char} {ps : List Piece} :
      skipGaps cs = ':' :: rest →
      Ahead (depth + 1) .other rest ps → Ahead (depth + 1) .colon cs (.colon :: ps)

theorem skipGaps_cons_of_gap {c : Char} (h : isGap c = true) (cs : List Char) :
    skipGaps (c :: cs) = skipGaps cs :=
  List.dropWhile_cons_of_pos h

theorem skipGaps_cons_of_not_gap {c : Char} (h : isGap c = false) (cs : List Char) :
    skipGaps (c :: cs) = c :: cs :=
  List.dropWhile_cons_of_neg (by simp [h])

theorem skipGaps_skipGaps (cs : List Char) : skipGaps (skipGaps cs) = skipGaps cs := by
  induction cs with
  | nil => rfl
  | cons c cs ih =>
    cases h : isGap c with
    | true => rw [skipGaps_cons_of_gap h, ih]
    | false => rw [skipGaps_cons_of_not_gap h, skipGaps_cons_of_not_gap h]

section
variable {depth : Nat} {spot : Spot} {cs cs' : List Char} {ps : List Piece}

/-- What is ahead does not depend on the gaps in front of it. -/
theorem Ahead.congr (h : Ahead depth spot cs ps) (heq : skipGaps cs' = skipGaps cs) :
    Ahead depth spot cs' ps := by
  cases h with
  | done h => exact .done (heq.trans h)
  | opening h hp hrest => exact .opening (heq.trans h) hp hrest
  | closing h hp hrest => exact .closing (heq.trans h) hp hrest
  | comma h hrest => exact .comma (heq.trans h) hrest
  | text h hs hrest => exact .text (heq.trans h) hs hrest
  | word h hw hf hrest => exact .word (heq.trans h) hw hf hrest
  | name h hs hrest => exact .name (heq.trans h) hs hrest
  | colon h hrest => exact .colon (heq.trans h) hrest

theorem Ahead.of_skipGaps (h : Ahead depth spot (skipGaps cs) ps) : Ahead depth spot cs ps :=
  h.congr (skipGaps_skipGaps cs).symm

/-- Nothing is ahead of the end, which is outside of all brackets. -/
theorem Ahead.end_of_skipGaps (h : Ahead depth spot cs ps) (hcs : skipGaps cs = []) :
    depth = 0 ∧ ps = [] := by
  cases h with
  | done => exact ⟨rfl, rfl⟩
  | opening h | closing h | comma h | text h | name h | colon h => cases h.symm.trans hcs
  | word h hw =>
    obtain ⟨rfl, _⟩ := List.append_eq_nil_iff.mp (h.symm.trans hcs)
    cases hw

end

/-! ### Soundness of the reader -/

theorem word?_eq_some {w cs rest : List Char} (h : word? w cs = some rest) : cs = w ++ rest := by
  induction w generalizing cs with
  | nil => exact Option.some.inj h
  | cons c w ih =>
    cases cs with
    | nil => cases h
    | cons d cs =>
      rw [word?] at h
      split at h
      · next hc => rw [ih h, hc, List.cons_append]
      · cases h

theorem digits?_eq_some {cs ds rest : List Char} (h : digits? cs = some (ds, rest)) :
    cs = ds ++ rest ∧ ds ≠ [] ∧ ∀ c ∈ ds, c.isDigit = true := by
  unfold digits? at h
  split at h
  · cases h
  · next hne =>
    cases h
    exact ⟨List.takeWhile_append_dropWhile.symm, hne, List.all_eq_true.mp List.all_takeWhile⟩

theorem isWordChar_of_isDigit {c : Char} (h : c.isDigit = true) : isWordChar c = true := by
  simp [isWordChar, Char.isAlphanum, h]

theorem whole?_eq_some {cs ds rest : List Char} (h : whole? cs = some (ds, rest)) :
    cs = ds ++ rest ∧ ds ≠ [] ∧ ∀ c ∈ ds, c.isDigit = true := by
  unfold whole? at h
  split at h
  · cases h
    exact ⟨rfl, by simp, List.all_eq_true.mp rfl⟩
  · exact digits?_eq_some h

theorem fraction?_eq_some {cs ds rest : List Char} (h : fraction? cs = some (ds, rest)) :
    cs = ds ++ rest ∧ ∀ c ∈ ds, isWordChar c = true := by
  unfold fraction? at h
  split at h
  · obtain ⟨⟨es, r⟩, hdigits, heq⟩ := Option.map_eq_some_iff.mp h
    cases heq
    obtain ⟨rfl, _, hall⟩ := digits?_eq_some hdigits
    refine ⟨rfl, List.forall_mem_cons.mpr ⟨rfl, fun c hc => isWordChar_of_isDigit (hall c hc)⟩⟩
  · cases h
    exact ⟨rfl, nofun⟩

theorem exponent?_eq_some {cs ds rest : List Char} (h : exponent? cs = some (ds, rest)) :
    cs = ds ++ rest ∧ ∀ c ∈ ds, isWordChar c = true := by
  unfold exponent? at h
  split at h
  · next e s r =>
    split at h
    · cases h
      exact ⟨rfl, nofun⟩
    · next he =>
      have he : isWordChar e = true := by
        simp only [Bool.and_eq_true, bne_iff_ne, not_and_or, not_not] at he
        rcases he with rfl | rfl <;> rfl
      split at h
      · next hs =>
        obtain ⟨⟨es, r⟩, hdigits, heq⟩ := Option.map_eq_some_iff.mp h
        cases heq
        obtain ⟨rfl, _, hall⟩ := digits?_eq_some hdigits
        have hs : isWordChar s = true := by
          rcases (Bool.or_eq_true ..).mp hs with hs | hs <;> simp [isWordChar, hs]
        exact ⟨rfl, List.forall_mem_cons.mpr ⟨he, List.forall_mem_cons.mpr ⟨hs,
          fun c hc => isWordChar_of_isDigit (hall c hc)⟩⟩⟩
      · obtain ⟨⟨es, r⟩, hdigits, heq⟩ := Option.map_eq_some_iff.mp h
        cases heq
        obtain ⟨hcs, _, hall⟩ := digits?_eq_some hdigits
        rw [hcs]
        exact ⟨rfl, List.forall_mem_cons.mpr ⟨he, fun c hc => isWordChar_of_isDigit (hall c hc)⟩⟩
  · split at h
    · cases h
    · cases h
      exact ⟨rfl, nofun⟩
  · cases h
    exact ⟨rfl, nofun⟩

theorem number?_eq_some {cs rest : List Char} {t : String} (h : number? cs = some (t, rest)) :
    cs = t.toList ++ rest ∧ isWord t.toList = true := by
  unfold number? at h
  obtain ⟨⟨whole, r⟩, hwhole, h⟩ := Option.bind_eq_some_iff.mp h
  obtain ⟨⟨frac, r'⟩, hfrac, h⟩ := Option.bind_eq_some_iff.mp h
  obtain ⟨⟨exp, r''⟩, hexp, h⟩ := Option.bind_eq_some_iff.mp h
  cases h
  obtain ⟨hcs, hne, hdigits⟩ := whole?_eq_some hwhole
  obtain ⟨rfl, hfracs⟩ := fraction?_eq_some hfrac
  obtain ⟨rfl, hexps⟩ := exponent?_eq_some hexp
  obtain ⟨d, ds, rfl⟩ := List.exists_cons_of_ne_nil hne
  have hd : d.isDigit = true := hdigits d List.mem_cons_self
  have hall : ∀ c ∈ d :: ds ++ frac ++ exp, isWordChar c = true := by
    intro c hc
    rcases List.mem_append.mp hc with hc | hc
    · rcases List.mem_append.mp hc with hc | hc
      · exact isWordChar_of_isDigit (hdigits c hc)
      · exact hfracs c hc
    · exact hexps c hc
  rw [String.toList_ofList]
  split at hcs
  · next heq =>
    refine ⟨by simpa using hcs, ?_⟩
    simp only [List.cons_append, List.nil_append, isWord, startsWord, Bool.and_eq_true,
      List.all_eq_true]
    exact ⟨by simp [hd], List.forall_mem_cons.mpr ⟨rfl, hall⟩⟩
  · refine ⟨by simpa using hcs, ?_⟩
    simp only [List.nil_append, isWord, Bool.and_eq_true, List.all_eq_true]
    exact ⟨by simp [startsWord, Char.isAlphanum, hd], hall⟩

/-- Values that bring their own brackets. -/
def isContainer : Json → Bool
  | array _ | object _ => true
  | _ => false

/-- What the reader of items did: a value, and then a comma with more of them, or the end. -/
theorem items?_cases {fuel : Nat} {cs rest : List Char} {js : List Json}
    (h : items? (fuel + 1) cs = some (js, rest)) : ∃ j r, value? fuel cs = some (j, r) ∧
      ((∃ r' js', skipGaps r = ',' :: r' ∧ items? fuel r' = some (js', rest) ∧ js = j :: js') ∨
        skipGaps r = ']' :: rest ∧ js = [j]) := by
  rw [items?] at h
  obtain ⟨⟨j, r⟩, hj, h⟩ := Option.bind_eq_some_iff.mp h
  refine ⟨j, r, hj, ?_⟩
  dsimp only at h
  split at h
  · next r' hr =>
    obtain ⟨⟨js', r''⟩, hjs, h⟩ := Option.bind_eq_some_iff.mp h
    cases h
    exact .inl ⟨r', js', hr, hjs, rfl⟩
  · next r' hr =>
    cases h
    exact .inr ⟨hr, rfl⟩
  · cases h

/-- What the reader of members did: a name, its colon and a value, and then a comma with more of
them, or the end. -/
theorem members?_cases {fuel : Nat} {cs rest : List Char} {ms : List Member}
    (h : members? (fuel + 1) cs = some (ms, rest)) : ∃ body key middle r v r',
      skipGaps cs = '"' :: body ∧ string? body = some (key, middle) ∧ skipGaps middle = ':' :: r ∧
      value? fuel (skipGaps r) = some (v, r') ∧
      ((∃ r'' ms', skipGaps r' = ',' :: r'' ∧ members? fuel r'' = some (ms', rest) ∧
          ms = ⟨key, consumed (skipGaps r) r', v⟩ :: ms') ∨
        skipGaps r' = '\x7d' :: rest ∧ ms = [⟨key, consumed (skipGaps r) r', v⟩]) := by
  rw [members?] at h
  split at h
  · next body hbody =>
    obtain ⟨⟨key, middle⟩, hkey, h⟩ := Option.bind_eq_some_iff.mp h
    dsimp only at h
    split at h
    · next r hr =>
      obtain ⟨start, hstart, h⟩ := Option.bind_eq_some_iff.mp h
      cases hstart
      obtain ⟨⟨v, r'⟩, hv, h⟩ := Option.bind_eq_some_iff.mp h
      refine ⟨body, key, middle, r, v, r', hbody, hkey, hr, hv, ?_⟩
      dsimp only at h
      split at h
      · next r'' hr' =>
        obtain ⟨⟨ms', rest'⟩, hms, h⟩ := Option.bind_eq_some_iff.mp h
        cases h
        exact .inl ⟨r'', ms', hr', hms, rfl⟩
      · next r'' hr' =>
        cases h
        exact .inr ⟨hr', rfl⟩
      · cases h
    · cases h
  · cases h

theorem items?_ne_nil {fuel : Nat} {cs rest : List Char} {js : List Json}
    (h : items? fuel cs = some (js, rest)) : js ≠ [] := by
  cases fuel with
  | zero => cases h
  | succ fuel =>
    obtain ⟨j, r, _, ⟨_, js', _, _, rfl⟩ | ⟨_, rfl⟩⟩ := items?_cases h
    all_goals exact nofun

theorem members?_ne_nil {fuel : Nat} {cs rest : List Char} {ms : List Member}
    (h : members? fuel cs = some (ms, rest)) : ms ≠ [] := by
  cases fuel with
  | zero => cases h
  | succ fuel =>
    obtain ⟨_, _, _, _, _, _, _, _, _, _, ⟨_, ms', _, _, rfl⟩ | ⟨_, rfl⟩⟩ := members?_cases h
    all_goals exact nofun

theorem itemPieces_of_ne_nil {js : List Json} (h : js ≠ []) :
    itemPieces js = .comma :: (itemPieces js).tail := by
  cases js with
  | nil => exact absurd rfl h
  | cons j js => rfl

theorem memberPieces_of_ne_nil {ms : List Member} (h : ms ≠ []) :
    memberPieces ms = .comma :: (memberPieces ms).tail := by
  cases ms with
  | nil => exact absurd rfl h
  | cons m ms => rfl

/-- What is read as a value is ahead as its pieces. A value without brackets must stand between
brackets and have a comma or a closing bracket behind it: elsewhere its end is not known. -/
def ValuesAhead (fuel : Nat) : Prop :=
  ∀ cs j rest, value? fuel cs = some (j, rest) → ∀ depth spot ps, Ahead depth .other rest ps →
    (j.isContainer = true ∨ depth ≠ 0 ∧ Follows rest) → Ahead depth spot cs (pieces j ++ ps)

/-- What is read as the items of an array is ahead as their pieces. -/
def ItemsAhead (fuel : Nat) : Prop :=
  ∀ cs js rest, items? fuel cs = some (js, rest) → ∀ depth ps, Ahead depth .other rest ps →
    Ahead (depth + 1) .entry cs ((itemPieces js).tail ++ .closeArray :: ps)

/-- What is read as the members of an object is ahead as their pieces. -/
def MembersAhead (fuel : Nat) : Prop :=
  ∀ cs ms rest, members? fuel cs = some (ms, rest) → ∀ depth ps, Ahead depth .other rest ps →
    Ahead (depth + 1) .entry cs ((memberPieces ms).tail ++ .closeObject :: ps)

theorem ahead_of_word {w cs rest : List Char} {j : Json} {depth : Nat} {spot : Spot}
    {ps : List Piece} (hcs : skipGaps cs = w ++ rest) (hw : isWord w = true)
    (hj : pieces j = [.word]) (hends : j.isContainer = true ∨ depth ≠ 0 ∧ Follows rest)
    (hcontainer : j.isContainer = false) (hrest : Ahead depth .other rest ps) :
    Ahead depth spot cs (pieces j ++ ps) := by
  rw [hcontainer] at hends
  obtain ⟨hdepth, hfollows⟩ := hends.resolve_left nofun
  obtain ⟨depth, rfl⟩ := Nat.exists_eq_succ_of_ne_zero hdepth
  rw [hj]
  exact .word hcs hw hfollows hrest

section Steps
variable {fuel : Nat}

theorem valuesAhead_succ (hitems : ItemsAhead fuel) (hmembers : MembersAhead fuel) :
    ValuesAhead (fuel + 1) := by
  intro cs j rest h depth spot ps hrest hends
  rw [value?] at h
  split at h
  · next r hcs =>
    split at h
    · next r' hr =>
      cases h
      exact .opening hcs rfl (.closing hr rfl hrest)
    · obtain ⟨⟨ms, r'⟩, hms, heq⟩ := Option.map_eq_some_iff.mp h
      cases heq
      have hinner := (hmembers _ _ _ hms depth ps hrest).of_skipGaps
      simp only [pieces, List.cons_append, List.append_assoc, List.nil_append]
      exact .opening hcs rfl hinner
  · next r hcs =>
    split at h
    · next r' hr =>
      cases h
      exact .opening hcs rfl (.closing hr rfl hrest)
    · obtain ⟨⟨js, r'⟩, hjs, heq⟩ := Option.map_eq_some_iff.mp h
      cases heq
      have hinner := (hitems _ _ _ hjs depth ps hrest).of_skipGaps
      simp only [pieces, List.cons_append, List.append_assoc, List.nil_append]
      exact .opening hcs rfl hinner
  · next r hcs =>
    obtain ⟨⟨s, r'⟩, hs, heq⟩ := Option.map_eq_some_iff.mp h
    cases heq
    obtain ⟨hdepth, _⟩ := hends.resolve_left nofun
    obtain ⟨depth, rfl⟩ := Nat.exists_eq_succ_of_ne_zero hdepth
    exact .text hcs hs hrest
  · next r hcs =>
    obtain ⟨r', hw, heq⟩ := Option.map_eq_some_iff.mp h
    cases heq
    rw [word?_eq_some hw] at hcs
    exact ahead_of_word (w := "true".toList) hcs rfl rfl hends rfl hrest
  · next r hcs =>
    obtain ⟨r', hw, heq⟩ := Option.map_eq_some_iff.mp h
    cases heq
    rw [word?_eq_some hw] at hcs
    exact ahead_of_word (w := "false".toList) hcs rfl rfl hends rfl hrest
  · next r hcs =>
    obtain ⟨r', hw, heq⟩ := Option.map_eq_some_iff.mp h
    cases heq
    rw [word?_eq_some hw] at hcs
    exact ahead_of_word (w := "null".toList) hcs rfl rfl hends rfl hrest
  · obtain ⟨⟨t, r'⟩, ht, heq⟩ := Option.map_eq_some_iff.mp h
    cases heq
    obtain ⟨hcs, hw⟩ := number?_eq_some ht
    exact ahead_of_word (w := t.toList) hcs hw rfl hends rfl hrest

theorem itemsAhead_succ (hvalue : ValuesAhead fuel) (hitems : ItemsAhead fuel) :
    ItemsAhead (fuel + 1) := by
  intro cs js rest h depth ps hrest
  obtain ⟨j, r, hj, ⟨r', js', hr, hjs, rfl⟩ | ⟨hr, rfl⟩⟩ := items?_cases h
  · have hmore := hitems _ _ _ hjs depth ps hrest
    have hvalues := hvalue _ _ _ hj (depth + 1) .entry _ (.comma hr hmore)
      (.inr ⟨Nat.succ_ne_zero _, ',', r', hr, .inl rfl⟩)
    simp only [itemPieces, List.cons_append, List.tail_cons, List.append_assoc]
    rw [itemPieces_of_ne_nil (items?_ne_nil hjs)]
    exact hvalues
  · have hvalues := hvalue _ _ _ hj (depth + 1) .entry _ (.closing hr rfl hrest)
      (.inr ⟨Nat.succ_ne_zero _, ']', _, hr, .inr nofun⟩)
    simpa only [itemPieces, List.cons_append, List.append_nil, List.tail_cons] using hvalues

theorem membersAhead_succ (hvalue : ValuesAhead fuel) (hmembers : MembersAhead fuel) :
    MembersAhead (fuel + 1) := by
  intro cs ms rest h depth ps hrest
  obtain ⟨body, key, middle, r, v, r', hbody, hkey, hcolon, hv, hms⟩ := members?_cases h
  have hname (ps : List Piece) (hend : Follows r') (hvalues : Ahead (depth + 1) .other r' ps) :
      Ahead (depth + 1) .entry cs (.text key :: .colon :: (pieces v ++ ps)) :=
    .name hbody hkey (.colon hcolon (hvalue _ _ _ hv (depth + 1) .other _ hvalues
      (.inr ⟨Nat.succ_ne_zero _, hend⟩)).of_skipGaps)
  obtain ⟨r'', ms', hr, hms, rfl⟩ | ⟨hr, rfl⟩ := hms
  · simp only [memberPieces, ownPieces, List.cons_append, List.tail_cons, List.append_assoc]
    rw [memberPieces_of_ne_nil (members?_ne_nil hms)]
    exact hname _ ⟨',', r'', hr, .inl rfl⟩ (.comma hr (hmembers _ _ _ hms depth ps hrest))
  · simp only [memberPieces, ownPieces, List.cons_append, List.tail_cons, List.append_nil]
    exact hname _ ⟨'\x7d', _, hr, .inr nofun⟩ (.closing hr rfl hrest)

end Steps

theorem ahead_of_fuel (fuel : Nat) : ValuesAhead fuel ∧ ItemsAhead fuel ∧ MembersAhead fuel := by
  induction fuel with
  | zero => exact ⟨nofun, nofun, nofun⟩
  | succ fuel ih =>
    obtain ⟨hvalue, hitems, hmembers⟩ := ih
    exact ⟨valuesAhead_succ hitems hmembers, itemsAhead_succ hvalue hitems,
      membersAhead_succ hvalue hmembers⟩

/-- The pieces of an object are ahead of the text that holds it. -/
theorem ahead_of_parse {cs : List Char} {ms : List Member} (h : parse? cs = some (.object ms)) :
    Ahead 0 .entry cs (pieces (.object ms)) := by
  unfold parse? at h
  obtain ⟨⟨j, rest⟩, hvalue, h⟩ := Option.bind_eq_some_iff.mp h
  obtain ⟨hrest, hj⟩ := Option.ite_none_right_eq_some.mp h
  cases hj
  have hahead := (ahead_of_fuel _).1 _ _ _ hvalue 0 .entry [] (.done (List.isEmpty_iff.mp hrest))
    (.inl rfl)
  rwa [List.append_nil] at hahead

end SchemaLoom.Json

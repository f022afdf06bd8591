import SchemaLoom.Json.Write
import SchemaLoom.Proofs.JsonPieces
import SchemaLoom.Proofs.StringLiterals

/-!
# Reading what is written

The text of a value is read up to its own end, whatever stands behind it, and an object
keeps its names there. The values must have no text for a number that goes on with
something else: numbers are written as they come.
-/

namespace SchemaLoom.Json

set_option autoImplicit false

/-! ### Strings -/

open StringLiteral (Written)

theorem written_writeChar (c : Char) : Written c (writeChar c) := by
  unfold writeChar
  split
  · next hc => exact .letter (by decide) (by rw [hc]; rfl)
  next hquote =>
  split
  · next hc => exact .letter (by decide) (by rw [hc]; rfl)
  next hescape =>
  split
  · next hc => exact .letter (by decide) (by rw [hc]; rfl)
  next hfeed =>
  split
  · next hc => exact .letter (by decide) (by rw [hc]; rfl)
  next hreturn =>
  split
  · next hc => exact .letter (by decide) (by rw [hc]; rfl)
  split
  · next hc =>
    simp only [Bool.or_eq_true, decide_eq_true_eq] at hc
    refine .unit ?_
    rcases hc with ((((rfl | rfl) | rfl) | rfl) | rfl) | hc
    all_goals first | decide | omega
  · next hc =>
    simp only [Bool.or_eq_true, decide_eq_true_eq, not_or, Nat.not_lt] at hc
    refine .plain hquote hescape ?_ hc.2
    simp [isLineTerminator, hfeed, hreturn, hc.1.1.2, hc.1.2]

theorem stringBody?_of_written {c : Char} {w : List Char} (h : Written c w) (rest : List Char) :
    stringBody? (w ++ rest) = (stringBody? rest).map fun r => (c.toNat :: r.1, r.2) := by
  cases h with
  | plain hquote hescape _ hcontrol =>
    rw [List.singleton_append, stringBody?.eq_5 _ _ hquote (fun _ _ _ _ _ h _ => hescape h)
      (fun _ _ h _ => hescape h)]
    have hcontrol : ¬ c.toNat < 0x20 := Nat.not_lt.mpr hcontrol
    simp only [hcontrol, if_false]
    cases stringBody? rest <;> rfl
  | @letter l hl hvalue =>
    rw [← hvalue]
    simp only [List.mem_cons, List.not_mem_nil, or_false] at hl
    rcases hl with rfl | rfl | rfl | rfl | rfl
    all_goals
      simp only [List.cons_append, List.nil_append]
      rw [stringBody?.eq_4 _ _ fun _ _ _ _ _ h => absurd h (by decide)]
      cases stringBody? rest <;> rfl
  | unit hlt =>
    have hsum : ((c.toNat / 16 / 16 / 16 % 16 * 16 + c.toNat / 16 / 16 % 16) * 16 +
        c.toNat / 16 % 16) * 16 + c.toNat % 16 = c.toNat := by omega
    simp only [hexDigits, List.cons_append, List.nil_append, stringBody?.eq_3,
      StringLiteral.hexValue?_hexDigit, Option.bind_eq_bind, Option.bind_some, hsum]
    cases stringBody? rest <;> rfl

/-- No character is half of a pair. -/
theorem joinUnits_cons (c : Char) (us : List Nat) :
    joinUnits (c.toNat :: us) = c :: joinUnits us := by
  have hvalid : c.toNat < 0xD800 ∨ 0xDFFF < c.toNat ∧ c.toNat < 0x110000 := c.valid
  have hhigh : isHighSurrogate c.toNat = false := by
    simp only [isHighSurrogate, Bool.and_eq_false_iff, decide_eq_false_iff_not]
    omega
  have hlow : isLowSurrogate c.toNat = false := by
    simp only [isLowSurrogate, Bool.and_eq_false_iff, decide_eq_false_iff_not]
    omega
  have hchar : Char.ofNat c.toNat = c := Char.ofNat_toNat c
  cases us with
  | nil => simp [joinUnits, hhigh, hlow, hchar]
  | cons u us => simp [joinUnits, hhigh, hlow, hchar]

theorem joinUnits_map_toNat (cs : List Char) : joinUnits (cs.map Char.toNat) = cs := by
  induction cs with
  | nil => rfl
  | cons c cs ih => rw [List.map_cons, joinUnits_cons, ih]

theorem stringBody?_written (cs rest : List Char) :
    stringBody? (cs.flatMap writeChar ++ '"' :: rest) = some (cs.map Char.toNat, rest) := by
  induction cs with
  | nil => rfl
  | cons c cs ih =>
    rw [List.flatMap_cons, List.append_assoc, stringBody?_of_written (written_writeChar c), ih]
    rfl

/-- A string is read back, behind its opening quote. -/
theorem string?_written (s : String) (rest : List Char) :
    string? (s.toList.flatMap writeChar ++ '"' :: rest) = some (s, rest) := by
  rw [string?, stringBody?_written]
  exact congrArg (some <| Prod.mk · rest)
    ((congrArg String.ofList (joinUnits_map_toNat _)).trans String.ofList_toList)

/-! ### Ends of values -/

/-- The signs behind a value inside brackets. -/
def stops : List Char := [',', ']', '\x7d']

/-- Nothing, or a sign that ends a value. -/
def Stops (cs : List Char) : Prop := ∀ c rest, cs = c :: rest → c ∈ stops

/-- A value was read up to what is behind it. Where it was not, a word goes on. -/
def Ended (rest left : List Char) : Prop :=
  left = rest ∨ ∃ c cs, left = c :: cs ∧ isWordChar c = true

/-- The text of a value is read up to its end. -/
def Apart (text : List Char) : Prop := ∀ {fuel : Nat} {rest left : List Char} {v : Json},
  Stops rest → value? fuel (text ++ rest) = some (v, left) → Ended rest left

def names? : Json → Option (List String)
  | object ms => some (ms.map (·.key))
  | _ => none

theorem isGap_of_isWordChar {c : Char} (h : isWordChar c = true) : isGap c = false := by
  refine Bool.eq_false_iff.mpr fun hgap => ?_
  simp only [isGap, Bool.or_eq_true, beq_iff_eq] at hgap
  rcases hgap with ((rfl | rfl) | rfl) | rfl
  all_goals exact absurd h (by decide)

theorem not_isWordChar_of_stops {c : Char} (h : c ∈ stops) : isWordChar c = false := by
  simp only [stops, List.mem_cons, List.not_mem_nil, or_false] at h
  rcases h with rfl | rfl | rfl
  all_goals rfl

theorem not_isGap_of_stops {c : Char} (h : c ∈ stops) : isGap c = false := by
  simp only [stops, List.mem_cons, List.not_mem_nil, or_false] at h
  rcases h with rfl | rfl | rfl
  all_goals rfl

theorem stops_cons {c : Char} (rest : List Char) (h : c ∈ stops) : Stops (c :: rest) := by
  rintro _ _ ⟨⟩
  exact h

theorem Ended.eq {rest left more : List Char} {c : Char} (h : Ended rest left)
    (hleft : skipGaps left = c :: more) (hc : isWordChar c = false) : left = rest := by
  refine h.resolve_right ?_
  rintro ⟨d, cs, rfl, hd⟩
  rw [skipGaps_cons_of_not_gap (isGap_of_isWordChar hd)] at hleft
  cases hleft
  rw [hd] at hc
  cases hc

theorem ended_of_append {w u rest left : List Char} (hw : ∀ c ∈ w, isWordChar c = true)
    (hu : ∀ c ∈ u, isWordChar c = true) (hrest : Stops rest) (h : w ++ rest = u ++ left) :
    Ended rest left := by
  obtain ⟨more, rfl, rfl⟩ | ⟨more, rfl, rfl⟩ := List.append_eq_append_iff.mp h
  · cases more with
    | nil => exact .inl rfl
    | cons c cs =>
      have hc := hu c (List.mem_append_right _ List.mem_cons_self)
      rw [not_isWordChar_of_stops (hrest c _ rfl)] at hc
      cases hc
  · cases more with
    | nil => exact .inl rfl
    | cons c cs => exact .inr ⟨c, _, rfl, hw c (List.mem_append_right _ List.mem_cons_self)⟩

/-- Words are numbers, truth values and null. -/
theorem value?_word {w rest left : List Char} {fuel : Nat} {v : Json}
    (hw : ∀ c ∈ w, isWordChar c = true) (hrest : Stops rest)
    (h : value? fuel (w ++ rest) = some (v, left)) : Ended rest left ∧ v.names? = none := by
  cases fuel with
  | zero => cases h
  | succ fuel =>
    have hhead (c : Char) (cs : List Char) (hcs : w ++ rest = c :: cs) :
        isWordChar c = true ∨ c ∈ stops := by
      cases w with
      | nil => exact .inr (hrest c cs hcs)
      | cons d w =>
        cases hcs
        exact .inl (hw c List.mem_cons_self)
    have hskip : skipGaps (w ++ rest) = w ++ rest := by
      cases hcs : w ++ rest with
      | nil => rfl
      | cons c cs =>
        have hgap := (hhead c cs hcs).elim isGap_of_isWordChar not_isGap_of_stops
        exact skipGaps_cons_of_not_gap hgap cs
    rw [value?, hskip] at h
    split at h
    · next hcs => exact absurd (hhead _ _ hcs) (by decide)
    · next hcs => exact absurd (hhead _ _ hcs) (by decide)
    · next hcs => exact absurd (hhead _ _ hcs) (by decide)
    · next hcs =>
      obtain ⟨left', hleft, heq⟩ := Option.map_eq_some_iff.mp h
      cases heq
      rw [word?_eq_some hleft] at hcs
      exact ⟨ended_of_append hw (u := "true".toList) (List.all_eq_true.mp rfl) hrest hcs, rfl⟩
    · next hcs =>
      obtain ⟨left', hleft, heq⟩ := Option.map_eq_some_iff.mp h
      cases heq
      rw [word?_eq_some hleft] at hcs
      exact ⟨ended_of_append hw (u := "false".toList) (List.all_eq_true.mp rfl) hrest hcs, rfl⟩
    · next hcs =>
      obtain ⟨left', hleft, heq⟩ := Option.map_eq_some_iff.mp h
      cases heq
      rw [word?_eq_some hleft] at hcs
      exact ⟨ended_of_append hw (u := "null".toList) (List.all_eq_true.mp rfl) hrest hcs, rfl⟩
    · obtain ⟨⟨t, left'⟩, hnumber, heq⟩ := Option.map_eq_some_iff.mp h
      cases heq
      obtain ⟨hcs, hword⟩ := number?_eq_some hnumber
      have hall := List.all_eq_true.mp (Bool.and_eq_true_iff.mp hword).2
      exact ⟨ended_of_append hw hall hrest hcs, rfl⟩

theorem value?_string {s : String} {rest left : List Char} {fuel : Nat} {v : Json}
    (h : value? fuel (writeString s ++ rest) = some (v, left)) : left = rest ∧ v = .string s := by
  cases fuel with
  | zero => cases h
  | succ fuel =>
    have hcs : writeString s ++ rest = '"' :: (s.toList.flatMap writeChar ++ '"' :: rest) := by
      simp [writeString]
    have hvalue : value? (fuel + 1) (writeString s ++ rest) =
        (string? (s.toList.flatMap writeChar ++ '"' :: rest)).map fun p =>
          (.string p.1, p.2) := by
      rw [hcs, value?]
      rfl
    rw [hvalue, string?_written] at h
    cases h
    exact ⟨rfl, rfl⟩

/-! ### Parts of values -/

/-- Parts behind a first one, up to what stands behind the value. -/
def partsUpTo (closing : Char) (parts : List (List Char)) (rest : List Char) : List Char :=
  parts.flatMap (',' :: ·) ++ closing :: rest

theorem enclose_cons (opening closing : Char) (part : List Char) (parts : List (List Char))
    (rest : List Char) : enclose opening closing (part :: parts) ++ rest =
      opening :: (part ++ partsUpTo closing parts rest) := by
  have hflatten (parts : List (List Char)) (part : List Char) :
      ((part :: parts).intersperse [',']).flatten = part ++ parts.flatMap (',' :: ·) := by
    induction parts generalizing part with
    | nil => simp
    | cons p ps ih => simp [List.intersperse, ih]
  simp [enclose, partsUpTo, hflatten]

theorem skipGaps_partsUpTo {closing : Char} (hclosing : closing ∈ stops)
    (parts : List (List Char)) (rest : List Char) :
    skipGaps (partsUpTo closing parts rest) = partsUpTo closing parts rest := by
  cases parts with
  | nil => exact skipGaps_cons_of_not_gap (not_isGap_of_stops hclosing) rest
  | cons p ps => exact skipGaps_cons_of_not_gap (by decide) _

theorem stops_partsUpTo {closing : Char} (hclosing : closing ∈ stops)
    (parts : List (List Char)) (rest : List Char) : Stops (partsUpTo closing parts rest) := by
  cases parts with
  | nil => exact stops_cons rest hclosing
  | cons p ps => exact stops_cons _ (by decide)

/-- Behind a part stand the other ones, or the value ends. -/
theorem partsUpTo_cases {closing c : Char} {parts : List (List Char)} {rest more : List Char}
    (h : partsUpTo closing parts rest = c :: more) :
    (parts = [] ∧ c = closing ∧ more = rest) ∨
      ∃ p ps, parts = p :: ps ∧ c = ',' ∧ more = p ++ partsUpTo closing ps rest := by
  cases parts with
  | nil =>
    cases h
    exact .inl ⟨rfl, rfl, rfl⟩
  | cons p ps =>
    simp only [partsUpTo, List.flatMap_cons, List.cons_append, List.append_assoc,
      List.cons.injEq] at h
    exact .inr ⟨p, ps, rfl, h.1.symm, h.2.symm⟩

theorem Ended.partsUpTo {closing c : Char} {parts : List (List Char)} {rest left more : List Char}
    (h : Ended (partsUpTo closing parts rest) left) (hclosing : closing ∈ stops)
    (hleft : skipGaps left = c :: more) (hc : c ∈ stops) :
    (parts = [] ∧ c = closing ∧ more = rest) ∨
      ∃ p ps, parts = p :: ps ∧ c = ',' ∧ more = p ++ Json.partsUpTo closing ps rest := by
  rw [h.eq hleft (not_isWordChar_of_stops hc), skipGaps_partsUpTo hclosing] at hleft
  exact partsUpTo_cases hleft

/-- Items are read up to the end of the array. -/
theorem items?_written {part : List Char} {parts : List (List Char)} {rest left : List Char}
    {fuel : Nat} {js : List Json} (hparts : ∀ p ∈ part :: parts, Apart p)
    (h : items? fuel (part ++ partsUpTo ']' parts rest) = some (js, left)) : left = rest := by
  induction fuel generalizing part parts js with
  | zero => cases h
  | succ fuel ih =>
    obtain ⟨j, r, hj, hmore⟩ := items?_cases h
    have hended := hparts part List.mem_cons_self (stops_partsUpTo (by decide) parts rest) hj
    obtain ⟨r', js', hr, hjs, _⟩ | ⟨hr, _⟩ := hmore
    · obtain ⟨_, heq, _⟩ | ⟨p, ps, rfl, _, rfl⟩ := hended.partsUpTo (by decide) hr (by decide)
      · exact absurd heq (by decide)
      · exact ih (fun q hq => hparts q (List.mem_cons_of_mem part hq)) hjs
    · obtain ⟨_, _, hleft⟩ | ⟨p, ps, _, heq, _⟩ := hended.partsUpTo (by decide) hr (by decide)
      · exact hleft
      · exact absurd heq (by decide)

theorem value?_skipGaps (fuel : Nat) (cs : List Char) :
    value? fuel (skipGaps cs) = value? fuel cs := by
  cases fuel with
  | zero => rfl
  | succ fuel => rw [value?, value?, skipGaps_skipGaps]

def writtenMember (m : String × List Char) : List Char := writeString m.1 ++ ':' :: m.2

/-- Members are read up to the end of the object, and keep their names. -/
theorem members?_written {m : String × List Char} {ms : List (String × List Char)}
    {rest left : List Char} {fuel : Nat} {read : List Member}
    (hms : ∀ n ∈ m :: ms, Apart n.2)
    (h : members? fuel (writtenMember m ++ partsUpTo '\x7d' (ms.map writtenMember) rest) =
      some (read, left)) : left = rest ∧ read.map (·.key) = (m :: ms).map (·.1) := by
  induction fuel generalizing m ms read with
  | zero => cases h
  | succ fuel ih =>
    obtain ⟨body, key, middle, r, v, r', hbody, hkey, hcolon, hv, hmore⟩ := members?_cases h
    have hstops : Stops (partsUpTo '\x7d' (ms.map writtenMember) rest) :=
      stops_partsUpTo (by decide) _ rest
    have hbody' : skipGaps (writtenMember m ++ partsUpTo '\x7d' (ms.map writtenMember) rest) =
        '"' :: (m.1.toList.flatMap writeChar ++
          '"' :: ':' :: (m.2 ++ partsUpTo '\x7d' (ms.map writtenMember) rest)) := by
      simp only [writtenMember, writeString, List.cons_append, List.append_assoc,
        List.nil_append]
      exact skipGaps_cons_of_not_gap (by decide) _
    cases hbody.symm.trans hbody'
    rw [string?_written] at hkey
    cases hkey
    rw [skipGaps_cons_of_not_gap (by decide)] at hcolon
    cases hcolon
    rw [value?_skipGaps] at hv
    have hended := hms m List.mem_cons_self hstops hv
    obtain ⟨r'', read', hr, hread, rfl⟩ | ⟨hr, rfl⟩ := hmore
    · obtain ⟨_, heq, _⟩ | ⟨p, ps, hparts, _, rfl⟩ := hended.partsUpTo (by decide) hr (by decide)
      · exact absurd heq (by decide)
      · obtain ⟨n, ns, rfl, rfl, rfl⟩ := List.map_eq_cons_iff.mp hparts
        obtain ⟨hleft, hnames⟩ := ih (fun q hq => hms q (List.mem_cons_of_mem m hq)) hread
        exact ⟨hleft, congrArg (m.1 :: ·) hnames⟩
    · obtain ⟨hparts, _, hleft⟩ | ⟨p, ps, _, heq, _⟩ :=
        hended.partsUpTo (by decide) hr (by decide)
      · cases List.map_eq_nil_iff.mp hparts
        exact ⟨hleft, rfl⟩
      · exact absurd heq (by decide)

/-! ### Values -/

theorem value?_noItems {fuel : Nat} {cs rest : List Char} (h : skipGaps cs = ']' :: rest) :
    value? (fuel + 1) ('[' :: cs) = some (.array [], rest) := by
  rw [value?, skipGaps_cons_of_not_gap rfl]
  simp only [h]

theorem value?_items {fuel : Nat} {cs : List Char} (h : ∀ rest, skipGaps cs ≠ ']' :: rest) :
    value? (fuel + 1) ('[' :: cs) =
      (items? fuel (skipGaps cs)).map fun p => (.array p.1, p.2) := by
  rw [value?, skipGaps_cons_of_not_gap rfl]
  -- by `h` there are items
  simp only

theorem value?_array {parts : List (List Char)} {rest left : List Char} {fuel : Nat} {v : Json}
    (hparts : ∀ p ∈ parts, Apart p)
    (hstarts : ∀ p ∈ parts, ∀ c cs, p = c :: cs → isGap c = false ∧ c ≠ ']')
    (h : value? fuel (enclose '[' ']' parts ++ rest) = some (v, left)) :
    left = rest ∧ v.names? = none := by
  cases fuel with
  | zero => cases h
  | succ fuel =>
    cases parts with
    | nil =>
      have hvalue : value? (fuel + 1) (enclose '[' ']' [] ++ rest) = some (.array [], rest) := by
        rw [value?]
        rfl
      cases hvalue.symm.trans h
      exact ⟨rfl, rfl⟩
    | cons p ps =>
      have hskip : skipGaps (p ++ partsUpTo ']' ps rest) = p ++ partsUpTo ']' ps rest := by
        cases p with
        | nil => exact skipGaps_partsUpTo (by decide) ps rest
        | cons c cs =>
          exact skipGaps_cons_of_not_gap (hstarts _ List.mem_cons_self c cs rfl).1 _
      rw [enclose_cons] at h
      by_cases hclose : ∃ r, p ++ partsUpTo ']' ps rest = ']' :: r
      · obtain ⟨r, hr⟩ := hclose
        rw [value?_noItems (hskip.trans hr)] at h
        cases h
        refine ⟨?_, rfl⟩
        cases p with
        | nil =>
          obtain ⟨_, _, hleft⟩ | ⟨_, _, _, heq, _⟩ := partsUpTo_cases hr
          · exact hleft
          · exact absurd heq (by decide)
        | cons c cs =>
          cases hr
          exact absurd rfl (hstarts _ List.mem_cons_self _ _ rfl).2
      · rw [value?_items fun r hr => hclose ⟨r, hskip.symm.trans hr⟩, hskip] at h
        obtain ⟨⟨js, left'⟩, hjs, heq⟩ := Option.map_eq_some_iff.mp h
        cases heq
        exact ⟨items?_written hparts hjs, rfl⟩

theorem value?_object {ms : List (String × List Char)} {rest left : List Char} {fuel : Nat}
    {v : Json} (hms : ∀ m ∈ ms, Apart m.2)
    (h : value? fuel (enclose '\x7b' '\x7d' (ms.map writtenMember) ++ rest) = some (v, left)) :
    left = rest ∧ v.names? = some (ms.map (·.1)) := by
  cases fuel with
  | zero => cases h
  | succ fuel =>
    cases ms with
    | nil =>
      have hvalue : value? (fuel + 1) (enclose '\x7b' '\x7d' [] ++ rest) =
          some (.object [], rest) := by
        rw [value?]
        rfl
      cases hvalue.symm.trans h
      exact ⟨rfl, rfl⟩
    | cons m ms =>
      have hvalue (more : List Char) : value? (fuel + 1) ('\x7b' :: (writtenMember m ++ more)) =
          (members? fuel (writtenMember m ++ more)).map fun p => (.object p.1, p.2) := by
        rw [value?]
        rfl
      rw [List.map_cons, enclose_cons, hvalue] at h
      obtain ⟨⟨read, left'⟩, hread, heq⟩ := Option.map_eq_some_iff.mp h
      cases heq
      obtain ⟨hleft, hnames⟩ := members?_written hms hread
      exact ⟨hleft, congrArg some hnames⟩

/-- The numbers of a value are written as words. -/
inductive Wordy : Json → Prop
  | null : Wordy .null
  | bool (b : Bool) : Wordy (.bool b)
  | number {t : String} : (∀ c ∈ t.toList, isWordChar c = true) → Wordy (.number t)
  | string (s : String) : Wordy (.string s)
  | array {items : List Json} : (∀ j ∈ items, Wordy j) → Wordy (.array items)
  | object {ms : List Member} : (∀ m ∈ ms, Wordy m.value) → Wordy (.object ms)

theorem writeAll_eq (js : List Json) : writeAll js = js.map write := by
  induction js with
  | nil => rfl
  | cons j js ih => rw [writeAll, ih, List.map_cons]

theorem writeMembers_eq (ms : List Member) :
    writeMembers ms = ms.map fun m => (m.key, m.value.write) := by
  induction ms with
  | nil => rfl
  | cons m ms ih =>
    obtain ⟨key, source, v⟩ := m
    rw [writeMembers, ih, writeMember, List.map_cons]

theorem write_starts {j : Json} (hj : j.Wordy) (c : Char) (cs : List Char)
    (h : j.write = c :: cs) : isGap c = false ∧ c ≠ ']' := by
  have word {c : Char} (hc : isWordChar c = true) : isGap c = false ∧ c ≠ ']' :=
    ⟨isGap_of_isWordChar hc, by rintro rfl; cases hc⟩
  cases hj with
  | null =>
    cases h
    exact word rfl
  | bool b =>
    cases b
    all_goals
      cases h
      exact word rfl
  | number ht =>
    rw [write] at h
    exact word (ht c (h ▸ List.mem_cons_self))
  | string | array | object =>
    rw [write] at h
    cases h
    exact ⟨rfl, by decide⟩

/-- A written value is read up to its end, as an object only if it is one, and then with the
same names. -/
theorem value?_write {j : Json} (hj : j.Wordy) {fuel : Nat} {rest left : List Char} {v : Json}
    (hrest : Stops rest) (h : value? fuel (j.write ++ rest) = some (v, left)) :
    Ended rest left ∧ ∀ names ∈ v.names?, ∃ names' ∈ j.names?, names.Perm names' := by
  induction hj generalizing fuel rest left v with
  | null =>
    obtain ⟨hleft, hnone⟩ := value?_word (w := "null".toList) (List.all_eq_true.mp rfl) hrest h
    rw [hnone]
    exact ⟨hleft, nofun⟩
  | bool b =>
    have hw : ∀ c ∈ (Json.bool b).write, isWordChar c = true := by
      cases b <;> exact List.all_eq_true.mp rfl
    obtain ⟨hleft, hnone⟩ := value?_word hw hrest h
    rw [hnone]
    exact ⟨hleft, nofun⟩
  | number ht =>
    obtain ⟨hleft, hnone⟩ := value?_word ht hrest h
    rw [hnone]
    exact ⟨hleft, nofun⟩
  | string s =>
    obtain ⟨hleft, rfl⟩ := value?_string h
    exact ⟨.inl hleft, nofun⟩
  | @array items hitems ih =>
    rw [write, writeAll_eq] at h
    have hparts : ∀ p ∈ items.map write, Apart p := by
      refine List.forall_mem_map.mpr fun j hj => ?_
      exact fun hrest h => (ih j hj hrest h).1
    have hstarts : ∀ p ∈ items.map write, ∀ c cs, p = c :: cs → isGap c = false ∧ c ≠ ']' :=
      List.forall_mem_map.mpr fun j hj => write_starts (hitems j hj)
    obtain ⟨hleft, hnone⟩ := value?_array hparts hstarts h
    rw [hnone]
    exact ⟨.inl hleft, nofun⟩
  | @object ms hms ih =>
    rw [write, writeMembers_eq, inKeyOrder] at h
    have hperm := List.mergeSort_perm (ms.map fun m => (m.key, m.value.write))
      fun a b => decide (a.1 ≤ b.1)
    generalize List.mergeSort _ _ = sorted at h hperm
    have happart : ∀ m ∈ sorted, Apart m.2 := by
      intro p hp
      obtain ⟨m, hm, rfl⟩ := List.mem_map.mp (hperm.mem_iff.mp hp)
      exact fun hrest h => (ih m hm hrest h).1
    obtain ⟨hleft, hnames⟩ := value?_object happart h
    rw [hnames]
    refine ⟨.inl hleft, ?_⟩
    rintro _ ⟨⟩
    exact ⟨_, rfl, by simpa [Function.comp_def] using hperm.map (·.1)⟩

/-- What is read of a written value is an object only if the value is one, with the same names. -/
theorem names?_of_parse_write {j v : Json} (hj : j.Wordy) (h : parse? j.write = some v)
    {names : List String} (hnames : v.names? = some names) :
    ∃ names', j.names? = some names' ∧ names.Perm names' := by
  unfold parse? at h
  obtain ⟨⟨v', rest⟩, hvalue, h⟩ := Option.bind_eq_some_iff.mp h
  obtain ⟨_, hv⟩ := Option.ite_none_right_eq_some.mp h
  cases hv
  have hstops : Stops [] := nofun
  rw [← List.append_nil j.write] at hvalue
  exact (value?_write hj hstops hvalue).2 names hnames

end SchemaLoom.Json

import SchemaLoom.Proofs.FlowTokens
import SchemaLoom.Yaml.Node

/-!
# Nodes of JSON texts

Where a JSON text is read as YAML, its value takes the pieces of the text, and nothing
else. Its object becomes a mapping with an entry for every member; the text of the entry's
key is the name of the member, if there is no gap in that.
-/

namespace SchemaLoom.Yaml

set_option autoImplicit false

namespace Compose

open Json (pieces itemPieces memberPieces ownPieces)

theorem run_bind {α β : Type} {m : Compose α} {f : α → Compose β} {s s' : Composer} {b : β}
    (h : (m >>= f).run s = some (b, s')) :
    ∃ a s₁, m.run s = some (a, s₁) ∧ (f a).run s₁ = some (b, s') := by
  obtain ⟨⟨a, s₁⟩, hm, hf⟩ := Option.bind_eq_some_iff.mp (show (m.run s).bind _ = _ from h)
  exact ⟨a, s₁, hm, hf⟩

variable {s s' : Composer} {p : Json.Piece} {ps : List Json.Piece}

/-- A token that is looked at is a key token, or it shows the first piece. -/
theorem peek_cons {t : Token} (hs : s.scanner.Holds (p :: ps)) (h : peek.run s = some (t, s')) :
    s'.scanner.Holds (p :: ps) ∧
      (t.lexeme = .key ∧ p.isClosing = false ∧ s'.scanner.take.Holds (p :: ps) ∨
        Shows t.lexeme p ∧ s'.scanner.take.Holds ps) := by
  rw [peek] at h
  obtain ⟨_, _, hget, h⟩ := run_bind h
  cases hget
  split at h
  · next t' scanner hpeek =>
    cases h
    obtain ⟨hholds, ⟨hkey, hp, htake⟩ | hshows⟩ := hs.peek? hpeek
    · exact ⟨hholds, .inl ⟨hkey, hp p rfl, htake⟩⟩
    · exact ⟨hholds, .inr (hshows p ps rfl)⟩
  · cases h

/-- Such a token is no anchor, tag or alias. -/
theorem peek_lexeme {t : Token} (hs : s.scanner.Holds (p :: ps)) (h : peek.run s = some (t, s')) :
    t.lexeme = .key ∨ Shows t.lexeme p := by
  obtain ⟨_, ⟨hkey, _⟩ | ⟨hshows, _⟩⟩ := peek_cons hs h
  · exact .inl hkey
  · exact .inr hshows

/-- There are no anchors and no tags in front of a piece. -/
theorem run_properties {anchor tag : Option String} (hs : s.scanner.Holds (p :: ps))
    (h : properties.run s = some ((anchor, tag), s')) :
    anchor = none ∧ tag = none ∧ s'.scanner.Holds (p :: ps) := by
  rw [properties] at h
  obtain ⟨a, s₁, hanchor, h⟩ := run_bind h
  obtain ⟨t, s₂, hpeek, hanchor⟩ := run_bind hanchor
  have hs₂ := (peek_cons hs hpeek).1
  have hlexeme := peek_lexeme hs hpeek
  split at hanchor
  · next heq =>
    rw [heq] at hlexeme
    rcases hlexeme with h | h <;> cases h
  · cases hanchor
    obtain ⟨b, s₃, htag, h⟩ := run_bind h
    obtain ⟨t', s₄, hpeek', htag⟩ := run_bind htag
    have hs₄ := (peek_cons hs₂ hpeek').1
    have hlexeme' := peek_lexeme hs₂ hpeek'
    split at htag
    · next heq =>
      rw [heq] at hlexeme'
      rcases hlexeme' with h | h <;> cases h
    · cases htag
      cases h
      exact ⟨rfl, rfl, hs₄⟩

/-- A node takes the first piece, which a value must start with, and goes on by that. -/
theorem run_node {fuel : Nat} {place : Place} {n : Node} (hs : s.scanner.Holds (p :: ps))
    (h : (node (fuel + 1) place).run s = some (n, s')) : ∃ s₁ t, s₁.scanner.Holds ps ∧
      Shows t p ∧ ∃ line, match t with
        | .scalar style text => n = .scalar line (scalarTag style text) text ∧ s' = s₁
        | .flowSequenceStart => ∃ items, (flowItems fuel true).run s₁ = some (items, s') ∧
            n = .sequence line "!!seq" items
        | .flowMappingStart => ∃ entries, (flowEntries fuel true).run s₁ = some (entries, s') ∧
            n = .mapping line "!!map" entries
        | _ => False := by
  rw [node] at h
  obtain ⟨first, s₁, hfirst, h⟩ := run_bind h
  have hs₁ := (peek_cons hs hfirst).1
  have hlexeme := peek_lexeme hs hfirst
  split at h
  · next heq =>
    rw [heq] at hlexeme
    rcases hlexeme with h | h <;> cases h
  · obtain ⟨⟨anchor, tag⟩, s₂, hproperties, h⟩ := run_bind h
    obtain ⟨rfl, rfl, hs₂⟩ := run_properties hs₁ hproperties
    obtain ⟨t, s₃, ht, h⟩ := run_bind h
    obtain ⟨_, ⟨hkey, _⟩ | ⟨hshows, htake⟩⟩ := peek_cons hs₂ ht
    · rw [hkey] at h
      cases h
    · refine ⟨{ s₃ with scanner := s₃.scanner.take }, t.lexeme, htake, hshows, first.line, ?_⟩
      generalize t.lexeme = l at h hshows
      cases hshows with
      | text =>
        cases h
        exact ⟨rfl, rfl⟩
      | word =>
        cases h
        exact ⟨rfl, rfl⟩
      | openObject =>
        obtain ⟨_, s₄, hskip, h⟩ := run_bind h
        cases hskip
        obtain ⟨slot, s₄, hslot, h⟩ := run_bind h
        cases hslot
        obtain ⟨entries, s₄, hentries, h⟩ := run_bind h
        cases h
        exact ⟨entries, hentries, rfl⟩
      | openArray =>
        obtain ⟨_, s₄, hskip, h⟩ := run_bind h
        cases hskip
        obtain ⟨slot, s₄, hslot, h⟩ := run_bind h
        cases hslot
        obtain ⟨items, s₄, hitems, h⟩ := run_bind h
        cases h
        exact ⟨items, hitems, rfl⟩
      | closeObject | closeArray | comma | colon => cases h

/-! ### Items and entries -/

/-- The comma between two items or entries. -/
def comma : Compose Unit := do
  if (← peek).lexeme != .flowEntry then failure
  skip

/-- The items from one on, unless the sequence ends in front of it. -/
def itemsFrom (fuel : Nat) : Compose (List Node) := do
  let t ← peek
  match t.lexeme with
  | .flowSequenceEnd => skip; pure []
  | .key =>
    skip
    let k ← flowPairKey fuel
    let v ← flowPairValue fuel
    return .mapping t.line "!!map" [(k, v)] :: (← flowItems fuel false)
  | _ =>
    let n ← node fuel { block := false }
    return n :: (← flowItems fuel false)

/-- The entries from one on, unless the mapping ends in front of it. -/
def entriesFrom (fuel : Nat) : Compose (List (Node × Node)) := do
  let t ← peek
  match t.lexeme with
  | .flowMappingEnd => skip; pure []
  | .key =>
    skip
    let k ← nodeUnless fuel [.value, .flowEntry, .flowMappingEnd] none { block := false }
    let v ← flowValue fuel
    return (k, v) :: (← flowEntries fuel false)
  | _ =>
    let k ← node fuel { block := false }
    let v := emptyAt (← peek).line
    return (k, v) :: (← flowEntries fuel false)

theorem comma_bind {α : Type} (m : Compose α) : (comma >>= fun _ => m) = (do
    let t ← peek
    if t.lexeme != .flowEntry then failure else do
      skip
      m) := by
  rw [comma, bind_assoc]
  refine bind_congr fun t => ?_
  split <;> rfl

theorem flowItems_succ (fuel : Nat) (first : Bool) : flowItems (fuel + 1) first = (do
    if (← peek).lexeme == .flowSequenceEnd then do
      skip
      pure []
    else if first then itemsFrom fuel else do
      comma
      itemsFrom fuel) := by
  rw [flowItems]
  refine bind_congr fun t => ?_
  split
  · rfl
  · cases first
    · simp only [Bool.not_false, if_true, Bool.false_eq_true, if_false, comma_bind]
      refine bind_congr fun t => ?_
      split <;> rfl
    · rfl

theorem flowEntries_succ (fuel : Nat) (first : Bool) : flowEntries (fuel + 1) first = (do
    if (← peek).lexeme == .flowMappingEnd then do
      skip
      pure []
    else if first then entriesFrom fuel else do
      comma
      entriesFrom fuel) := by
  rw [flowEntries]
  refine bind_congr fun t => ?_
  split
  · rfl
  · cases first
    · simp only [Bool.not_false, if_true, Bool.false_eq_true, if_false, comma_bind]
      refine bind_congr fun t => ?_
      split <;> rfl
    · rfl

theorem run_comma {u : Unit} (hs : s.scanner.Holds (p :: ps)) (h : comma.run s = some (u, s')) :
    p = .comma ∧ s'.scanner.Holds ps := by
  rw [comma] at h
  obtain ⟨t, s₁, ht, h⟩ := run_bind h
  obtain ⟨_, htoken⟩ := peek_cons hs ht
  split at h
  · cases h
  · next hentry =>
    cases h
    have hentry : t.lexeme = .flowEntry := by simpa using hentry
    rw [hentry] at htoken
    obtain ⟨hkey, _⟩ | ⟨hshows, htake⟩ := htoken
    · cases hkey
    · cases hshows
      exact ⟨rfl, htake⟩

/-! ### Values -/

/-- There is no gap in a text. -/
def Gapless (t : String) : Prop := ∀ c ∈ t.toList, isGap c = false

def HasEntries (entries : List (Node × Node)) (ms : List Member) : Prop :=
  ∀ m ∈ ms, Gapless m.key → ∃ e ∈ entries, e.1.text = m.key

/-- What a node keeps of a value. -/
def Keeps (n : Node) : Json → Prop
  | .string t => Gapless t → n.text = t
  | .object ms => HasEntries n.entries ms
  | _ => True

/-- Tokens that no value starts with. -/
def isStop : Lexeme → Bool
  | .value | .flowEntry | .flowMappingEnd | .flowSequenceEnd => true
  | _ => false

theorem not_isStop {l : Lexeme} (h : l = .key ∨ Shows l p) (hp : p.isStart = true) :
    isStop l = false := by
  rcases h with rfl | h
  · rfl
  · cases h <;> first | rfl | cases hp

/-- Readers with some fuel take the pieces they are there for. -/
structure Takes (fuel : Nat) : Prop where
  node : ∀ {j : Json} {ps : List Json.Piece} {s s' : Composer} {place : Place} {n : Node},
    s.scanner.Holds (pieces j ++ ps) → (node fuel place).run s = some (n, s') →
      s'.scanner.Holds ps ∧ Keeps n j
  items : ∀ {js : List Json} {b : Bool} {ps : List Json.Piece} {s s' : Composer} {ns : List Node},
    s.scanner.Holds ((if b then (itemPieces js).tail else itemPieces js) ++ .closeArray :: ps) →
      (flowItems fuel b).run s = some (ns, s') → s'.scanner.Holds ps
  entries : ∀ {ms : List Member} {b : Bool} {ps : List Json.Piece} {s s' : Composer}
    {es : List (Node × Node)},
    s.scanner.Holds
        ((if b then (memberPieces ms).tail else memberPieces ms) ++ .closeObject :: ps) →
      (flowEntries fuel b).run s = some (es, s') → s'.scanner.Holds ps ∧ HasEntries es ms
  nodeUnless : ∀ {j : Json} {ps : List Json.Piece} {s s' : Composer} {place : Place} {n : Node}
    {stops : List Lexeme} {mark : Option Token}, stops.all isStop = true →
    s.scanner.Holds (pieces j ++ ps) → (nodeUnless fuel stops mark place).run s = some (n, s') →
      s'.scanner.Holds ps ∧ Keeps n j
  pairKey : ∀ {j : Json} {ps : List Json.Piece} {s s' : Composer} {n : Node},
    s.scanner.Holds (pieces j ++ ps) → (flowPairKey fuel).run s = some (n, s') →
      s'.scanner.Holds ps
  pairValue : ∀ {p : Json.Piece} {ps : List Json.Piece} {s s' : Composer} {n : Node}, p ≠ .colon →
    s.scanner.Holds (p :: ps) → (flowPairValue fuel).run s = some (n, s') →
      s'.scanner.Holds (p :: ps)
  /-- The colon stays where a key token is in front of it. -/
  value : ∀ {j : Json} {ps : List Json.Piece} {s s' : Composer} {n : Node},
    s.scanner.Holds (.colon :: (pieces j ++ ps)) → (flowValue fuel).run s = some (n, s') →
      s'.scanner.Holds ps ∨ s'.scanner.Holds (.colon :: (pieces j ++ ps))
  /-- No entry starts with a colon that is left over. -/
  not_colon : ∀ {ps : List Json.Piece} {s s' : Composer} {es : List (Node × Node)},
    s.scanner.Holds (.colon :: ps) → (flowEntries fuel false).run s ≠ some (es, s')

namespace Takes
variable {fuel : Nat}

theorem node_succ (ih : Takes fuel) {j : Json} {place : Place} {n : Node}
    (hs : s.scanner.Holds (pieces j ++ ps))
    (h : (Compose.node (fuel + 1) place).run s = some (n, s')) :
    s'.scanner.Holds ps ∧ Keeps n j := by
  cases j with
  | null | bool | number =>
    obtain ⟨s₁, t, hs₁, hshows, line, ht⟩ := run_node hs h
    cases hshows
    obtain ⟨rfl, rfl⟩ := ht
    exact ⟨hs₁, trivial⟩
  | string text =>
    obtain ⟨s₁, t, hs₁, hshows, line, ht⟩ := run_node hs h
    cases hshows with
    | text hsame =>
      obtain ⟨rfl, rfl⟩ := ht
      exact ⟨hs₁, hsame⟩
  | array js =>
    rw [pieces, List.cons_append, List.cons_append, List.append_assoc] at hs
    obtain ⟨s₁, t, hs₁, hshows, line, ht⟩ := run_node hs h
    cases hshows
    obtain ⟨items, hitems, rfl⟩ := ht
    exact ⟨ih.items (b := true) hs₁ hitems, trivial⟩
  | object ms =>
    rw [pieces, List.cons_append, List.cons_append, List.append_assoc] at hs
    obtain ⟨s₁, t, hs₁, hshows, line, ht⟩ := run_node hs h
    cases hshows
    obtain ⟨entries, hentries, rfl⟩ := ht
    exact ih.entries (b := true) hs₁ hentries

/-- The first piece of a value is looked at. -/
theorem peek_start {j : Json} {t : Token} (hs : s.scanner.Holds (pieces j ++ ps))
    (h : peek.run s = some (t, s')) : s'.scanner.Holds (pieces j ++ ps) ∧ isStop t.lexeme = false ∧
      (t.lexeme = .key → s'.scanner.take.Holds (pieces j ++ ps)) := by
  obtain ⟨p, qs, hpieces, hstart⟩ := Json.exists_pieces_eq_cons j
  rw [hpieces, List.cons_append] at hs ⊢
  obtain ⟨hs', htoken⟩ := peek_cons hs h
  refine ⟨hs', not_isStop (peek_lexeme hs h) hstart, fun hkey => ?_⟩
  obtain ⟨_, _, htake⟩ | ⟨hshows, _⟩ := htoken
  · exact htake
  · rw [hkey] at hshows
    cases hshows

theorem nodeUnless_succ (ih : Takes fuel) {j : Json} {place : Place} {n : Node}
    {stops : List Lexeme} {mark : Option Token} (hstops : stops.all isStop = true)
    (hs : s.scanner.Holds (pieces j ++ ps))
    (h : (Compose.nodeUnless (fuel + 1) stops mark place).run s = some (n, s')) :
    s'.scanner.Holds ps ∧ Keeps n j := by
  rw [Compose.nodeUnless] at h
  obtain ⟨t, s₁, ht, h⟩ := run_bind h
  obtain ⟨hs₁, hstop, _⟩ := peek_start hs ht
  have hnot : isOneOf t.lexeme stops = false := by
    refine Bool.eq_false_iff.mpr fun hmem => ?_
    rw [List.all_eq_true.mp hstops _ (List.contains_iff_mem.mp hmem)] at hstop
    cases hstop
  rw [hnot, if_neg nofun] at h
  exact ih.node hs₁ h

theorem pairKey_succ (ih : Takes fuel) {j : Json} {n : Node} (hs : s.scanner.Holds (pieces j ++ ps))
    (h : (flowPairKey (fuel + 1)).run s = some (n, s')) : s'.scanner.Holds ps := by
  rw [flowPairKey] at h
  obtain ⟨t, s₁, ht, h⟩ := run_bind h
  obtain ⟨hs₁, hstop, _⟩ := peek_start hs ht
  have hnot : isOneOf t.lexeme [.value, .flowEntry, .flowSequenceEnd] = false := by
    cases hl : t.lexeme with
    | value | flowEntry | flowSequenceEnd => rw [hl] at hstop; cases hstop
    | _ => rfl
  rw [hnot, if_neg nofun] at h
  exact (ih.node hs₁ h).1

theorem pairValue_succ {n : Node} (hp : p ≠ .colon) (hs : s.scanner.Holds (p :: ps))
    (h : (flowPairValue (fuel + 1)).run s = some (n, s')) : s'.scanner.Holds (p :: ps) := by
  rw [flowPairValue] at h
  obtain ⟨t, s₁, ht, h⟩ := run_bind h
  split at h
  · next hvalue =>
    have hlexeme := peek_lexeme hs ht
    rw [beq_iff_eq.mp hvalue] at hlexeme
    rcases hlexeme with hkey | hshows
    · cases hkey
    · cases hshows
      exact absurd rfl hp
  · cases h
    exact (peek_cons hs ht).1

theorem value_succ (ih : Takes fuel) {j : Json} {n : Node}
    (hs : s.scanner.Holds (.colon :: (pieces j ++ ps)))
    (h : (flowValue (fuel + 1)).run s = some (n, s')) :
    s'.scanner.Holds ps ∨ s'.scanner.Holds (.colon :: (pieces j ++ ps)) := by
  rw [flowValue] at h
  obtain ⟨t, s₁, ht, h⟩ := run_bind h
  obtain ⟨hs₁, htoken⟩ := peek_cons hs ht
  split at h
  · next hvalue =>
    rw [beq_iff_eq.mp hvalue] at htoken
    obtain ⟨hkey, _⟩ | ⟨_, htake⟩ := htoken
    · cases hkey
    · obtain ⟨_, s₂, hskip, h⟩ := run_bind h
      cases hskip
      exact .inl (ih.nodeUnless (by rfl) htake h).1
  · cases h
    exact .inr hs₁

theorem not_colon_succ {es : List (Node × Node)} (hs : s.scanner.Holds (.colon :: ps)) :
    (flowEntries (fuel + 1) false).run s ≠ some (es, s') := by
  intro h
  rw [flowEntries_succ] at h
  obtain ⟨t, s₁, ht, h⟩ := run_bind h
  have hlexeme := peek_lexeme hs ht
  split at h
  · next hend =>
    rw [beq_iff_eq.mp hend] at hlexeme
    rcases hlexeme with h | h <;> cases h
  · rw [if_neg nofun] at h
    obtain ⟨_, s₂, hcomma, _⟩ := run_bind h
    obtain ⟨hp, _⟩ := run_comma (peek_cons hs ht).1 hcomma
    cases hp

theorem itemsFrom_cons (ih : Takes fuel) {j : Json} {js : List Json} {ns : List Node}
    (hs : s.scanner.Holds (pieces j ++ (itemPieces js ++ .closeArray :: ps)))
    (h : (itemsFrom fuel).run s = some (ns, s')) : s'.scanner.Holds ps := by
  rw [itemsFrom] at h
  obtain ⟨t, s₁, ht, h⟩ := run_bind h
  obtain ⟨hs₁, hstop, hkey⟩ := peek_start hs ht
  split at h
  · next heq =>
    rw [heq] at hstop
    cases hstop
  · next heq =>
    obtain ⟨_, s₂, hskip, h⟩ := run_bind h
    cases hskip
    obtain ⟨k, s₂, hk, h⟩ := run_bind h
    have hs₂ := ih.pairKey (hkey heq) hk
    obtain ⟨v, s₃, hv, h⟩ := run_bind h
    have hs₃ : s₃.scanner.Holds (itemPieces js ++ .closeArray :: ps) := by
      cases js with
      | nil => exact ih.pairValue nofun hs₂ hv
      | cons j js => exact ih.pairValue nofun hs₂ hv
    obtain ⟨ns', s₄, hns, h⟩ := run_bind h
    cases h
    exact ih.items (b := false) hs₃ hns
  · obtain ⟨n, s₂, hn, h⟩ := run_bind h
    obtain ⟨ns', s₃, hns, h⟩ := run_bind h
    cases h
    exact ih.items (b := false) (ih.node hs₁ hn).1 hns

theorem items_succ (ih : Takes fuel) {js : List Json} {first : Bool} {ns : List Node}
    (hs : s.scanner.Holds
      ((if first then (itemPieces js).tail else itemPieces js) ++ .closeArray :: ps))
    (h : (flowItems (fuel + 1) first).run s = some (ns, s')) : s'.scanner.Holds ps := by
  rw [flowItems_succ] at h
  obtain ⟨t, s₁, ht, h⟩ := run_bind h
  cases js with
  | nil =>
    have hs : s.scanner.Holds (.closeArray :: ps) := by cases first <;> exact hs
    obtain ⟨_, ⟨_, hp, _⟩ | ⟨hshows, htake⟩⟩ := peek_cons hs ht
    · cases hp
    · generalize t.lexeme = l at h hshows
      cases hshows
      cases h
      exact htake
  | cons j js =>
    cases first with
    | true =>
      simp only [if_true, itemPieces, List.cons_append, List.tail_cons, List.append_assoc] at hs
      obtain ⟨hs₁, hstop, _⟩ := peek_start hs ht
      split at h
      · next hend =>
        rw [beq_iff_eq.mp hend] at hstop
        cases hstop
      · exact ih.itemsFrom_cons hs₁ h
    | false =>
      simp only [Bool.false_eq_true, if_false, itemPieces, List.cons_append,
        List.append_assoc] at hs
      have hlexeme := peek_lexeme hs ht
      split at h
      · next hend =>
        rw [beq_iff_eq.mp hend] at hlexeme
        rcases hlexeme with h | h <;> cases h
      · obtain ⟨_, s₂, hcomma, h⟩ := run_bind h
        exact ih.itemsFrom_cons (run_comma (peek_cons hs ht).1 hcomma).2 h

theorem entriesFrom_cons (ih : Takes fuel) {key source : String} {v : Json} {ms : List Member}
    {es : List (Node × Node)}
    (hs : s.scanner.Holds
      (.text key :: .colon :: (pieces v ++ (memberPieces ms ++ .closeObject :: ps))))
    (h : (entriesFrom fuel).run s = some (es, s')) :
    s'.scanner.Holds ps ∧ HasEntries es (⟨key, source, v⟩ :: ms) := by
  rw [entriesFrom] at h
  obtain ⟨t, s₁, ht, h⟩ := run_bind h
  obtain ⟨hs₁, htoken⟩ := peek_cons hs ht
  have hlexeme := peek_lexeme hs ht
  split at h
  · next heq =>
    rw [heq] at hlexeme
    rcases hlexeme with h | h <;> cases h
  · next heq =>
    rw [heq] at htoken
    obtain ⟨_, _, htake⟩ | ⟨hshows, _⟩ := htoken
    · obtain ⟨_, s₂, hskip, h⟩ := run_bind h
      cases hskip
      obtain ⟨k, s₂, hk, h⟩ := run_bind h
      obtain ⟨hs₂, hkey⟩ := ih.nodeUnless (j := .string key) (by rfl) htake hk
      obtain ⟨value, s₃, hv, h⟩ := run_bind h
      obtain ⟨es', s₄, hes, h⟩ := run_bind h
      cases h
      obtain hs₃ | hs₃ := ih.value hs₂ hv
      · obtain ⟨hs₄, hentries⟩ := ih.entries (b := false) hs₃ hes
        refine ⟨hs₄, fun m hm hgapless => ?_⟩
        rcases List.mem_cons.mp hm with rfl | hm
        · exact ⟨_, List.mem_cons_self, hkey hgapless⟩
        · obtain ⟨e, he, heq⟩ := hentries m hm hgapless
          exact ⟨e, List.mem_cons_of_mem _ he, heq⟩
      · exact absurd hes (ih.not_colon hs₃)
    · cases hshows
  · -- without a key token the name is an entry of its own, and then no colon may follow
    obtain ⟨k, s₂, hk, h⟩ := run_bind h
    obtain ⟨hs₂, _⟩ := ih.node (j := .string key) hs₁ hk
    obtain ⟨t', s₃, ht', h⟩ := run_bind h
    obtain ⟨es', s₄, hes, _⟩ := run_bind h
    exact absurd hes (ih.not_colon (peek_cons hs₂ ht').1)

theorem entries_succ (ih : Takes fuel) {ms : List Member} {first : Bool}
    {es : List (Node × Node)}
    (hs : s.scanner.Holds
      ((if first then (memberPieces ms).tail else memberPieces ms) ++ .closeObject :: ps))
    (h : (flowEntries (fuel + 1) first).run s = some (es, s')) :
    s'.scanner.Holds ps ∧ HasEntries es ms := by
  rw [flowEntries_succ] at h
  obtain ⟨t, s₁, ht, h⟩ := run_bind h
  cases ms with
  | nil =>
    have hs : s.scanner.Holds (.closeObject :: ps) := by cases first <;> exact hs
    obtain ⟨_, ⟨_, hp, _⟩ | ⟨hshows, htake⟩⟩ := peek_cons hs ht
    · cases hp
    · generalize t.lexeme = l at h hshows
      cases hshows
      cases h
      exact ⟨htake, nofun⟩
  | cons m ms =>
    obtain ⟨key, source, v⟩ := m
    cases first with
    | true =>
      simp only [if_true, memberPieces, ownPieces, List.cons_append, List.tail_cons,
        List.append_assoc] at hs
      have hlexeme := peek_lexeme hs ht
      split at h
      · next hend =>
        rw [beq_iff_eq.mp hend] at hlexeme
        rcases hlexeme with h | h <;> cases h
      · exact ih.entriesFrom_cons (peek_cons hs ht).1 h
    | false =>
      simp only [Bool.false_eq_true, if_false, memberPieces, ownPieces, List.cons_append,
        List.append_assoc] at hs
      have hlexeme := peek_lexeme hs ht
      split at h
      · next hend =>
        rw [beq_iff_eq.mp hend] at hlexeme
        rcases hlexeme with h | h <;> cases h
      · obtain ⟨_, s₂, hcomma, h⟩ := run_bind h
        exact ih.entriesFrom_cons (run_comma (peek_cons hs ht).1 hcomma).2 h

end Takes

/-- All the readers do, by induction on their fuel. -/
theorem takes (fuel : Nat) : Takes fuel := by
  induction fuel with
  | zero =>
    exact {
      node := fun _ h => by rw [node] at h; cases h
      items := fun _ h => by rw [flowItems] at h; cases h
      entries := fun _ h => by rw [flowEntries] at h; cases h
      nodeUnless := fun _ _ h => by rw [nodeUnless] at h; cases h
      pairKey := fun _ h => by rw [flowPairKey] at h; cases h
      pairValue := fun _ _ h => by rw [flowPairValue] at h; cases h
      value := fun _ h => by rw [flowValue] at h; cases h
      not_colon := fun _ h => by rw [flowEntries] at h; cases h }
  | succ fuel ih =>
    exact {
      node := ih.node_succ
      items := ih.items_succ
      entries := ih.entries_succ
      nodeUnless := ih.nodeUnless_succ
      pairKey := ih.pairKey_succ
      pairValue := Takes.pairValue_succ
      value := ih.value_succ
      not_colon := Takes.not_colon_succ }

/-! ### Documents -/

theorem run_document {fuel : Nat} {ms : List Member} {root : Option Node}
    (hs : s.scanner.Holds (pieces (.object ms)))
    (h : (document fuel).run s = some (root, s')) :
    ∃ n, root = some n ∧ HasEntries n.entries ms := by
  rw [pieces, List.cons_append] at hs
  rw [document] at h
  obtain ⟨t, s₁, ht, h⟩ := run_bind h
  have hs₁ := (peek_cons hs ht).1
  have hlexeme := peek_lexeme hs ht
  split at h
  case h_5 =>
    obtain ⟨_, s₂, hmodify, h⟩ := run_bind h
    cases hmodify
    obtain ⟨n, s₃, hn, h⟩ := run_bind h
    obtain ⟨_, s₄, _, h⟩ := run_bind h
    cases h
    rw [← List.cons_append, ← pieces, ← List.append_nil (pieces _)] at hs₁
    exact ⟨n, rfl, ((takes fuel).node (s := { s₁ with handles := defaultHandles }) hs₁ hn).2⟩
  all_goals
    next heq =>
      rw [heq] at hlexeme
      rcases hlexeme with h | h <;> cases h

end Compose

/-- The text of an object starts with neither a byte order mark nor a stray byte. -/
theorem streamChars?_of_object {t : Text} {cs : List Char} {ms : List Member}
    (hjson : Json.parse? t.toChars = some (.object ms)) (h : streamChars? t = some cs) :
    t.toChars = cs := by
  have hstarts := (Json.ahead_of_parse hjson).startsPiece
  unfold streamChars? at h
  split at h
  · cases hstarts
  · cases hstarts
  · cases hstarts
  · rw [eq_ofChars_of_chars? h, Text.toChars, Text.ofChars, List.map_map]
    exact List.map_id cs

/-- A JSON object that is also a YAML document has an entry for every member there. -/
theorem hasEntries_of_parse {t : Text} {ms : List Member} {d : Option Document}
    (hjson : Json.parse? t.toChars = some (.object ms)) (h : parse? t = some d) :
    ∃ y, d = some y ∧ Compose.HasEntries y.root.entries ms := by
  obtain ⟨cs, hcs, h⟩ := Option.bind_eq_some_iff.mp h
  obtain ⟨scanner, hscanner, h⟩ := Option.bind_eq_some_iff.mp h
  obtain ⟨⟨root, s⟩, hroot, h⟩ := Option.bind_eq_some_iff.mp h
  cases h
  rw [streamChars?_of_object hjson hcs] at hjson
  obtain ⟨n, rfl, hentries⟩ := Compose.run_document
    (.of_start? (Json.ahead_of_parse hjson) hscanner) hroot
  exact ⟨_, rfl, hentries⟩

end SchemaLoom.Yaml

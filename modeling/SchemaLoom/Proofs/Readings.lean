import SchemaLoom.Document.Decode
import SchemaLoom.Proofs.Result

/-!
# Readings that note nothing

A reading goes on behind a fault that it noted, so that what it gives back says
little of what it met. This module takes a reading apart whose faults are none
at its end: no step of it noted anything, because no step forgets what another
one noted. For a mapping read into a record that means each of its keys is one
of the record's fields, or null, or passed over by a reader that is not strict,
and what stands under a field was read without fault as well.

What a mapping merges is not followed.
-/

namespace SchemaLoom

set_option autoImplicit false

@[simp] theorem Text.toDisplay_ofString (s : String) : (Text.ofString s).toDisplay = s := by
  simp [Text.toDisplay, Text.toChars, Text.ofString, Text.ofChars, Function.comp_def, Rune.toChar]

namespace Yaml

/-- The node that is read where `n` stands: the one behind an alias, else `n` itself. -/
def Node.behind? (anchors : Anchors) : Node → Option Node
  | aliasOf _ _ target _ => anchors[target]?
  | n => some n

/-- The characters of a scalar: as written, or decoded from base 64 where the tag asks for it. -/
def characters? (tag text : String) : Option Text :=
  if tag == "!!binary" then
    (Decode.base64Bytes? (text.toList.filter fun c => c != '\n' && c != '\r')).map Text.ofBytes
  else some (Text.ofString text)

/-- What a key denotes: the characters of the scalar behind it. Null is no key. -/
def Node.key? (anchors : Anchors) (k : Node) : Option String :=
  match k.behind? anchors with
  | some (.scalar _ tag t) =>
    if tag == "!!null" then none else (characters? tag t).map Text.toDisplay
  | _ => none

/-- The key is written as what it denotes: no alias, neither in base 64 nor null. -/
def Node.isWrittenOut : Node → Bool
  | scalar _ tag _ => tag != "!!null" && tag != "!!binary"
  | _ => false

theorem Node.key?_of_isWrittenOut {anchors : Anchors} {k : Node} (h : k.isWrittenOut = true) :
    k.key? anchors = some k.text := by
  cases k with
  | scalar line tag t =>
    simp only [isWrittenOut, Bool.and_eq_true, bne_iff_ne] at h
    simp [key?, behind?, characters?, h, text]
  | sequence | mapping | aliasOf => cases h

theorem Scalar.tag_eq_null {v : Scalar} : v.tag = "!!null" ↔ v = .null := by
  cases v <;> simp [Scalar.tag]

theorem null_iff_of_resolve? {tag text : String} {v : Scalar} (h : resolve? tag text = some v) :
    v = .null ↔ tag = "!!null" := by
  unfold resolve? at h
  split at h
  · next htag =>
    cases h
    rcases (Bool.or_eq_true ..).mp htag with htag | htag <;> simp [beq_iff_eq.mp htag]
  · dsimp only at h
    split at h
    · next htag =>
      cases h
      rw [← beq_iff_eq.mp htag, Scalar.tag_eq_null, beq_iff_eq.mp htag]
    · split at h
      · split at h
        · cases h
          simp
        · cases h
      · cases h

namespace Decode

variable {α β σ : Type}

/-! ### Order -/

/-- Noted faults stay noted, and none is thrown: what is thrown is another kind of failure. -/
structure Orderly (d : Decode α) : Prop where
  keeps : ∀ t a t', d t = .ok (a, t') → t.faults <+: t'.faults
  throws : ∀ t e lines, d t = .error e → e.cause ≠ .illTyped lines

namespace Orderly
variable {d : Decode α}

theorem pure {a : α} : Orderly (pure a) where
  keeps := by
    intro t b t' hok
    cases hok
    exact List.prefix_rfl
  throws := by
    intro t e lines he
    cases he

theorem fatal {c : Cause} (hc : ∀ lines, c ≠ .illTyped lines) : Orderly (fatal c : Decode α) where
  keeps := by
    intro t b t' hok
    cases hok
  throws := by
    intro t e lines he
    cases he
    exact hc lines

theorem note {fault : Text} : Orderly (note fault) where
  keeps := by
    intro t b t' hok
    cases hok
    exact List.prefix_append ..
  throws := by
    intro t e lines he
    cases he

theorem bind {f : α → Decode β} (hd : Orderly d) (hf : ∀ a, Orderly (f a)) : Orderly (d >>= f) where
  keeps := by
    intro t b t' hok
    obtain ⟨⟨a, s⟩, ha, hok⟩ := Result.bind_eq_ok.mp hok
    exact (hd.keeps t a s ha).trans ((hf a).keeps s b t' hok)
  throws := by
    intro t e lines he
    rcases Result.bind_eq_error.mp he with he | ⟨⟨a, s⟩, _, he⟩
    · exact hd.throws t e lines he
    · exact (hf a).throws s e lines he

theorem ite {c : Prop} [Decidable c] {d' : Decode α} (h : Orderly d) (h' : Orderly d') :
    Orderly (if c then d else d') := by
  by_cases hc : c
  · rwa [if_pos hc]
  · rwa [if_neg hc]

theorem forM {f : α → Decode PUnit} {xs : List α} (hf : ∀ x, Orderly (f x)) :
    Orderly (xs.forM f) := by
  induction xs with
  | nil => exact .pure
  | cons x xs ih => exact .bind (hf x) fun _ => ih

theorem mapM {f : α → Decode β} {xs : List α} (hf : ∀ x, Orderly (f x)) :
    Orderly (xs.mapM f) := by
  induction xs with
  | nil => exact .pure
  | cons x xs ih =>
    rw [List.mapM_cons]
    exact .bind (hf x) fun _ => .bind ih fun _ => .pure

theorem foldlM {f : σ → α → Decode σ} {xs : List α} {s : σ} (hf : ∀ s x, Orderly (f s x)) :
    Orderly (xs.foldlM f s) := by
  induction xs generalizing s with
  | nil => exact .pure
  | cons x xs ih => exact .bind (hf s x) fun _ => ih

theorem adopt {r : Result α} : Orderly (adopt r) := by
  unfold Decode.adopt
  split
  · exact .pure
  · next f =>
    split
    · exact .bind (.forM fun _ => .note) fun _ => .pure
    · next hcause =>
      constructor
      · intro t b t' hok
        cases hok
      · intro t e lines he
        cases he
        exact hcause lines

theorem count {g : Tally → Tally} {f : Tally → Decode α} (hg : ∀ t, (g t).faults = t.faults)
    (hf : ∀ t, Orderly (f t)) : Orderly (get >>= fun t => set (g t) >>= fun _ => f t) where
  keeps := by
    intro t a t' hok
    have := (hf t).keeps (g t) a t' hok
    rwa [hg t] at this
  throws t e lines he := (hf t).throws (g t) e lines he

theorem tick {scope : Scope} : Orderly (tick scope) :=
  .count (fun _ => rfl) fun _ => .ite (.fatal nofun) .pure

theorem enter {scope : Scope} {n : Node} : Orderly (enter scope n) := by
  refine .bind .tick fun _ => ?_
  cases n with
  | aliasOf line name target occurrence =>
    refine .ite (.bind (.fatal nofun) fun _ => ?_) ?_
    all_goals
      refine .bind .tick fun _ => ?_
      split
      · exact .pure
      · exact .fatal nofun
  | scalar | sequence | mapping => exact .pure

theorem through {r : Reader α} {scope : Scope} {n : Node} (hr : ∀ scope n, Orderly (r scope n)) :
    Orderly (through r scope n) :=
  .bind .enter fun p => hr p.1 p.2

theorem keysDiffer {entries : List (Node × Node)} : Orderly (keysDiffer entries) :=
  .bind (.forM fun _ => .note) fun _ => .pure

theorem refuse {n : Node} {type : String} : Orderly (refuse n type : Decode (Option α)) := by
  refine .bind .keysDiffer fun ok => ?_
  exact .ite (.bind .note fun _ => .pure) .pure

theorem scalarOf {tag text : String} : Orderly (scalarOf tag text) := by
  unfold Decode.scalarOf
  split
  · exact .pure
  · exact .fatal nofun

theorem scalarText {tag text : String} : Orderly (scalarText tag text) := by
  unfold Decode.scalarText
  split
  · split
    · exact .pure
    · exact .fatal nofun
  · exact .pure

theorem text {scope : Scope} {n : Node} : Orderly (text scope n) := by
  cases n with
  | scalar line tag t =>
    refine .bind .scalarOf fun s => ?_
    cases s with
    | null => exact .pure
    | bool | int | float | moment | string => exact .bind .scalarText fun _ => .pure
  | sequence | mapping | aliasOf => exact .refuse

theorem bool {scope : Scope} {n : Node} : Orderly (bool scope n) := by
  cases n with
  | scalar line tag t =>
    refine .bind .scalarOf fun s => ?_
    cases s with
    | null | bool => exact .pure
    | string => exact .ite .pure (.ite .pure .refuse)
    | int | float | moment => exact .refuse
  | sequence | mapping | aliasOf => exact .refuse

theorem int64 {scope : Scope} {n : Node} : Orderly (int64 scope n) := by
  cases n with
  | scalar line tag t =>
    refine .bind .scalarOf fun s => ?_
    split
    · exact .pure
    · exact .ite .pure .refuse
    · exact .ite .refuse .pure
    · exact .pure
    · exact .refuse
  | sequence | mapping | aliasOf => exact .refuse

theorem list {type : String} {item : Reader α} {scope : Scope} {n : Node}
    (hitem : ∀ scope n, Orderly (item scope n)) : Orderly (list type item scope n) := by
  cases n with
  | sequence line tag items => exact .bind (.mapM fun _ => .through hitem) fun _ => .pure
  | scalar line tag t =>
    refine .bind .scalarOf fun s => ?_
    cases s with
    | null => exact .pure
    | bool | int | float | moment | string => exact .refuse
  | mapping | aliasOf => exact .refuse

theorem absent {type : String} {scope : Scope} {n : Node} :
    Orderly (absent type scope n : Decode (Option α)) := by
  cases n with
  | scalar => exact .bind .scalarOf fun _ => .pure
  | sequence | mapping | aliasOf => exact .refuse

theorem unlessNull {null r : Reader α} {scope : Scope} {n : Node}
    (hnull : ∀ scope n, Orderly (null scope n)) (hr : ∀ scope n, Orderly (r scope n)) :
    Orderly (unlessNull null r scope n) :=
  .ite (hnull scope n) (hr scope n)

theorem optional {type : String} {r : Reader α} {scope : Scope} {n : Node}
    (hr : ∀ scope n, Orderly (r scope n)) : Orderly (optional type r scope n) :=
  .unlessNull (fun _ _ => .absent) hr

theorem own {r : Anchors → Node → Result α} {scope : Scope} {n : Node} :
    Orderly (own r scope n) :=
  .adopt

theorem mergeSources {scope : Scope} {n : Node} : Orderly (mergeSources scope n) := by
  unfold Decode.mergeSources
  split
  · exact .ite .pure (.fatal nofun)
  · exact .ite .pure (.fatal nofun)

theorem ownKeys {scope : Scope} {entries : List (Node × Node)} :
    Orderly (ownKeys scope entries) :=
  .bind (.mapM fun _ => .through fun _ _ => .text) fun _ => .pure

end Orderly

theorem Fields.mem_of_lookup {fs : Fields σ} {key : String} {set : Scope → Node → σ → Decode σ}
    (h : fs.fields.lookup key = some set) : (key, set) ∈ fs.fields := by
  obtain ⟨before, after, heq, _⟩ := List.lookup_eq_some_iff.mp h
  rw [heq]
  exact List.mem_append_right before List.mem_cons_self

/-- The fields of a record are read in an orderly way. -/
def Fields.Orderly (fs : Fields σ) : Prop :=
  ∀ f ∈ fs.fields, ∀ scope n s, Decode.Orderly (f.2 scope n s)

namespace Orderly
variable {fs : Fields σ} {scope : Scope} {entries : List (Node × Node)} {s : σ}

theorem field {key : String} {r : Reader α} {set : σ → α → σ} {n : Node}
    (hr : ∀ scope n, Orderly (r scope n)) : Orderly ((field key r set).2 scope n s) := by
  refine .bind (.through hr) fun a => ?_
  cases a with
  | none | some => exact .pure

theorem entriesInto {done : List String} {merged : Option (List String)} (hfs : fs.Orderly) :
    Orderly (entriesInto fs scope entries done merged s) := by
  induction entries generalizing done merged s with
  | nil => exact .pure
  | cons e rest ih =>
    obtain ⟨k, v⟩ := e
    unfold Decode.entriesInto
    refine .ite ih (.bind (.through fun _ _ => .text) fun key => ?_)
    cases key with
    | none => exact ih
    | some key =>
      refine .ite ih ?_
      split
      · next set hset =>
        have hmem := Fields.mem_of_lookup hset
        exact .ite (.bind .note fun _ => ih) (.bind (hfs _ hmem scope v s) fun _ => ih)
      · exact .ite (.bind .note fun _ => ih) ih

theorem mergeInto {merged : Option (List String)}
    {into : Scope → List (Node × Node) → Option (List String) → σ →
      Decode (Option (σ × Option (List String)))}
    (hinto : ∀ scope entries merged s, Orderly (into scope entries merged s)) :
    Orderly (mergeInto into scope entries merged s) := by
  have hstep (acc : σ × Option (List String)) (n : Node) :
      Orderly (do
        let p ← Decode.enter scope n
        return (← into p.1 p.2.entries acc.2 acc.1).getD acc) :=
    .bind .enter fun p => .bind (hinto p.1 p.2.entries acc.2 acc.1) fun _ => .pure
  unfold Decode.mergeInto
  split
  · exact .pure
  · cases merged with
    | some =>
      refine .bind .pure fun _ => .bind .mergeSources fun _ => ?_
      exact .bind (.foldlM hstep) fun _ => .pure
    | none =>
      refine .bind .ownKeys fun _ => .bind .mergeSources fun _ => ?_
      exact .bind (.foldlM hstep) fun _ => .pure

theorem mappingInto {fuel : Nat} {merged : Option (List String)} (hfs : fs.Orderly) :
    Orderly (mappingInto fs fuel scope entries merged s) := by
  induction fuel generalizing scope entries merged s with
  | zero => exact .fatal nofun
  | succ fuel ih =>
    exact .bind .keysDiffer fun _ => .ite .pure
      (.bind (.entriesInto hfs) fun _ => .mergeInto fun _ _ _ _ => ih)

theorem record {init : σ} {n : Node} (hfs : fs.Orderly) : Orderly (record fs init scope n) := by
  cases n with
  | mapping => exact .bind (.mappingInto hfs) fun _ => .pure
  | scalar =>
    refine .bind .scalarOf fun v => ?_
    cases v with
    | null => exact .pure
    | bool | int | float | moment | string => exact .refuse
  | sequence => exact .refuse
  | aliasOf => exact .fatal nofun

end Orderly

/-! ### Results -/

/-- Whatever a reading ends on has a property, noted faults or not. -/
def Gives (d : Decode α) (P : α → Prop) : Prop := ∀ t a t', d t = .ok (a, t') → P a

namespace Gives
variable {d : Decode α} {P Q : α → Prop}

theorem mono (h : Gives d P) (hPQ : ∀ a, P a → Q a) : Gives d Q :=
  fun t a t' hok => hPQ a (h t a t' hok)

theorem pure {a : α} (h : P a) : Gives (pure a) P := by
  intro t b t' hok
  cases hok
  exact h

theorem fatal {c : Cause} : Gives (fatal c) P := by
  intro t a t' hok
  cases hok

theorem bind {f : α → Decode β} {R : β → Prop} (hd : Gives d P) (hf : ∀ a, P a → Gives (f a) R) :
    Gives (d >>= f) R := by
  intro t b t' hok
  obtain ⟨⟨a, s⟩, ha, hok⟩ := Result.bind_eq_ok.mp hok
  exact hf a (hd t a s ha) s b t' hok

theorem right {f : α → Decode β} {R : β → Prop} (hf : ∀ a, Gives (f a) R) : Gives (d >>= f) R :=
  bind (P := fun _ => True) (fun _ _ _ _ => trivial) fun a _ => hf a

theorem ite {c : Prop} [Decidable c] {d' : Decode α} (h : Gives d P) (h' : Gives d' P) :
    Gives (if c then d else d') P := by
  by_cases hc : c
  · rwa [if_pos hc]
  · rwa [if_neg hc]

theorem mapM {f : α → Decode β} {xs : List α} {Q : β → Prop} (hf : ∀ x, Gives (f x) Q) :
    Gives (xs.mapM f) fun ys => ∀ y ∈ ys, Q y := by
  induction xs with
  | nil => exact pure nofun
  | cons x xs ih =>
    rw [List.mapM_cons]
    exact (hf x).bind fun y hy => ih.bind fun ys hys => pure (List.forall_mem_cons.mpr ⟨hy, hys⟩)

theorem foldlM {f : σ → α → Decode σ} {xs : List α} {J : σ → Prop}
    (hf : ∀ s x, J s → Gives (f s x) J) {s : σ} (hs : J s) : Gives (xs.foldlM f s) J := by
  induction xs generalizing s with
  | nil => exact pure hs
  | cons x xs ih =>
    rw [List.foldlM_cons]
    exact (hf s x hs).bind fun s' hs' => ih hs'

theorem enter {scope : Scope} {n : Node} : Gives (enter scope n) fun p =>
    n.behind? scope.anchors = some p.2 ∧ ∃ expanding, p.1 = { scope with expanding } := by
  refine right fun _ => ?_
  cases n with
  | aliasOf line name target occurrence =>
    dsimp only
    split
    · exact fatal
    · refine right fun _ => ?_
      split
      · next m hm => exact pure ⟨hm, _, rfl⟩
      · exact fatal
  | scalar | sequence | mapping => exact pure ⟨rfl, scope.expanding, rfl⟩

theorem through {r : Reader α} {scope : Scope} {n : Node} {P : Option α → Prop}
    (hr : ∀ m expanding, n.behind? scope.anchors = some m → Gives (r { scope with expanding } m) P) :
    Gives (through r scope n) P := by
  refine enter.bind ?_
  rintro ⟨_, m⟩ ⟨hm, expanding, rfl⟩
  exact hr m expanding hm

theorem scalarOf {tag text : String} :
    Gives (scalarOf tag text) fun v => resolve? tag text = some v := by
  unfold Decode.scalarOf
  split
  · next v hv => exact pure hv
  · exact fatal

theorem scalarText {tag t : String} :
    Gives (scalarText tag t) fun x => characters? tag t = some x := by
  unfold Decode.scalarText characters?
  split
  · split
    · next bs hbs => exact pure (congrArg (Option.map Text.ofBytes) hbs)
    · exact fatal
  · exact pure rfl

theorem text_scalar {scope : Scope} {line : Nat} {tag t : String} :
    Gives (text scope (.scalar line tag t)) fun a => (resolve? tag t).isSome = true ∧
      (a = none → tag = "!!null") ∧ a = if tag == "!!null" then none else characters? tag t := by
  refine scalarOf.bind fun v hv => ?_
  have hnull := null_iff_of_resolve? hv
  rw [hv]
  cases v with
  | null =>
    have htag := hnull.mp rfl
    exact pure ⟨rfl, fun _ => htag, by rw [if_pos (beq_iff_eq.mpr htag)]⟩
  | bool | int | float | moment | string =>
    refine scalarText.bind fun x hx => pure ⟨rfl, nofun, ?_⟩
    rw [if_neg fun htag => (nomatch hnull.mpr (beq_iff_eq.mp htag)), hx]

theorem refuse {n : Node} {type : String} :
    Gives (refuse n type : Decode (Option α)) fun a => a = none :=
  right fun _ => ite (right fun _ => pure rfl) (pure rfl)

/-- A key that is read is read as what it denotes. -/
theorem key? {scope : Scope} {k : Node} : Gives (Decode.through text scope k) fun a =>
    ∀ x, a = some x → k.key? scope.anchors = some x.toDisplay := by
  refine through fun m expanding hm => ?_
  unfold Node.key?
  rw [hm]
  cases m with
  | scalar line tag t =>
    refine text_scalar.mono fun a h x hx => ?_
    rw [h.2.2] at hx
    split at hx
    · cases hx
    · next htag =>
      dsimp only
      rw [if_neg htag, hx, Option.map_some]
  | sequence | mapping | aliasOf =>
    refine refuse.mono fun a ha x hx => ?_
    cases ha.symm.trans hx

end Gives

/-! ### Clean readings -/

/-- A reading that can end on `a` with no fault noted. -/
def Clean (d : Decode α) (a : α) : Prop := ∃ t t', d t = .ok (a, t') ∧ t'.faults = []

namespace Clean
variable {a : α}

theorem of_gives {d : Decode α} {P : α → Prop} (h : Clean d a) (hd : Gives d P) : P a := by
  obtain ⟨t, t', hok, _⟩ := h
  exact hd t a t' hok

theorem bind {d : Decode α} {f : α → Decode β} {b : β} (h : Clean (d >>= f) b)
    (hf : ∀ a, Orderly (f a)) : ∃ a, Clean d a ∧ Clean (f a) b := by
  obtain ⟨t, t', hok, hclean⟩ := h
  obtain ⟨⟨a, s⟩, ha, hok⟩ := Result.bind_eq_ok.mp hok
  have hs : s.faults = [] := List.prefix_nil.mp (hclean ▸ (hf a).keeps s b t' hok)
  exact ⟨a, ⟨t, s, ha, hs⟩, s, t', hok, hclean⟩

theorem right {d : Decode α} {f : α → Decode β} {b : β} (h : Clean (d >>= f) b) :
    ∃ a, Clean (f a) b := by
  obtain ⟨t, t', hok, hclean⟩ := h
  obtain ⟨⟨a, s⟩, _, hok⟩ := Result.bind_eq_ok.mp hok
  exact ⟨a, s, t', hok, hclean⟩

theorem of_pure {b : α} (h : Clean (pure a) b) : b = a := by
  obtain ⟨t, t', hok, _⟩ := h
  cases hok
  rfl

theorem not_fatal {c : Cause} : ¬ Clean (fatal c) a := by
  rintro ⟨t, t', hok, _⟩
  cases hok

theorem not_note {fault : Text} {u : Unit} : ¬ Clean (note fault) u := by
  rintro ⟨t, t', hok, hclean⟩
  cases hok
  simp at hclean

theorem forM_note {fault : β → Text} {xs : List β} {u : Unit}
    (h : Clean (xs.forM fun x => note (fault x)) u) : xs = [] := by
  cases xs with
  | nil => rfl
  | cons x xs =>
    obtain ⟨_, hnote, _⟩ := Clean.bind h fun _ => .forM fun _ => .note
    exact absurd hnote not_note

theorem run {d : Decode α} (h : Decode.run d = .ok a) : Clean d a := by
  unfold Decode.run at h
  split at h
  · cases h
  · next b t hok =>
    split at h
    · next hclean =>
      cases h
      exact ⟨{}, t, hok, List.isEmpty_iff.mp hclean⟩
    · simp at h

theorem keysDiffer {entries : List (Node × Node)} {ok : Bool}
    (h : Clean (keysDiffer entries) ok) : ok = true := by
  obtain ⟨_, hnotes, hok⟩ := h.bind fun _ => .pure
  have hnone : repeatedKeys entries = [] := hnotes.forM_note
  simpa [hnone] using hok.of_pure

theorem not_refuse {n : Node} {type : String} {a : Option α} : ¬ Clean (refuse n type) a := by
  intro h
  obtain ⟨ok, hok, hrest⟩ := h.bind fun _ => .ite (.bind .note fun _ => .pure) .pure
  rw [if_pos hok.keysDiffer] at hrest
  obtain ⟨_, hnote, _⟩ := hrest.bind fun _ => .pure
  exact not_note hnote

theorem through {r : Reader α} {scope : Scope} {n : Node} {a : Option α}
    (h : Clean (through r scope n) a) (hr : ∀ scope n, Orderly (r scope n)) :
    ∃ m expanding, n.behind? scope.anchors = some m ∧
      Clean (r { scope with expanding } m) a := by
  obtain ⟨⟨scope', m⟩, henter, hclean⟩ := h.bind fun p => hr p.1 p.2
  obtain ⟨hm, expanding, rfl⟩ := henter.of_gives .enter
  exact ⟨m, expanding, hm, hclean⟩

/-- A key that is read without fault is read as what it denotes. -/
theorem key? {scope : Scope} {k : Node} {a : Option Text}
    (h : Clean (Decode.through text scope k) a) :
    k.key? scope.anchors = a.map Text.toDisplay := by
  obtain ⟨m, expanding, hm, h⟩ := h.through fun _ _ => .text
  unfold Node.key?
  rw [hm]
  cases m with
  | scalar line tag t =>
    rw [(h.of_gives .text_scalar).2.2, apply_ite (Option.map Text.toDisplay)]
    rfl
  | sequence | mapping | aliasOf => exact absurd h not_refuse

theorem field {key : String} {r : Reader α} {set : σ → α → σ} {scope : Scope} {n : Node} {s s' : σ}
    (h : Clean ((field key r set).2 scope n s) s') : ∃ a, Clean (Decode.through r scope n) a := by
  obtain ⟨a, ha, _⟩ := h.bind fun a => by
    cases a with
    | none | some => exact .pure
  exact ⟨a, ha⟩

theorem mapM {f : α → Decode β} {xs : List α} {ys : List β} (h : Clean (xs.mapM f) ys)
    (hf : ∀ x, Orderly (f x)) : ∀ x ∈ xs, ∃ y, Clean (f x) y := by
  induction xs generalizing ys with
  | nil => simp
  | cons x xs ih =>
    rw [List.mapM_cons] at h
    obtain ⟨y, hy, h⟩ := h.bind fun _ => .bind (.mapM hf) fun _ => .pure
    obtain ⟨_, hrest, _⟩ := Clean.bind h fun _ => .pure
    intro z hz
    rcases List.mem_cons.mp hz with rfl | hz
    · exact ⟨y, hy⟩
    · exact ih hrest z hz

theorem list {type : String} {item : Reader α} {scope : Scope} {line : Nat} {tag : String}
    {items : List Node} {a : Option (List α)}
    (h : Clean (list type item scope (.sequence line tag items)) a)
    (hitem : ∀ scope n, Orderly (item scope n)) :
    ∀ n ∈ items, ∃ b, Clean (Decode.through item scope n) b := by
  obtain ⟨_, hitems, _⟩ := h.bind fun _ => .pure
  exact hitems.mapM fun _ => .through hitem

/-- A reader with rules of its own failed with no fault to note, or not at all. -/
theorem own {r : Anchors → Node → Result α} {scope : Scope} {n : Node} {a : Option α}
    (h : Clean (own r scope n) a) : ∀ e, r scope.anchors n = .error e → e.cause = .illTyped [] := by
  intro e he
  unfold Decode.own Decode.adopt at h
  rw [he] at h
  dsimp only at h
  split at h
  · next lines hcause =>
    obtain ⟨_, hnotes, _⟩ := h.bind fun _ => .pure
    rw [hcause, forM_note hnotes]
  · obtain ⟨t, t', hok, _⟩ := h
    cases hok

end Clean

theorem run_ne_illTyped_nil {d : Decode α} (hd : Orderly d) {e : Failure}
    (h : Decode.run d = .error e) : e.cause ≠ .illTyped [] := by
  unfold Decode.run at h
  split at h
  · next f hf =>
    cases h
    exact hd.throws {} e [] hf
  · next b t hok =>
    split at h
    · cases h
    · next hfaults =>
      rw [Result.fail_eq_error.mp h, Result.cause_of]
      intro hcause
      injection hcause with hnil
      simp [hnil] at hfaults

/-- What a record makes of one entry that is read without fault: the field of its key is, too,
and only a reader that is not strict passes over a key without a field. -/
def Fields.Takes (fs : Fields σ) (scope : Scope) (e : Node × Node) : Prop :=
  ∀ key, e.1.key? scope.anchors = some key →
    match fs.fields.lookup key with
    | some set => ∃ s s', Clean (set scope e.2 s) s'
    | none => scope.strict = false

namespace Clean
variable {fs : Fields σ} {scope : Scope}

theorem entriesInto {entries : List (Node × Node)} {done : List String} {s : σ}
    {p : σ × Option (List String)}
    (h : Clean (entriesInto fs scope entries done none s) p) (hfs : fs.Orderly) :
    ∀ e ∈ entries, isMergeKey e.1 = false →
      (∃ key, Clean (Decode.through text scope e.1) key) ∧ fs.Takes scope e := by
  induction entries generalizing done s p with
  | nil => simp
  | cons e rest ih =>
    obtain ⟨k, v⟩ := e
    unfold Decode.entriesInto at h
    split at h
    · next hmerge =>
      intro e he hkey
      rcases List.mem_cons.mp he with rfl | he
      · simp [hmerge] at hkey
      · exact ih h e he hkey
    · obtain ⟨key, hkey, h⟩ := h.bind fun key => by
        cases key with
        | none => exact .entriesInto hfs
        | some key =>
          refine .ite (.entriesInto hfs) ?_
          split
          · next set hset =>
            exact .ite (.bind .note fun _ => .entriesInto hfs)
              (.bind (hfs _ (Fields.mem_of_lookup hset) scope v s) fun _ => .entriesInto hfs)
          · exact .ite (.bind .note fun _ => .entriesInto hfs) (.entriesInto hfs)
      have hread : ∃ key, Clean (Decode.through text scope k) key := ⟨key, hkey⟩
      have hkey := hkey.key?
      suffices fs.Takes scope (k, v) ∧
          ∃ done s p, Clean (Decode.entriesInto fs scope rest done none s) p by
        obtain ⟨htakes, done, s, p, hrest⟩ := this
        intro e he hmerge
        rcases List.mem_cons.mp he with rfl | he
        · exact ⟨hread, htakes⟩
        · exact ih hrest e he hmerge
      cases key with
      | none => exact ⟨fun key' hkey' => (nomatch hkey.symm.trans hkey'), _, _, _, h⟩
      | some key =>
        -- nothing was merged before, so that no key is passed over for one that is set
        simp only [Option.map_none, Option.getD_none, Bool.false_eq_true, if_false] at h
        have hkey' (key' : String) (h : k.key? scope.anchors = some key') : key' = key.toDisplay :=
          Option.some.inj (h.symm.trans hkey)
        split at h
        · next set hset =>
          split at h
          · obtain ⟨_, hnote, _⟩ := Clean.bind h fun _ => .entriesInto hfs
            exact absurd hnote not_note
          · obtain ⟨s', hread, h⟩ := Clean.bind h fun _ => .entriesInto hfs
            refine ⟨fun key' hk => ?_, _, _, _, h⟩
            rw [hkey' key' hk, hset]
            exact ⟨s, s', hread⟩
        · next hset =>
          split at h
          · obtain ⟨_, hnote, _⟩ := Clean.bind h fun _ => .entriesInto hfs
            exact absurd hnote not_note
          · next hstrict =>
            refine ⟨fun key' hk => ?_, _, _, _, h⟩
            rw [hkey' key' hk, hset]
            simpa using hstrict

theorem record {init : σ} {n : Node} {a : Option σ} (h : Clean (record fs init scope n) a)
    (hfs : fs.Orderly) : ∀ e ∈ n.entries, isMergeKey e.1 = false →
      (∃ key, Clean (Decode.through text scope e.1) key) ∧ fs.Takes scope e := by
  cases n with
  | mapping line tag entries =>
    obtain ⟨q, hinto, _⟩ := h.bind fun _ => .pure
    obtain ⟨ok, hok, hinto⟩ := Clean.bind hinto fun _ => .ite .pure
      (.bind (.entriesInto hfs) fun _ => .mergeInto fun _ _ _ _ => .mappingInto hfs)
    rw [hok.keysDiffer] at hinto
    obtain ⟨p, hentries, _⟩ := Clean.bind hinto fun _ => .mergeInto fun _ _ _ _ => .mappingInto hfs
    exact hentries.entriesInto hfs
  | scalar | sequence | aliasOf => simp [Node.entries]

end Clean

end Decode

end Yaml

end SchemaLoom

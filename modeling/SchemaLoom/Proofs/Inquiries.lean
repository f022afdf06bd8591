import SchemaLoom.Proofs.NodeRegions
import SchemaLoom.Proofs.Result

/-!
# Readings that ask other readings

A reader of nodes is often handed the reader of what stands below, and that one may
not end. This module says how the outcome hangs on the answers that were asked
for: with more answers a settled outcome stays as it is, and an outcome that is not
settled waits for one answer, whatever the others are. All readers of typed data
are such inquiries; the depth they count on their own is always enough.

Which nodes are asked for is not computed, only where they lie.
-/

namespace SchemaLoom

set_option autoImplicit false

/-- The result is one that more depth would not change. -/
def Result.Settled {α : Type} (x : Result α) : Prop := x.cause? ≠ some .diverges

theorem Result.settled_ok {α : Type} (a : α) : Result.Settled (.ok a) := nofun

theorem Result.settled_fail {α : Type} {c : Cause} (hc : c ≠ .diverges) :
    Result.Settled (Result.fail c : Result α) := fun h => hc (Option.some.inj h)

theorem Result.Settled.bind {α β : Type} {x : Result α} {f : α → Result β} (hx : x.Settled)
    (hf : ∀ a, (f a).Settled) : (x >>= f).Settled := by
  cases x with
  | error e => exact hx
  | ok a => exact hf a

theorem Result.not_settled {α : Type} {x : Result α} :
    ¬ x.Settled ↔ ∃ e, x = .error e ∧ e.cause = .diverges :=
  not_not.trans Result.cause?_eq_some

/-- A run of steps is open where a step is that comes after successes only. -/
theorem Result.not_settled_mapM {α β : Type} {f : α → Result β} {xs : List α} :
    ¬ Result.Settled (xs.mapM f) ↔ ∃ before x after, xs = before ++ x :: after ∧
      (∀ y ∈ before, ∃ b, f y = .ok b) ∧ ¬ (f x).Settled := by
  induction xs with
  | nil => simp [Result.Settled, Result.cause?, pure, Except.pure]
  | cons x xs ih =>
    rw [List.mapM_cons]
    cases hx : f x with
    | error e =>
      constructor
      · exact fun h => ⟨[], x, xs, rfl, List.forall_mem_nil _, by rwa [hx]⟩
      · rintro ⟨before, y, after, heq, hbefore, hy⟩
        cases before with
        | nil =>
          cases heq
          rwa [hx] at hy
        | cons z before =>
          cases heq
          obtain ⟨b, hb⟩ := hbefore x List.mem_cons_self
          cases hx.symm.trans hb
    | ok b =>
      have hrest : ¬ Result.Settled (do
          let bs ← xs.mapM f
          pure (b :: bs)) ↔ ¬ Result.Settled (xs.mapM f) := by
        cases xs.mapM f <;> rfl
      refine (hrest.trans ih).trans ⟨?_, ?_⟩
      · rintro ⟨before, y, after, rfl, hbefore, hy⟩
        exact ⟨x :: before, y, after, rfl, List.forall_mem_cons.mpr ⟨⟨b, hx⟩, hbefore⟩, hy⟩
      · rintro ⟨before, y, after, heq, hbefore, hy⟩
        cases before with
        | nil =>
          cases heq
          exact absurd (hx ▸ Result.settled_ok b) hy
        | cons z before =>
          cases heq
          exact ⟨before, y, after, rfl, (List.forall_mem_cons.mp hbefore).2, hy⟩

namespace Yaml

/-- What is known of every node: how the reader below answers. -/
abbrev Answers (ω : Type) := Anchors → Node → Result ω

variable {ω α β σ : Type} {anchors : Anchors} {asked asked' : List Node} {n : Node}

/-- The settled answers at some nodes are also those of `r'`. -/
def Answers.Below (anchors : Anchors) (asked : List Node) (r r' : Answers ω) : Prop :=
  ∀ m ∈ asked, (r anchors m).Settled → r' anchors m = r anchors m

/-- An outcome that hangs on the answers at some nodes. -/
structure Inquiry (anchors : Anchors) (asked : List Node) (q : Answers ω → Result α) : Prop where
  stays (r r') : Answers.Below anchors asked r r' → (q r).Settled → q r' = q r
  waits (r) : ¬ (q r).Settled → ∃ m ∈ asked, ¬ (r anchors m).Settled ∧
    ∀ r', Answers.Below anchors asked r r' → ¬ (r' anchors m).Settled → ¬ (q r').Settled

namespace Inquiry

theorem settled {x : Result α} (hx : x.Settled) :
    Inquiry anchors asked fun _ : Answers ω => x where
  stays _ _ _ _ := rfl
  waits _ h := absurd hx h

theorem to_settled {x : Result α} (h : Inquiry anchors asked fun _ : Answers ω => x) :
    x.Settled := by
  by_contra hx
  obtain ⟨m, _, hwait, _⟩ := h.waits (fun _ _ => Result.fail .malformed) hx
  exact hwait (Result.settled_fail nofun)

theorem ask (hn : n ∈ asked) : Inquiry anchors asked fun r : Answers ω => r anchors n where
  stays _ _ hbelow h := hbelow n hn h
  waits _ h := ⟨n, hn, h, fun _ _ h' => h'⟩

theorem of_subset {q : Answers ω → Result α} (h : Inquiry anchors asked q)
    (hsub : asked ⊆ asked') : Inquiry anchors asked' q where
  stays r r' hbelow := h.stays r r' fun m hm => hbelow m (hsub hm)
  waits r hr := by
    obtain ⟨m, hm, hwait, hmore⟩ := h.waits r hr
    exact ⟨m, hsub hm, hwait, fun r' hbelow => hmore r' fun m hm => hbelow m (hsub hm)⟩

theorem bind {q : Answers ω → Result α} {f : Answers ω → α → Result β}
    (hq : Inquiry anchors asked q)
    (hf : ∀ r a, q r = .ok a → Inquiry anchors asked fun r => f r a) :
    Inquiry anchors asked fun r => q r >>= f r where
  stays r r' hbelow h := by
    cases hqr : q r with
    | error e =>
      rw [hqr] at h
      rw [hq.stays r r' hbelow (hqr ▸ h), hqr]
      rfl
    | ok a =>
      rw [hqr] at h
      rw [hq.stays r r' hbelow (hqr ▸ Result.settled_ok a), hqr]
      exact (hf r a hqr).stays r r' hbelow h
  waits r h := by
    cases hqr : q r with
    | error e =>
      rw [hqr] at h
      obtain ⟨m, hm, hwait, hmore⟩ := hq.waits r (hqr ▸ h)
      refine ⟨m, hm, hwait, fun r' hbelow hr' => ?_⟩
      obtain ⟨e', he', hcause⟩ := Result.not_settled.mp (hmore r' hbelow hr')
      rw [he']
      exact Result.not_settled.mpr ⟨e', rfl, hcause⟩
    | ok a =>
      rw [hqr] at h
      obtain ⟨m, hm, hwait, hmore⟩ := (hf r a hqr).waits r h
      refine ⟨m, hm, hwait, fun r' hbelow hr' => ?_⟩
      rw [hq.stays r r' hbelow (hqr ▸ Result.settled_ok a), hqr]
      exact hmore r' hbelow hr'

theorem mapM {f : Answers ω → β → Result α} {xs : List β}
    (hf : ∀ x ∈ xs, Inquiry anchors asked fun r => f r x) :
    Inquiry anchors asked fun r => xs.mapM (f r) := by
  induction xs with
  | nil => exact .settled (Result.settled_ok _)
  | cons x xs ih =>
    simp only [List.mapM_cons]
    refine .bind (hf x List.mem_cons_self) fun _ y _ => ?_
    exact .bind (ih fun z hz => hf z (List.mem_cons_of_mem _ hz)) fun _ ys _ =>
      .settled (Result.settled_ok _)

/-- What a settled outcome is made into is settled. -/
theorem map {q : Answers ω → Result α} {g : Result α → Result β} (hq : Inquiry anchors asked q)
    (hg : ∀ x, (g x).Settled ↔ x.Settled) : Inquiry anchors asked fun r => g (q r) where
  stays r r' hbelow h := by rw [hq.stays r r' hbelow ((hg _).mp h)]
  waits r h := by
    obtain ⟨m, hm, hwait, hmore⟩ := hq.waits r fun hr => h ((hg _).mpr hr)
    exact ⟨m, hm, hwait, fun r' hbelow hr' => fun h' => hmore r' hbelow hr' ((hg _).mp h')⟩

end Inquiry

namespace Decode

/-- A reading that asks: wherever its tally stands, its outcome is an inquiry. -/
def Asks (anchors : Anchors) (asked : List Node) (q : Answers ω → Decode α) : Prop :=
  ∀ t, Inquiry anchors asked fun r => (q r t : Result (α × Tally))

/-- A reader that asks at most in the region of the node it reads. -/
def ReaderAsks (anchors : Anchors) (q : Answers ω → Reader α) : Prop :=
  ∀ scope n, scope.anchors = anchors → Asks anchors (Node.region anchors n) fun r => q r scope n

namespace Asks

theorem pure {a : α} : Asks anchors asked fun _ : Answers ω => (pure a : Decode α) :=
  fun _ => .settled (Result.settled_ok _)

theorem fatal {c : Cause} (hc : c ≠ .diverges) :
    Asks anchors asked fun _ : Answers ω => (fatal c : Decode α) :=
  fun _ => .settled fun h => hc (Option.some.inj h)

theorem note {fault : Text} : Asks anchors asked fun _ : Answers ω => note fault :=
  fun _ => .settled (Result.settled_ok _)

theorem of_subset {q : Answers ω → Decode α} (h : Asks anchors asked q) (hsub : asked ⊆ asked') :
    Asks anchors asked' q := fun t => (h t).of_subset hsub

theorem bind_of {q : Answers ω → Decode α} {f : Answers ω → α → Decode β}
    (hq : Asks anchors asked q)
    (hf : ∀ a, (∃ r t t', q r t = .ok (a, t')) → Asks anchors asked fun r => f r a) :
    Asks anchors asked fun r => q r >>= f r :=
  fun t => Inquiry.bind (hq t) fun r p hp => hf p.1 ⟨r, t, p.2, hp⟩ p.2

theorem bind {q : Answers ω → Decode α} {f : Answers ω → α → Decode β}
    (hq : Asks anchors asked q) (hf : ∀ a, Asks anchors asked fun r => f r a) :
    Asks anchors asked fun r => q r >>= f r :=
  .bind_of hq fun a _ => hf a

theorem ite {c : Prop} [Decidable c] {q q' : Answers ω → Decode α} (h : Asks anchors asked q)
    (h' : Asks anchors asked q') : Asks anchors asked fun r => if c then q r else q' r := by
  by_cases hc : c
  · simpa only [if_pos hc] using h
  · simpa only [if_neg hc] using h'

theorem forM {f : β → Decode PUnit} {xs : List β}
    (hf : ∀ x, Asks anchors asked fun _ : Answers ω => f x) :
    Asks anchors asked fun _ : Answers ω => xs.forM f := by
  induction xs with
  | nil => exact .pure
  | cons x xs ih => exact .bind (hf x) fun _ => ih

theorem mapM {f : Answers ω → β → Decode α} {xs : List β}
    (hf : ∀ x ∈ xs, Asks anchors asked fun r => f r x) :
    Asks anchors asked fun r => xs.mapM (f r) := by
  induction xs with
  | nil => exact .pure
  | cons x xs ih =>
    simp only [List.mapM_cons]
    refine .bind (hf x List.mem_cons_self) fun y => ?_
    exact .bind (ih fun z hz => hf z (List.mem_cons_of_mem _ hz)) fun ys => .pure

theorem foldlM {f : Answers ω → σ → β → Decode σ} {xs : List β} {s : σ}
    (hf : ∀ s, ∀ x ∈ xs, Asks anchors asked fun r => f r s x) :
    Asks anchors asked fun r => xs.foldlM (f r) s := by
  induction xs generalizing s with
  | nil => exact .pure
  | cons x xs ih =>
    simp only [List.foldlM_cons]
    exact .bind (hf s x List.mem_cons_self) fun s' =>
      ih fun s y hy => hf s y (List.mem_cons_of_mem _ hy)

theorem adopt_error (e : Failure) : Decode.adopt (.error e : Result α) = throw e ∨
    ∃ lines, e.cause = .illTyped lines ∧
      Decode.adopt (.error e : Result α) = (do lines.forM Decode.note; Pure.pure none) := by
  unfold Decode.adopt
  dsimp only
  split
  · next lines hcause => exact .inr ⟨lines, hcause, rfl⟩
  · exact .inl rfl

theorem adopt {q : Answers ω → Result α} (h : Inquiry anchors asked q) :
    Asks anchors asked fun r => adopt (q r) := by
  intro t
  refine h.map (g := fun x => (Decode.adopt x t : Result (Option α × Tally))) fun x => ?_
  cases x with
  | ok a => exact iff_of_true (Result.settled_ok _) (Result.settled_ok _)
  | error e =>
    rcases adopt_error (α := α) e with h | ⟨lines, hcause, h⟩
    · rw [h]
      exact Iff.rfl
    · have hnotes : Asks anchors asked fun _ : Answers ω =>
          (do lines.forM Decode.note; Pure.pure none : Decode (Option α)) :=
        .bind (.forM fun _ => .note) fun _ => .pure
      rw [h]
      refine iff_of_true (hnotes t).to_settled ?_
      simp [Result.Settled, Result.cause?, hcause]

theorem count {g : Tally → Tally} {f : Tally → Decode α}
    (hf : ∀ t, Asks anchors asked fun _ : Answers ω => f t) :
    Asks anchors asked fun _ : Answers ω => get >>= fun t => set (g t) >>= fun _ => f t :=
  fun t => hf t (g t)

theorem tick {scope : Scope} : Asks anchors asked fun _ : Answers ω => tick scope :=
  .count fun _ => .ite (.fatal nofun) .pure

theorem enter {scope : Scope} {n : Node} :
    Asks anchors asked fun _ : Answers ω => enter scope n := by
  refine .bind .tick fun _ => ?_
  cases n with
  | aliasOf line name target occurrence =>
    refine .ite (.bind (.fatal nofun) fun _ => ?_) ?_
    all_goals
      refine .bind .tick fun _ => ?_
      split
      · exact .pure
      · exact .fatal nofun
  | scalar | sequence | mapping => exact .pure

theorem keysDiffer {entries : List (Node × Node)} :
    Asks anchors asked fun _ : Answers ω => keysDiffer entries :=
  .bind (.forM fun _ => .note) fun _ => .pure

theorem refuse {n : Node} {type : String} :
    Asks anchors asked fun _ : Answers ω => (refuse n type : Decode (Option α)) := by
  refine .bind .keysDiffer fun ok => ?_
  exact .ite (.bind .note fun _ => .pure) .pure

theorem scalarOf {tag text : String} :
    Asks anchors asked fun _ : Answers ω => scalarOf tag text := by
  unfold Decode.scalarOf
  split
  · exact .pure
  · exact .fatal nofun

theorem scalarText {tag text : String} :
    Asks anchors asked fun _ : Answers ω => scalarText tag text := by
  unfold Decode.scalarText
  split
  · split
    · exact .pure
    · exact .fatal nofun
  · exact .pure

theorem mergeSources {scope : Scope} {n : Node} :
    Asks anchors asked fun _ : Answers ω => mergeSources scope n := by
  unfold Decode.mergeSources
  split
  · exact .ite .pure (.fatal nofun)
  · exact .ite .pure (.fatal nofun)

end Asks

/-- Where an entrance leads: to the node itself, or through an alias that was not in use. -/
theorem enter_cases {scope scope' : Scope} {n m : Node} {t t' : Tally}
    (h : enter scope n t = .ok ((scope', m), t')) :
    (scope' = scope ∧ m = n) ∨
      ∃ line name target occurrence, n = .aliasOf line name target occurrence ∧
        occurrence ∉ scope.expanding ∧ scope.anchors[target]? = some m ∧
        scope' = { scope with expanding := occurrence :: scope.expanding } := by
  obtain ⟨_, _, h⟩ := Result.bind_eq_ok.mp h
  cases n with
  | aliasOf line name target occurrence =>
    dsimp only at h
    split at h
    · cases h
    · next hfresh =>
      obtain ⟨_, _, h⟩ := Result.bind_eq_ok.mp h
      dsimp only at h
      cases htarget : scope.anchors[target]? with
      | none => 
        rw [htarget] at h
        cases h
      | some m' =>
        rw [htarget] at h
        cases h
        exact .inr ⟨line, name, target, occurrence, rfl, by simpa using hfresh, htarget, rfl⟩
  | scalar | sequence | mapping =>
    cases h
    exact .inl ⟨rfl, rfl⟩

theorem mem_region_of_enter {scope scope' : Scope} {n m : Node} {t t' : Tally}
    (h : enter scope n t = .ok ((scope', m), t')) :
    scope'.anchors = scope.anchors ∧ m ∈ Node.region scope.anchors n := by
  obtain ⟨rfl, rfl⟩ | ⟨line, name, target, occurrence, rfl, _, htarget, rfl⟩ := enter_cases h
  · exact ⟨rfl, mem_region_self ..⟩
  · exact ⟨rfl, mem_region_target htarget⟩

/-! ### Readers -/

namespace ReaderAsks

theorem at_part {q : Answers ω → Reader α} {scope : Scope} {m : Node} (h : ReaderAsks anchors q)
    (hscope : scope.anchors = anchors) (hm : m ∈ Node.region anchors n) :
    Asks anchors (Node.region anchors n) fun r => q r scope m :=
  (h scope m hscope).of_subset (region_subset hm)

theorem through {q : Answers ω → Reader α} (h : ReaderAsks anchors q) :
    ReaderAsks anchors fun r => through (q r) := by
  rintro scope n rfl
  refine .bind_of .enter fun p hp => ?_
  obtain ⟨_, _, _, hp⟩ := hp
  obtain ⟨hscope, hm⟩ := mem_region_of_enter hp
  exact h.at_part hscope hm

theorem text : ReaderAsks anchors fun _ : Answers ω => text := by
  intro scope n _
  cases n with
  | scalar line tag t =>
    refine .bind .scalarOf fun s => ?_
    cases s with
    | null => exact .pure
    | bool | int | float | moment | string => exact .bind .scalarText fun _ => .pure
  | sequence | mapping | aliasOf => exact .refuse

theorem bool : ReaderAsks anchors fun _ : Answers ω => bool := by
  intro scope n _
  cases n with
  | scalar line tag t =>
    refine .bind .scalarOf fun s => ?_
    cases s with
    | null | bool => exact .pure
    | string => exact .ite .pure (.ite .pure .refuse)
    | int | float | moment => exact .refuse
  | sequence | mapping | aliasOf => exact .refuse

theorem list {type : String} {q : Answers ω → Reader α} (h : ReaderAsks anchors q) :
    ReaderAsks anchors fun r => list type (q r) := by
  intro scope n hscope
  cases n with
  | sequence line tag items =>
    refine .bind (.mapM fun item hitem => ?_) fun _ => .pure
    exact h.through.at_part hscope (mem_region_item (mem_region_self ..) hitem)
  | scalar line tag t =>
    refine .bind .scalarOf fun s => ?_
    cases s with
    | null => exact .pure
    | bool | int | float | moment | string => exact .refuse
  | mapping | aliasOf => exact .refuse

theorem absent {type : String} :
    ReaderAsks anchors fun _ : Answers ω => (absent type : Reader α) := by
  intro scope n _
  cases n with
  | scalar => exact .bind .scalarOf fun _ => .pure
  | sequence | mapping | aliasOf => exact .refuse

theorem unlessNull {null q : Answers ω → Reader α} (hnull : ReaderAsks anchors null)
    (h : ReaderAsks anchors q) : ReaderAsks anchors fun r => unlessNull (null r) (q r) :=
  fun scope n hscope => .ite (hnull scope n hscope) (h scope n hscope)

theorem optional {type : String} {q : Answers ω → Reader α} (h : ReaderAsks anchors q) :
    ReaderAsks anchors fun r => optional type (q r) :=
  .unlessNull .absent h

/-- A reader with rules of its own asks by running. -/
theorem own : ReaderAsks anchors fun r : Answers ω => own r := by
  rintro scope n rfl
  exact .adopt (.ask (mem_region_self ..))

end ReaderAsks

/-! ### Records -/

/-- A field whose reader asks. -/
def asking {σ α : Type} (key : String) (q : Answers ω → Reader α) (set : σ → α → σ) :
    String × (Answers ω → Scope → Node → σ → Decode σ) :=
  (key, fun r => (field key (q r) set).2)

/-- The fields of a record whose readers ask. -/
def Fields.asking (type : String)
    (fields : List (String × (Answers ω → Scope → Node → σ → Decode σ))) (r : Answers ω) :
    Fields σ where
  type
  fields := fields.map fun f => (f.1, f.2 r)

/-- Every field asks at most in the region of its node. -/
def FieldsAsk (anchors : Anchors)
    (fields : List (String × (Answers ω → Scope → Node → σ → Decode σ))) : Prop :=
  ∀ f ∈ fields, ∀ scope n s, scope.anchors = anchors →
    Asks anchors (Node.region anchors n) fun r => f.2 r scope n s

theorem FieldsAsk.cons {key : String} {q : Answers ω → Reader α} {set : σ → α → σ}
    {fields : List (String × (Answers ω → Scope → Node → σ → Decode σ))}
    (hq : ReaderAsks anchors q) (h : FieldsAsk anchors fields) :
    FieldsAsk anchors (Decode.asking key q set :: fields) := by
  intro f hf scope n s hscope
  rcases List.mem_cons.mp hf with rfl | hf
  · refine .bind (hq.through scope n hscope) fun a => ?_
    cases a with
    | none | some => exact .pure
  · exact h f hf scope n s hscope

theorem Fields.lookup_asking {type key : String}
    (fields : List (String × (Answers ω → Scope → Node → σ → Decode σ))) (r : Answers ω) :
    (Fields.asking type fields r).fields.lookup key = (fields.lookup key).map fun f => f r := by
  unfold Fields.asking
  induction fields with
  | nil => rfl
  | cons f fields ih =>
    obtain ⟨k, g⟩ := f
    simp only [List.map_cons, List.lookup_cons] at ih ⊢
    cases key == k with
    | true => rfl
    | false => exact ih

theorem Fields.type_asking {type : String}
    (fields : List (String × (Answers ω → Scope → Node → σ → Decode σ))) (r : Answers ω) :
    (Fields.asking type fields r).type = type := rfl

/-- The mappings that are merged stand in the entry, or are the items of the list there. -/
theorem mergeSources_eq_ok {scope : Scope} {v : Node} {sources : List Node} {t t' : Tally}
    (h : mergeSources scope v t = .ok (sources, t')) :
    ∀ m ∈ sources, m = v ∨ ∃ line tag items, v = .sequence line tag items ∧ m ∈ items := by
  unfold mergeSources at h
  split at h
  · next line tag items =>
    split at h
    · cases h
      exact fun m hm => .inr ⟨line, tag, _, rfl, hm⟩
    · cases h
  · split at h
    · cases h
      exact fun m hm => .inl (List.mem_singleton.mp hm)
    · cases h

namespace Asks
variable {type : String} {fields : List (String × (Answers ω → Scope → Node → σ → Decode σ))}
  {root : Node} {scope : Scope} {entries : List (Node × Node)} {merged : Option (List String)}
  {s : σ}

theorem entriesInto {done : List String} (hfields : FieldsAsk anchors fields)
    (hscope : scope.anchors = anchors)
    (hentries : ∀ e ∈ entries,
      e.1 ∈ Node.region anchors root ∧ e.2 ∈ Node.region anchors root) :
    Asks anchors (Node.region anchors root) fun r =>
      Decode.entriesInto (Fields.asking type fields r) scope entries done merged s := by
  induction entries generalizing done merged s with
  | nil => exact .pure
  | cons e rest ih =>
    obtain ⟨k, v⟩ := e
    obtain ⟨hk, hv⟩ := hentries (k, v) List.mem_cons_self
    replace ih {done merged s} :=
      @ih merged s done fun e he => hentries e (List.mem_cons_of_mem _ he)
    simp only [Decode.entriesInto, Fields.lookup_asking, Fields.type_asking]
    refine .ite ih (.bind (ReaderAsks.text.through.at_part hscope hk) fun key => ?_)
    cases key with
    | none => exact ih
    | some key =>
      refine .ite ih ?_
      cases hset : fields.lookup key.toDisplay with
      | none => exact .ite (.bind .note fun _ => ih) ih
      | some set =>
        obtain ⟨before, after, rfl, _⟩ := List.lookup_eq_some_iff.mp hset
        have hset := hfields (key.toDisplay, set) (by simp) scope v s hscope
        exact .ite (.bind .note fun _ => ih)
          (.bind (hset.of_subset (region_subset hv)) fun _ => ih)

theorem ownKeys (hscope : scope.anchors = anchors)
    (hentries : ∀ e ∈ entries, e.1 ∈ Node.region anchors root) :
    Asks anchors (Node.region anchors root) fun _ : Answers ω => ownKeys scope entries := by
  refine .bind (.mapM fun e he => ?_) fun _ => .pure
  exact ReaderAsks.text.through.at_part hscope (hentries e (List.mem_of_mem_filter he))

theorem mergeInto
    {into : Answers ω → Scope → List (Node × Node) → Option (List String) → σ →
      Decode (Option (σ × Option (List String)))}
    (hscope : scope.anchors = anchors)
    (hentries : ∀ e ∈ entries, e.1 ∈ Node.region anchors root)
    (hinto : ∀ e ∈ entries, ∀ n, (n = e.2 ∨ ∃ line tag items, e.2 = .sequence line tag items ∧
        n ∈ items) →
      ∀ scope' m t t', Decode.enter scope n t = .ok ((scope', m), t') → ∀ merged s,
        Asks anchors (Node.region anchors root) fun r => into r scope' m.entries merged s) :
    Asks anchors (Node.region anchors root) fun r =>
      Decode.mergeInto (into r) scope entries merged s := by
  unfold Decode.mergeInto
  cases hlast : (entries.filter fun e => isMergeKey e.1).getLast? with
  | none => exact .pure
  | some e =>
    have he : e ∈ entries := List.mem_of_mem_filter (List.mem_of_getLast? hlast)
    have hstep (sources : List Node) (t t' : Tally)
        (hsources : Decode.mergeSources scope e.2 t = .ok (sources, t'))
        (acc : σ × Option (List String)) (n : Node) (hn : n ∈ sources) :
        Asks anchors (Node.region anchors root) fun r => do
          let p ← Decode.enter scope n
          return (← into r p.1 p.2.entries acc.2 acc.1).getD acc := by
      refine .bind_of .enter fun p hp => .bind ?_ fun _ => .pure
      obtain ⟨_, t, t', hp⟩ := hp
      exact hinto e he n (mergeSources_eq_ok hsources n hn) p.1 p.2 t t' hp acc.2 acc.1
    cases merged with
    | some start =>
      refine .bind .pure fun _ => .bind_of .mergeSources fun sources hsources => ?_
      obtain ⟨_, t, t', hsources⟩ := hsources
      exact .bind (.foldlM (hstep sources t t' hsources)) fun _ => .pure
    | none =>
      refine .bind (.ownKeys hscope hentries) fun _ =>
        .bind_of .mergeSources fun sources hsources => ?_
      obtain ⟨_, t, t', hsources⟩ := hsources
      exact .bind (.foldlM (hstep sources t t' hsources)) fun _ => .pure

/-- The depth that is left covers the aliases that are left, and the entries up to the next one. -/
theorem mappingInto {fuel : Nat} (hfields : FieldsAsk anchors fields)
    (hscope : scope.anchors = anchors)
    (hentries : ∀ e ∈ entries,
      e.1 ∈ Node.region anchors root ∧ e.2 ∈ Node.region anchors root)
    (hfuel : unused (Node.region anchors root) scope.expanding * (Node.extent anchors root + 1) +
      Node.sizeEntries entries < fuel) :
    Asks anchors (Node.region anchors root) fun r =>
      Decode.mappingInto (Fields.asking type fields r) fuel scope entries merged s := by
  induction fuel generalizing scope entries merged s with
  | zero => omega
  | succ fuel ih =>
    refine .bind .keysDiffer fun _ => .ite .pure ?_
    refine .bind (.entriesInto hfields hscope hentries) fun p =>
      .mergeInto hscope (fun e he => (hentries e he).1)
        fun e he n hn scope' m t t' henter merged s => ?_
    have hvalue := (hentries e he).2
    have hn : n ∈ Node.region anchors root ∧ n.size ≤ e.2.size := by
      rcases hn with rfl | ⟨line, tag, items, hseq, hitem⟩
      · exact ⟨hvalue, le_rfl⟩
      · rw [hseq] at hvalue ⊢
        have hsize := size_item hitem
        refine ⟨mem_region_item hvalue hitem, ?_⟩
        rw [Node.size]
        omega
    have hsize := size_value he
    have hentries' := sizeEntries_entries m
    obtain ⟨rfl, rfl⟩ | ⟨line, name, target, occurrence, rfl, hfresh, htarget, rfl⟩ :=
      enter_cases henter
    · refine ih hscope (fun e he => mem_region_entry hn.1 he) ?_
      omega
    · subst hscope
      have hm : m ∈ Node.region scope.anchors root := mem_region_target htarget
      refine ih rfl (fun e he => mem_region_entry hm he) ?_
      have hunused : unused (Node.region scope.anchors root) (occurrence :: scope.expanding) + 1 ≤
          unused (Node.region scope.anchors root) scope.expanding :=
        unused_lt ⟨_, hn.1, rfl⟩ hfresh
      have hmul := Nat.mul_le_mul_right (Node.extent scope.anchors root + 1) hunused
      have hm := size_le_extent hm
      rw [Nat.add_mul] at hmul
      dsimp only
      omega

end Asks

/-- The depth of a record covers all aliases of its region, and its entries. -/
theorem lt_mergeDepth (anchors : Anchors) (expanding : List Nat) (line : Nat) (tag : String)
    (entries : List (Node × Node)) :
    unused (Node.region anchors (.mapping line tag entries)) expanding *
        (Node.extent anchors (.mapping line tag entries) + 1) + Node.sizeEntries entries <
      mergeDepth anchors (.mapping line tag entries) := by
  have hunused := unused_le (Node.region anchors (.mapping line tag entries)) expanding
  rw [length_region] at hunused
  have hmul :=
    Nat.mul_le_mul_right (Node.extent anchors (.mapping line tag entries) + 1) hunused
  have hentries : Node.sizeEntries entries < (Node.mapping line tag entries).size :=
    sizeEntries_entries (.mapping line tag entries)
  have hdepth : mergeDepth anchors (.mapping line tag entries) =
      (Node.extent anchors (.mapping line tag entries) + 1) *
        (Node.extent anchors (.mapping line tag entries) + 1) := rfl
  rw [hdepth, Nat.add_mul]
  unfold Node.extent at hmul ⊢
  omega

theorem ReaderAsks.record {type : String}
    {fields : List (String × (Answers ω → Scope → Node → σ → Decode σ))} {init : σ}
    (hfields : FieldsAsk anchors fields) :
    ReaderAsks anchors fun r => record (Fields.asking type fields r) init := by
  rintro scope n rfl
  cases n with
  | mapping line tag entries =>
    exact .bind (.mappingInto hfields rfl (fun e he => mem_region_entry (mem_region_self ..) he)
      (lt_mergeDepth ..)) fun _ => .pure
  | scalar =>
    refine .bind .scalarOf fun v => ?_
    cases v with
    | null => exact .pure
    | bool | int | float | moment | string => exact .refuse
  | sequence => exact .refuse
  | aliasOf => exact .fatal nofun

end Decode

/-- A run looks at its reading from the start only. -/
theorem Decode.run_eq (d : Decode α) : Decode.run d = Decode.run fun _ => d {} := by
  unfold Decode.run StateT.run
  rfl

theorem Inquiry.readNode {q : Answers ω → Reader α} (h : Decode.ReaderAsks anchors q) (n : Node) :
    Inquiry anchors (Node.region anchors n) fun r => readNode (q r) anchors n := by
  have hrun := h.through ⟨anchors, false, []⟩ n rfl {}
  unfold Yaml.readNode
  simp only [Decode.run_eq (Decode.through _ _ _)]
  refine hrun.map (g := fun x : Result (Option α × Tally) => Decode.run fun _ => x) fun x => ?_
  cases x with
  | error e => exact Iff.rfl
  | ok p =>
    refine iff_of_true ?_ (Result.settled_ok p)
    unfold Decode.run
    dsimp only [StateT.run]
    split
    · exact Result.settled_ok _
    · exact Result.settled_fail nofun

end Yaml
end SchemaLoom

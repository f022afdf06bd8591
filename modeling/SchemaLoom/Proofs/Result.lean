import Mathlib.Data.List.Forall2
import SchemaLoom.Error

/-!
# Taking results apart

When a chain of steps succeeds, every step did; when it fails, one step did, and
those before it succeeded.
-/

namespace SchemaLoom.Result

set_option autoImplicit false

variable {α β : Type}

theorem bind_eq_ok {x : Result α} {f : α → Result β} {b : β} :
    (x >>= f) = .ok b ↔ ∃ a, x = .ok a ∧ f a = .ok b := by
  cases x <;> simp [bind, Except.bind]

theorem bind_eq_error {x : Result α} {f : α → Result β} {e : Failure} :
    (x >>= f) = .error e ↔ x = .error e ∨ ∃ a, x = .ok a ∧ f a = .error e := by
  cases x <;> simp [bind, Except.bind]

theorem map_eq_ok {x : Result α} {f : α → β} {b : β} :
    Except.map f x = .ok b ↔ ∃ a, x = .ok a ∧ f a = b := by
  cases x <;> simp [Except.map]

theorem map_eq_error {x : Result α} {f : α → β} {e : Failure} :
    Except.map f x = .error e ↔ x = .error e := by
  cases x <;> simp [Except.map]

@[simp] theorem within_eq_ok {position : Text} {x : Result α} {a : α} :
    within position x = .ok a ↔ x = .ok a := by
  cases x <;> simp [within]

theorem within_eq_error {position : Text} {x : Result α} {e : Failure} :
    within position x = .error e ↔ ∃ f, x = .error f ∧ e = f.within position := by
  cases x <;> simp [within, eq_comm]

theorem marked_eq_ok {mark : Mark} {x : Result α} {a : α} :
    marked mark x = .ok a ↔ x = .ok a := by
  cases x <;> simp [marked]

@[simp] theorem fail_ne_ok {c : Cause} {a : α} : (fail c : Result α) ≠ .ok a := by
  simp [fail]

theorem fail_eq_error {c : Cause} {e : Failure} :
    (fail c : Result α) = .error e ↔ e = Failure.of c := by
  simp [fail, eq_comm]

@[simp] theorem cause_of (c : Cause) : (Failure.of c).cause = c := rfl

@[simp] theorem cause_within (f : Failure) (position : Text) :
    (f.within position).cause = f.cause := rfl

theorem ok_of_toOption {x : Result α} {a : α} (h : x.toOption = some a) : x = .ok a := by
  cases x with
  | error e => cases h
  | ok b =>
    cases h
    rfl

def cause? : Result α → Option Cause
  | .ok _ => none
  | .error e => some e.cause

theorem cause?_eq_some {x : Result α} {c : Cause} :
    x.cause? = some c ↔ ∃ e, x = .error e ∧ e.cause = c := by
  cases x <;> simp [cause?]

theorem cause?_eq_none {x : Result α} : x.cause? = none ↔ ∃ a, x = .ok a := by
  cases x <;> simp [cause?]

/-- A list of steps that succeeds, step by step. -/
theorem mapM_eq_ok {f : α → Result β} {xs : List α} {ys : List β} :
    xs.mapM f = .ok ys ↔ List.Forall₂ (fun x y => f x = .ok y) xs ys := by
  induction xs generalizing ys with
  | nil =>
    constructor
    · intro h
      cases h
      exact .nil
    · intro h
      cases h
      rfl
  | cons x xs ih =>
    rw [List.mapM_cons]
    constructor
    · intro h
      obtain ⟨y, hy, h⟩ := bind_eq_ok.mp h
      obtain ⟨zs, hzs, h⟩ := bind_eq_ok.mp h
      cases h
      exact .cons hy (ih.mp hzs)
    · intro h
      cases h with
      | cons hy hys => exact bind_eq_ok.mpr ⟨_, hy, bind_eq_ok.mpr ⟨_, ih.mpr hys, rfl⟩⟩

theorem mapM_congr {f f' : α → Result β} {xs : List α} (h : ∀ x ∈ xs, f x = f' x) :
    xs.mapM f = xs.mapM f' := by
  induction xs with
  | nil => rfl
  | cons x xs ih =>
    rw [List.mapM_cons, List.mapM_cons, h x (by simp), ih fun y hy => h y (by simp [hy])]

theorem exists_of_mem_mapM {f : α → Result β} {xs : List α} {ys : List β} (h : xs.mapM f = .ok ys)
    {y : β} (hy : y ∈ ys) : ∃ x ∈ xs, f x = .ok y := by
  have hall := mapM_eq_ok.mp h
  clear h
  induction hall with
  | nil => cases hy
  | cons hx _ ih =>
    rcases List.mem_cons.mp hy with rfl | hy
    · exact ⟨_, List.mem_cons_self, hx⟩
    · obtain ⟨x, hmem, hx⟩ := ih hy
      exact ⟨x, List.mem_cons_of_mem _ hmem, hx⟩

theorem exists_mem_of_mapM {f : α → Result β} {xs : List α} {ys : List β}
    (h : xs.mapM f = .ok ys) {x : α} (hx : x ∈ xs) : ∃ y ∈ ys, f x = .ok y := by
  have hall := mapM_eq_ok.mp h
  clear h
  induction hall with
  | nil => cases hx
  | cons hy _ ih =>
    rcases List.mem_cons.mp hx with rfl | hx
    · exact ⟨_, List.mem_cons_self, hy⟩
    · obtain ⟨y, hmem, hy⟩ := ih hx
      exact ⟨y, List.mem_cons_of_mem _ hmem, hy⟩

/-- A list of steps that fails, at some step. -/
theorem mapM_eq_error {f : α → Result β} {xs : List α} {e : Failure} (h : xs.mapM f = .error e) :
    ∃ x ∈ xs, f x = .error e := by
  induction xs with
  | nil => cases h
  | cons x xs ih =>
    rw [List.mapM_cons] at h
    rcases bind_eq_error.mp h with h | ⟨y, _, h⟩
    · exact ⟨x, List.mem_cons_self, h⟩
    · rcases bind_eq_error.mp h with h | ⟨ys, _, h⟩
      · obtain ⟨z, hz, h⟩ := ih h
        exact ⟨z, List.mem_cons_of_mem _ hz, h⟩
      · cases h

theorem exists_mapM_eq_ok {f : α → Result β} {xs : List α} (h : ∀ x ∈ xs, ∃ y, f x = .ok y) :
    ∃ ys, xs.mapM f = .ok ys := by
  cases hxs : xs.mapM f with
  | ok ys => exact ⟨ys, rfl⟩
  | error e =>
    obtain ⟨x, hx, he⟩ := mapM_eq_error hxs
    obtain ⟨y, hy⟩ := h x hx
    rw [hy] at he
    cases he

/-- What each step keeps, a run of steps keeps. -/
theorem foldlM_induction {σ : Type} {P : σ → Prop} {f : σ → α → Result σ} {xs : List α}
    (hstep : ∀ s x t, x ∈ xs → P s → f s x = .ok t → P t) {s t : σ} (hs : P s)
    (h : xs.foldlM f s = .ok t) : P t := by
  induction xs generalizing s with
  | nil =>
    cases h
    exact hs
  | cons x xs ih =>
    rw [List.foldlM_cons] at h
    obtain ⟨u, hu, h⟩ := bind_eq_ok.mp h
    exact ih (fun s y t hy => hstep s y t (List.mem_cons_of_mem _ hy))
      (hstep s x u List.mem_cons_self hs hu) h

/-! ### Both outcomes at once -/

/-- What the success of a step tells, and what its failure tells. -/
structure Tells (x : Result α) (success : Prop) (failure : Failure → Prop) : Prop where
  ok : ∀ a, x = .ok a → success
  error : ∀ e, x = .error e → failure e

namespace Tells
variable {x : Result α} {f : α → Result β} {G G' : Prop} {B B' : Failure → Prop}

theorem of_ok {a : α} (h : x = .ok a) (hG : G) : Tells x G B :=
  ⟨fun _ _ => hG, fun e he => by rw [h] at he; cases he⟩

theorem of_fail {c : Cause} (hB : B (Failure.of c)) : Tells (fail c : Result α) G B :=
  ⟨fun _ h => absurd h fail_ne_ok, fun e he => by rw [fail_eq_error.mp he]; exact hB⟩

theorem ok_iff (h : Tells x G B) (hB : ∀ e, B e → ¬ G) : (∃ a, x = .ok a) ↔ G := by
  constructor
  · rintro ⟨a, ha⟩
    exact h.ok a ha
  · intro hG
    cases hx : x with
    | ok a => exact ⟨a, rfl⟩
    | error e => exact absurd hG (hB e (h.error e hx))

theorem mono (h : Tells x G B) (hG : G → G') (hB : ∀ e, B e → B' e) : Tells x G' B' :=
  ⟨fun a ha => hG (h.ok a ha), fun e he => hB e (h.error e he)⟩

theorem bind (hx : Tells x G B) (hf : ∀ a, x = .ok a → Tells (f a) G' B') :
    Tells (x >>= f) (G ∧ G') fun e => B e ∨ B' e := by
  constructor
  · intro b hb
    obtain ⟨a, ha, hb⟩ := bind_eq_ok.mp hb
    exact ⟨hx.ok a ha, (hf a ha).ok b hb⟩
  · intro e he
    rcases bind_eq_error.mp he with he | ⟨a, ha, he⟩
    · exact .inl (hx.error e he)
    · exact .inr ((hf a ha).error e he)

/-- A step that is followed by one that cannot fail. -/
theorem bind_ok (hx : Tells x G B) (hf : ∀ a, ∃ b, f a = .ok b) : Tells (x >>= f) G B := by
  constructor
  · intro b hb
    obtain ⟨a, ha, _⟩ := bind_eq_ok.mp hb
    exact hx.ok a ha
  · intro e he
    rcases bind_eq_error.mp he with he | ⟨a, _, he⟩
    · exact hx.error e he
    · obtain ⟨b, hb⟩ := hf a
      rw [hb] at he
      cases he

theorem map {f : α → β} (hx : Tells x G B) : Tells (Except.map f x) G B := by
  constructor
  · intro b hb
    obtain ⟨a, ha, _⟩ := map_eq_ok.mp hb
    exact hx.ok a ha
  · exact fun e he => hx.error e (map_eq_error.mp he)

theorem within (hx : Tells x G B) (hB : ∀ e position, B e → B (e.within position))
    {position : Text} : Tells (Result.within position x) G B := by
  constructor
  · exact fun a ha => hx.ok a (within_eq_ok.mp ha)
  · intro e he
    obtain ⟨f, hf, rfl⟩ := within_eq_error.mp he
    exact hB f position (hx.error f hf)

theorem mapM {f : α → Result β} {xs : List α} {G : α → Prop} {B : α → Failure → Prop}
    (hf : ∀ a ∈ xs, Tells (f a) (G a) (B a)) :
    Tells (xs.mapM f) (∀ a ∈ xs, G a) fun e => ∃ a ∈ xs, B a e := by
  constructor
  · intro ys hys a ha
    have hall := mapM_eq_ok.mp hys
    clear hys
    induction hall with
    | nil => cases ha
    | cons hb _ ih =>
      rcases List.mem_cons.mp ha with rfl | ha
      · exact (hf a List.mem_cons_self).ok _ hb
      · exact ih (fun c hc => hf c (List.mem_cons_of_mem _ hc)) ha
  · intro e he
    obtain ⟨a, ha, he⟩ := mapM_eq_error he
    exact ⟨a, ha, (hf a ha).error e he⟩

/-- A run of steps that keep `I`: when it fails, it does so at the first step that does. -/
theorem foldlM {σ : Type} {I : σ → Prop} {f : σ → α → Result σ} {xs : List α} {G : α → Prop}
    {B : α → Failure → Prop} (hkeep : ∀ s x t, x ∈ xs → I s → f s x = .ok t → I t)
    (hf : ∀ s x, x ∈ xs → I s → Tells (f s x) (G x) (B x)) {s : σ} (hs : I s) :
    Tells (xs.foldlM f s) (∀ x ∈ xs, G x) fun e =>
      ∃ before x after, xs = before ++ x :: after ∧ (∀ y ∈ before, G y) ∧ B x e := by
  induction xs generalizing s with
  | nil => exact .of_ok rfl nofun
  | cons x xs ih =>
    have hx := hf s x List.mem_cons_self hs
    have hrest := fun u (hu : f s x = .ok u) =>
      ih (fun s y t hy => hkeep s y t (List.mem_cons_of_mem _ hy))
        (fun s y hy => hf s y (List.mem_cons_of_mem _ hy)) (hkeep s x u List.mem_cons_self hs hu)
    rw [List.foldlM_cons]
    constructor
    · intro t ht y hy
      obtain ⟨u, hu, ht⟩ := bind_eq_ok.mp ht
      rcases List.mem_cons.mp hy with rfl | hy
      · exact hx.ok u hu
      · exact (hrest u hu).ok t ht y hy
    · intro e he
      rcases bind_eq_error.mp he with he | ⟨u, hu, he⟩
      · exact ⟨[], x, xs, rfl, nofun, hx.error e he⟩
      · obtain ⟨before, y, after, rfl, hbefore, hy⟩ := (hrest u hu).error e he
        refine ⟨x :: before, y, after, rfl, ?_, hy⟩
        intro z hz
        rcases List.mem_cons.mp hz with rfl | hz
        · exact hx.ok u hu
        · exact hbefore z hz

end Tells

/-! ### Two runs -/

/-- Two steps both succeed, with results that are related, or both fail. -/
inductive Agree (R : α → β → Prop) : Result α → Result β → Prop
  | ok {a : α} {b : β} : R a b → Agree R (.ok a) (.ok b)
  | error {e f : Failure} : Agree R (.error e) (.error f)

namespace Agree
variable {γ δ : Type} {R : α → β → Prop} {S : γ → δ → Prop} {x : Result α} {y : Result β}

theorem fail {c c' : Cause} : Agree R (Result.fail c) (Result.fail c') := .error

theorem self : Agree (fun _ _ => True) x x := by
  cases x with
  | ok a => exact .ok trivial
  | error e => exact .error

theorem ok_iff (h : Agree R x y) : (∃ a, x = .ok a) ↔ ∃ b, y = .ok b := by
  cases h <;> simp

theorem of_ok (h : Agree R x y) {a : α} {b : β} (hx : x = .ok a) (hy : y = .ok b) : R a b := by
  subst hx hy
  cases h
  assumption

theorem of_iff (h : (∃ a, x = .ok a) ↔ ∃ b, y = .ok b)
    (hR : ∀ a b, x = .ok a → y = .ok b → R a b) : Agree R x y := by
  cases x with
  | ok a =>
    obtain ⟨b, rfl⟩ := h.mp ⟨a, rfl⟩
    exact .ok (hR a b rfl rfl)
  | error e =>
    cases y with
    | ok b =>
      obtain ⟨a, ha⟩ := h.mpr ⟨b, rfl⟩
      cases ha
    | error f => exact .error

theorem mono {R' : α → β → Prop} (h : Agree R x y) (hR : ∀ a b, R a b → R' a b) :
    Agree R' x y := by
  cases h with
  | ok hab => exact .ok (hR _ _ hab)
  | error => exact .error

theorem bind {f : α → Result γ} {f' : β → Result δ} (h : Agree R x y)
    (hf : ∀ a b, x = .ok a → y = .ok b → R a b → Agree S (f a) (f' b)) :
    Agree S (x >>= f) (y >>= f') := by
  cases h with
  | ok hab => exact hf _ _ rfl rfl hab
  | error => exact .error

theorem map {f : α → γ} {f' : β → δ} (h : Agree R x y) (hf : ∀ a b, R a b → S (f a) (f' b)) :
    Agree S (Except.map f x) (Except.map f' y) := by
  cases h with
  | ok hab => exact .ok (hf _ _ hab)
  | error => exact .error

theorem within {p q : Text} (h : Agree R x y) :
    Agree R (Result.within p x) (Result.within q y) := by
  cases h with
  | ok hab => exact .ok hab
  | error => exact .error

end Agree

end SchemaLoom.Result

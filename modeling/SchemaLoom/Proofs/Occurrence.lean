import SchemaLoom.Expr.Build
import SchemaLoom.Proofs.Result

/-!
# References inside expressions

What is inside an expression, at any depth. Constraints, defaults, literals and
descriptions hold no references at all; joining parts into one expression adds
none.
-/

namespace SchemaLoom

set_option autoImplicit false

namespace Expr

/-- The expression `x` stands somewhere inside another one. -/
inductive Occurs (x : Expr) : Expr → Prop
  | here : Occurs x x
  | call {name : Text} {args : List Expr} {e : Expr} : e ∈ args → Occurs x e →
      Occurs x (.call name args)
  | chain {parts : List Expr} {e : Expr} : e ∈ parts → Occurs x e → Occurs x (.chain parts)
  | object {props : List (Text × Expr)} {p : Text × Expr} : p ∈ props → Occurs x p.2 →
      Occurs x (.object props)
  | array {elems : List Expr} {e : Expr} : e ∈ elems → Occurs x e → Occurs x (.array elems)

/-- Direct references inside the expression are as `P` says, deferred ones as `Q` says. -/
structure Keeps (P Q : NodeId → Prop) (e : Expr) : Prop where
  now : ∀ n, (ref n).Occurs e → P n
  later : ∀ n, (lazy n).Occurs e → Q n

def KeepsAll (P Q : NodeId → Prop) (es : List Expr) : Prop := ∀ e ∈ es, e.Keeps P Q

section Keeps
variable {P Q : NodeId → Prop}

@[simp] theorem keeps_ident (name : Text) : (ident name).Keeps P Q := by
  constructor <;> intro n h <;> cases h

@[simp] theorem keeps_raw (text : Text) : (raw text).Keeps P Q := by
  constructor <;> intro n h <;> cases h

theorem keeps_ref {n : NodeId} (h : P n) : (ref n).Keeps P Q := by
  constructor
  · intro m hm
    cases hm
    exact h
  · intro m hm
    cases hm

theorem keeps_lazy {n : NodeId} (h : Q n) : (lazy n).Keeps P Q := by
  constructor
  · intro m hm
    cases hm
  · intro m hm
    cases hm
    exact h

@[simp] theorem keepsAll_nil : KeepsAll P Q [] := by simp [KeepsAll]

@[simp] theorem keepsAll_cons {e : Expr} {es : List Expr} :
    KeepsAll P Q (e :: es) ↔ e.Keeps P Q ∧ KeepsAll P Q es := by simp [KeepsAll]

@[simp] theorem keepsAll_append {es fs : List Expr} :
    KeepsAll P Q (es ++ fs) ↔ KeepsAll P Q es ∧ KeepsAll P Q fs := by
  simp [KeepsAll, or_imp, forall_and]

@[simp] theorem keeps_call {name : Text} {args : List Expr} :
    (call name args).Keeps P Q ↔ KeepsAll P Q args := by
  constructor
  · exact fun h e he => ⟨fun n hn => h.now n (.call he hn), fun n hn => h.later n (.call he hn)⟩
  · intro h
    constructor
    · rintro n (_ | ⟨he, hn⟩)
      exact (h _ he).now n hn
    · rintro n (_ | ⟨he, hn⟩)
      exact (h _ he).later n hn

@[simp] theorem keeps_chain {parts : List Expr} :
    (chain parts).Keeps P Q ↔ KeepsAll P Q parts := by
  constructor
  · exact fun h e he => ⟨fun n hn => h.now n (.chain he hn), fun n hn => h.later n (.chain he hn)⟩
  · intro h
    constructor
    · rintro n (_ | _ | ⟨he, hn⟩)
      exact (h _ he).now n hn
    · rintro n (_ | _ | ⟨he, hn⟩)
      exact (h _ he).later n hn

@[simp] theorem keeps_array {elems : List Expr} :
    (array elems).Keeps P Q ↔ KeepsAll P Q elems := by
  constructor
  · exact fun h e he => ⟨fun n hn => h.now n (.array he hn), fun n hn => h.later n (.array he hn)⟩
  · intro h
    constructor
    · rintro n (_ | _ | _ | _ | ⟨he, hn⟩)
      exact (h _ he).now n hn
    · rintro n (_ | _ | _ | _ | ⟨he, hn⟩)
      exact (h _ he).later n hn

@[simp] theorem keeps_object {props : List (Text × Expr)} :
    (object props).Keeps P Q ↔ ∀ p ∈ props, p.2.Keeps P Q := by
  constructor
  · intro h p hp
    exact ⟨fun n hn => h.now n (.object hp hn), fun n hn => h.later n (.object hp hn)⟩
  · intro h
    constructor
    · rintro n (_ | _ | _ | ⟨hp, hn⟩)
      exact (h _ hp).now n hn
    · rintro n (_ | _ | _ | ⟨hp, hn⟩)
      exact (h _ hp).later n hn

theorem Keeps.mono {P' Q' : NodeId → Prop} {e : Expr} (h : e.Keeps P Q) (hP : ∀ n, P n → P' n)
    (hQ : ∀ n, Q n → Q' n) : e.Keeps P' Q' :=
  ⟨fun n hn => hP n (h.now n hn), fun n hn => hQ n (h.later n hn)⟩

/-! ### Joining parts -/

theorem keepsAll_parts {e : Expr} (h : e.Keeps P Q) : KeepsAll P Q e.parts := by
  unfold parts
  split
  · exact keeps_chain.mp h
  · exact keepsAll_cons.mpr ⟨h, keepsAll_nil⟩

theorem keeps_ofParts {groups : List (List Expr)} (h : ∀ es ∈ groups, KeepsAll P Q es) :
    (ofParts groups).Keeps P Q := by
  have hall : KeepsAll P Q (groups.flatten.flatMap parts) := by
    intro e he
    obtain ⟨f, hf, he⟩ := List.mem_flatMap.mp he
    obtain ⟨es, hes, hf⟩ := List.mem_flatten.mp hf
    exact keepsAll_parts (h es hes f hf) e he
  unfold ofParts
  split
  · rename_i e heq
    rw [heq] at hall
    split
    · exact keeps_chain.mpr hall
    · exact hall e (by simp)
  · exact keeps_chain.mpr hall

@[simp] theorem keeps_method (name : Text) : (method name).Keeps P Q := by simp [method]

@[simp] theorem keepsAll_fromZ {es : List Expr} : KeepsAll P Q (fromZ es) ↔ KeepsAll P Q es := by
  simp [fromZ, z]

/-! ### Expressions without references -/

@[simp] theorem keepsAll_plain (names : List String) : KeepsAll P Q (plain names) := by
  rw [plain, keepsAll_fromZ]
  intro e he
  obtain ⟨name, _, rfl⟩ := List.mem_map.mp he
  exact keeps_method _

theorem keeps_ofValue_all (big : Bool) :
    (∀ v e, ofValue big v = .ok e → e.Keeps P Q) ∧
    (∀ vs es, ofValues big vs = .ok es → KeepsAll P Q es) := by
  apply ofValue.mutual_induct
  · intro s e h
    cases h
    simp [quoted]
  · intro n e h
    cases h
    simp
  · intro b e h
    cases h
    simp
  · intro e h
    cases h
    simp
  · intro vs ih e h
    obtain ⟨es, hes, rfl⟩ := Result.map_eq_ok.mp h
    exact keeps_array.mpr (ih es hes)
  · intro type s e h
    cases h
    simp [quoted]
  · intro type constructor args hother e h
    rw [ofValue] at h
    · simp at h
    · exact hother
  · intro e h
    simp [ofValue] at h
  · intro e h
    simp [ofValue] at h
  · intro es h
    cases h
    simp
  · intro v vs ihv ihvs es h
    rw [ofValues] at h
    obtain ⟨x, hx, h⟩ := Result.bind_eq_ok.mp h
    obtain ⟨xs, hxs, h⟩ := Result.bind_eq_ok.mp h
    cases h
    exact keepsAll_cons.mpr ⟨ihv x hx, ihvs xs hxs⟩

theorem keeps_ofValue {big : Bool} {v : Value} {e : Expr} (h : ofValue big v = .ok e) :
    e.Keeps P Q := (keeps_ofValue_all big).1 v e h

theorem keeps_ofLiteral {v : Option Value} {e : Expr} (h : ofLiteral v = .ok e) :
    e.Keeps P Q := by
  unfold ofLiteral at h
  split at h
  · simp at h
  · split at h
    · exact keeps_ofValue h
    · simp at h

@[simp] theorem keeps_ofMember (name : Text) (v : Option Value) :
    (ofMember name v).Keeps P Q := by
  unfold ofMember
  split <;> simp [quoted]

@[simp] theorem keepsAll_describe (sources : List Node) : KeepsAll P Q (describe sources) := by
  unfold describe
  split <;> simp

end Keeps

end Expr

end SchemaLoom

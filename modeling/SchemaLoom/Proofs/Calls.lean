import SchemaLoom.Proofs.Uses

/-!
# Calls behind a schema

What may follow the start of a chain: calls that narrow the schema, those that a property
adds, and a description. None of them holds a chain, so joining parts makes one chain and
no more. Which limits the narrowing calls set is settled in `Proofs.NumberLimits`.
-/

namespace SchemaLoom

set_option autoImplicit false

/-! ### Chains inside expressions -/

namespace Expr

/-- A part that may follow the start of a chain. -/
def isStep : Expr → Bool
  | ident _ => true
  | call _ _ => true
  | _ => false

theorem isStep_of_isCall {e : Expr} (h : e.isCall = true) : e.isStep = true := by
  cases e <;> simp_all [isCall, isStep]

/-- The parts of every chain inside the expression are as `C` says. -/
def Chains (C : List Expr → Prop) (e : Expr) : Prop := ∀ ps, (chain ps).Occurs e → C ps

def ChainsAll (C : List Expr → Prop) (es : List Expr) : Prop := ∀ e ∈ es, e.Chains C

section Chains
variable {C : List Expr → Prop}

@[simp] theorem chains_ident (name : Text) : (ident name).Chains C := by
  intro ps h
  cases h

@[simp] theorem chains_raw (text : Text) : (raw text).Chains C := by
  intro ps h
  cases h

@[simp] theorem chains_ref (n : NodeId) : (ref n).Chains C := by
  intro ps h
  cases h

@[simp] theorem chains_lazy (n : NodeId) : (lazy n).Chains C := by
  intro ps h
  cases h

@[simp] theorem chainsAll_nil : ChainsAll C [] := by simp [ChainsAll]

@[simp] theorem chainsAll_cons {e : Expr} {es : List Expr} :
    ChainsAll C (e :: es) ↔ e.Chains C ∧ ChainsAll C es := by simp [ChainsAll]

@[simp] theorem chains_call {name : Text} {args : List Expr} :
    (call name args).Chains C ↔ ChainsAll C args := by
  constructor
  · exact fun h e he ps hps => h ps (.call he hps)
  · intro h ps hps
    cases hps with
    | call he hps => exact h _ he ps hps

@[simp] theorem chains_array {elems : List Expr} :
    (array elems).Chains C ↔ ChainsAll C elems := by
  constructor
  · exact fun h e he ps hps => h ps (.array he hps)
  · intro h ps hps
    cases hps with
    | array he hps => exact h _ he ps hps

@[simp] theorem chains_object {props : List (Text × Expr)} :
    (object props).Chains C ↔ ∀ p ∈ props, p.2.Chains C := by
  constructor
  · exact fun h p hp ps hps => h ps (.object hp hps)
  · intro h ps hps
    cases hps with
    | object hp hps => exact h _ hp ps hps

@[simp] theorem chains_chain {parts : List Expr} :
    (chain parts).Chains C ↔ C parts ∧ ChainsAll C parts := by
  constructor
  · exact fun h => ⟨h parts .here, fun e he ps hps => h ps (.chain he hps)⟩
  · intro h ps hps
    cases hps with
    | here => exact h.1
    | chain he hps => exact h.2 _ he ps hps

theorem Chains.mono {D : List Expr → Prop} {e : Expr} (h : e.Chains C) (hCD : ∀ ps, C ps → D ps) :
    e.Chains D := fun ps hps => hCD ps (h ps hps)

/-! ### Joining parts -/

theorem parts_of_isStep {e : Expr} (h : e.isStep = true) : e.parts = [e] := by
  cases e <;> simp_all [isStep, parts]

theorem flatMap_parts_of_steps {es : List Expr} (h : ∀ e ∈ es, e.isStep = true) :
    es.flatMap parts = es := by
  induction es with
  | nil => rfl
  | cons e es ih =>
    rw [List.flatMap_cons, parts_of_isStep (h e List.mem_cons_self),
      ih fun f hf => h f (List.mem_cons_of_mem e hf)]
    rfl

/-- A start and steps behind it are joined as they are; a start alone stands alone. -/
theorem ofParts_start {start : Expr} {groups : List (List Expr)} {es : List Expr}
    (hstart : start.parts = [start]) (hcall : start.isCall = false)
    (hgroups : groups.flatten = start :: es) (hes : ∀ e ∈ es, e.isStep = true) :
    ofParts groups = if es = [] then start else chain (start :: es) := by
  have hparts : groups.flatten.flatMap parts = start :: es := by
    rw [hgroups, List.flatMap_cons, hstart, flatMap_parts_of_steps hes]
    rfl
  unfold ofParts
  rw [hparts]
  cases es with
  | nil => simp [hcall]
  | cons e es => simp

theorem ofParts_chain (start step : Expr) (es : List Expr) {groups : List (List Expr)}
    (hstart : start.parts = [start]) (hcall : start.isCall = false)
    (hgroups : groups.flatten = start :: step :: es)
    (hes : ∀ e ∈ step :: es, e.isStep = true) : ofParts groups = chain (start :: step :: es) := by
  rw [ofParts_start hstart hcall hgroups hes, if_neg (List.cons_ne_nil step es)]

theorem chains_ofParts_start (start : Expr) (es : List Expr) {groups : List (List Expr)}
    (hstart : start.parts = [start]) (hcall : start.isCall = false)
    (hgroups : groups.flatten = start :: es) (hes : ∀ e ∈ es, e.isStep = true)
    (hchains : ChainsAll C (start :: es)) (hC : es ≠ [] → C (start :: es)) :
    (ofParts groups).Chains C := by
  rw [ofParts_start hstart hcall hgroups hes]
  split
  · exact (chainsAll_cons.mp hchains).1
  · rename_i hne
    exact chains_chain.mpr ⟨hC hne, hchains⟩

/-- What is in stock starts at the library. -/
theorem Stock.steps {es : List Expr} (h : Stock es) :
    ∃ rest, es = z :: rest ∧ ∀ e ∈ rest, e.isStep = true := by
  have hsteps : ∀ e ∈ es, e.isStep = true := h.forall (fun _ => rfl) fun _ => rfl
  cases h with
  | plain _ => exact ⟨_, rfl, fun e he => hsteps e (List.mem_cons_of_mem _ he)⟩
  | date => exact ⟨_, rfl, fun e he => hsteps e (List.mem_cons_of_mem _ he)⟩

/-! ### What follows a start -/

/-- The methods that limit a length or a number of items. -/
def countMethods : List Text := ["min", "max"]

/-- The methods that limit a number by another one. -/
def limitMethods : List Text := ["gte", "gt", "lte", "lt"]

/-- The methods whose argument limits a value. -/
def narrowingMethods : List Text := Text.ofString "regex" :: countMethods ++ limitMethods

/-- A call that narrows a schema: a method of its own, or one with a limit. -/
def Narrows (e : Expr) : Prop :=
  (∃ name, e = method name) ∨ ∃ name ∈ narrowingMethods, ∃ t, e = call name [raw t]

/-- A call that may follow the start of a chain and has no chain inside. -/
structure Trails (e : Expr) : Prop where
  isCall : e.isCall = true
  chains : ∀ C, e.Chains C

theorem Narrows.trails {e : Expr} (h : e.Narrows) : e.Trails := by
  rcases h with ⟨name, rfl⟩ | ⟨name, _, t, rfl⟩
  · exact ⟨rfl, by simp [method]⟩
  · exact ⟨rfl, by simp⟩

/-- A value is written with texts and arrays only. -/
theorem occurs_ofValue_all (big : Bool) (x : Expr) :
    (∀ v e, ofValue big v = .ok e → x.Occurs e → (∃ t, x = raw t) ∨ ∃ es, x = array es) ∧
    (∀ vs es, ofValues big vs = .ok es → ∀ e ∈ es, x.Occurs e →
      (∃ t, x = raw t) ∨ ∃ es, x = array es) := by
  have hraw : ∀ t, x.Occurs (raw t) → (∃ t, x = raw t) ∨ ∃ es, x = array es := by
    intro t hx
    cases hx
    exact .inl ⟨t, rfl⟩
  apply ofValue.mutual_induct
  · intro s e h
    cases h
    exact hraw _
  · intro n e h
    cases h
    exact hraw _
  · intro b e h
    cases h
    exact hraw _
  · intro e h
    cases h
    exact hraw _
  · intro vs ih e h hx
    obtain ⟨es, hes, rfl⟩ := Result.map_eq_ok.mp h
    cases hx with
    | here => exact .inr ⟨es, rfl⟩
    | array he hx => exact ih es hes _ he hx
  · intro type s e h
    cases h
    exact hraw _
  · intro type constructor args hother e h
    rw [ofValue] at h
    · exact absurd h Result.fail_ne_ok
    · exact hother
  · exact fun e h => absurd h Result.fail_ne_ok
  · exact fun e h => absurd h Result.fail_ne_ok
  · intro es h
    cases h
    simp
  · intro v vs ihv ihvs es h
    rw [ofValues] at h
    obtain ⟨y, hy, h⟩ := Result.bind_eq_ok.mp h
    obtain ⟨ys, hys, h⟩ := Result.bind_eq_ok.mp h
    cases h
    intro e he
    rcases List.mem_cons.mp he with rfl | he
    · exact ihv e hy
    · exact ihvs ys hys e he

theorem chains_ofValue {big : Bool} {v : Value} {e : Expr} (h : ofValue big v = .ok e) :
    e.Chains C := by
  intro ps hps
  rcases (occurs_ofValue_all big _).1 v e h hps with ⟨t, ht⟩ | ⟨es, hes⟩
  · cases ht
  · cases hes

theorem chains_ofLiteral {v : Option Value} {e : Expr}
    (h : ofLiteral v = .ok e) : e.Chains C := by
  unfold ofLiteral at h
  split at h
  · simp at h
  · split at h
    · exact chains_ofValue h
    · simp at h

theorem chains_ofMember (name : Text) (v : Option Value) :
    (ofMember name v).Chains C := by
  unfold ofMember
  split <;> simp [quoted]

theorem mem_describe {ns : List Node} {e : Expr} (h : e ∈ describe ns) :
    ∃ t, e = call "describe" [raw t] := by
  unfold describe at h
  split at h
  · exact ⟨_, List.mem_singleton.mp h⟩
  · cases h

theorem trails_of_mem_describe {ns : List Node} {e : Expr} (h : e ∈ describe ns) : e.Trails := by
  obtain ⟨t, rfl⟩ := mem_describe h
  exact ⟨rfl, by simp⟩

end Chains

end Expr

open SchemaLoom.Expr

/-- The calls of a range: methods of their own, and limits by a number of the range. -/
theorem Range.mem_calls {r : Range} {big : Bool} {es : List Expr} (h : r.calls big = .ok es)
    {e : Expr} (he : e ∈ es) :
    (∃ name, e = Expr.method name) ∨ ∃ name ∈ limitMethods, ∃ n,
      (r.min = some n ∨ r.minExclusive = some n ∨ r.max = some n ∨ r.maxExclusive = some n) ∧
        e = .call name [.raw (n.literal big)] := by
  have hmap : ∀ (f : Number → Expr) (n : Option Number), e ∈ n.toList.map f →
      ∃ k, n = some k ∧ e = f k := by
    intro f n he
    obtain ⟨k, hk, rfl⟩ := List.mem_map.mp he
    exact ⟨k, Option.mem_toList.mp hk, rfl⟩
  rw [calls_eq] at h
  cases h
  simp only [List.mem_append] at he
  rcases he with (((he | he) | he) | he) | he
  · split at he
    · exact .inl ⟨_, List.mem_singleton.mp he⟩
    · cases he
  · obtain ⟨k, hk, rfl⟩ := hmap _ _ he
    unfold minExpr
    split
    · exact .inl ⟨_, rfl⟩
    · exact .inr ⟨"gte", by decide, k, .inl hk, rfl⟩
  · obtain ⟨k, hk, rfl⟩ := hmap _ _ he
    exact .inr ⟨"gt", by decide, k, .inr (.inl hk), rfl⟩
  · obtain ⟨k, hk, rfl⟩ := hmap _ _ he
    exact .inr ⟨"lte", by decide, k, .inr (.inr (.inl hk)), rfl⟩
  · obtain ⟨k, hk, rfl⟩ := hmap _ _ he
    exact .inr ⟨"lt", by decide, k, .inr (.inr (.inr hk)), rfl⟩

theorem mem_countCall {name : String} {limit : Option Int} {e : Expr}
    (he : e ∈ countCall name limit) :
    ∃ n, limit = some n ∧ 0 < n ∧ e = .call (Text.ofString name) [.integer n] := by
  unfold countCall at he
  split at he
  · rename_i n
    split at he
    · rename_i hpos
      exact ⟨n, rfl, hpos, List.mem_singleton.mp he⟩
    · cases he
  · cases he

theorem mem_arrayCalls {ds : List Decorators} {e : Expr} (he : e ∈ arrayCalls ds) :
    ∃ name ∈ countMethods, ∃ z, e = .call name [.integer z] := by
  rcases List.mem_append.mp he with he | he
  · obtain ⟨n, _, _, rfl⟩ := mem_countCall he
    exact ⟨"min", by decide, n, rfl⟩
  · obtain ⟨n, _, _, rfl⟩ := mem_countCall he
    exact ⟨"max", by decide, n, rfl⟩

theorem mem_stringCalls {ds : List Decorators} {e : Expr} (he : e ∈ stringCalls ds) :
    (∃ name, e = Expr.method name) ∨ (∃ name ∈ countMethods, ∃ z, e = .call name [.integer z]) ∨
      ∃ t, e = .call "regex" [.raw t] := by
  simp only [stringCalls, List.mem_append] at he
  rcases he with ((he | he) | he) | he
  · split at he
    · split at he
      · cases he
      · exact .inr (.inl ⟨"min", by decide, _, List.mem_singleton.mp he⟩)
    · cases he
  · obtain ⟨n, _, rfl⟩ := Option.map_eq_some_iff.mp (Option.mem_toList.mp he)
    exact .inr (.inl ⟨"max", by decide, n, rfl⟩)
  · split at he
    · cases he
    · exact .inr (.inr ⟨_, List.mem_singleton.mp he⟩)
  · obtain ⟨m, _, rfl⟩ := Option.map_eq_some_iff.mp (Option.mem_toList.mp he)
    exact .inl ⟨_, rfl⟩

theorem Range.narrows_of_mem_calls {r : Range} {big : Bool} {es : List Expr}
    (h : r.calls big = .ok es) {e : Expr} (he : e ∈ es) : e.Narrows := by
  rcases Range.mem_calls h he with hmethod | ⟨name, hname, n, _, rfl⟩
  · exact .inl hmethod
  · exact .inr ⟨name, by simp [narrowingMethods, hname], _, rfl⟩

theorem narrows_of_mem_arrayCalls {ds : List Decorators} {e : Expr} (he : e ∈ arrayCalls ds) :
    e.Narrows := by
  obtain ⟨name, hname, z, rfl⟩ := mem_arrayCalls he
  exact .inr ⟨name, by simp [narrowingMethods, hname], _, rfl⟩

theorem narrows_of_mem_stringCalls {ds : List Decorators} {e : Expr} (he : e ∈ stringCalls ds) :
    e.Narrows := by
  rcases mem_stringCalls he with hmethod | ⟨name, hname, z, rfl⟩ | ⟨t, rfl⟩
  · exact .inl hmethod
  · exact .inr ⟨name, by simp [narrowingMethods, hname], _, rfl⟩
  · exact .inr ⟨"regex", by simp [narrowingMethods], t, rfl⟩

theorem Graph.narrows_of_mem_constraints {g : Graph} {t : NodeId} {member : Option Decorators}
    {inlined : Bool} {es : List Expr} (h : g.constraints t member inlined = .ok es) {e : Expr}
    (he : e ∈ es) : e.Narrows := by
  cases Graph.narrowed_of_constraints h with
  | nothing => cases he
  | carried _ _ _ _ _ _ h => exact Range.narrows_of_mem_calls h he
  | number _ _ _ _ _ h => exact Range.narrows_of_mem_calls h he
  | text _ _ _ => exact narrows_of_mem_stringCalls he
  | items _ => exact narrows_of_mem_arrayCalls he

/-- Decorators that say nothing add no call. -/
theorem Graph.constraints_bare {g : Graph} {t : NodeId} {cs : List Expr}
    (h : g.constraints t (some {}) false = .ok cs) : cs = [] := by
  have hsources : g.sources t (some {}) false = [{}] := rfl
  have hnumber : ∀ big, numberCalls [{}] {} big = .ok [] := fun big => Range.calls_eq _ big
  cases Graph.narrowed_of_constraints h with
  | nothing => rfl
  | carried _ _ hinlined => cases hinlined
  | number _ _ _ hrange _ h =>
    cases hrange
    rw [hsources, hnumber] at h
    cases h
    rfl
  | text _ _ _ =>
    rw [hsources]
    decide
  | items _ =>
    rw [hsources]
    rfl

namespace Builder
variable {b : Builder}

theorem narrows_of_mem_constraints {s : Subject} {member : Option Node} {inlined : Bool}
    {es : List Expr} (h : b.constraints s member inlined = .ok es) {e : Expr} (he : e ∈ es) :
    e.Narrows := by
  unfold Builder.constraints at h
  split at h
  · exact Graph.narrows_of_mem_constraints h he
  · cases h
    cases he

theorem trails_of_mem_memberParts {prop : Node} {type : Option Subject} {es : List Expr}
    (h : b.memberParts prop type = .ok es) {e : Expr} (he : e ∈ es) : e.Trails := by
  rcases mem_memberParts h he with rfl | ⟨big, v, x, _, hx, rfl⟩
  · exact ⟨rfl, by simp [method]⟩
  · exact ⟨rfl, fun C => by simpa using chains_ofValue hx⟩

theorem trails_of_mem_field {t : NodeId} {prop : Node} {type : Option Subject}
    {cs member : List Expr} (hcs : b.graph.constraints t (some prop.decorators) false = .ok cs)
    (hmember : b.memberParts prop type = .ok member) {e : Expr}
    (he : e ∈ cs ++ member ++ describe [prop]) : e.Trails := by
  simp only [List.mem_append] at he
  rcases he with (he | he) | he
  · exact (Graph.narrows_of_mem_constraints hcs he).trails
  · exact trails_of_mem_memberParts hmember he
  · exact trails_of_mem_describe he

theorem inlineParts_of_kind (base : BaseOf) {t : NodeId}
    (hkind : (b.graph.node t).kind ≠ .modelProperty) :
    b.inlineParts base (b.graph.subject t) = (do
      let bs ← base (b.graph.subject t)
      let cs ← b.constraints (b.graph.subject t) none true
      .ok { base := bs, constraints := cs
            description := describe (b.describedBy (b.graph.subject t)) }) := by
  rw [inlineParts, if_neg (by simpa [Graph.subject] using hkind)]

end Builder

end SchemaLoom

import SchemaLoom.Proofs.Completion
import SchemaLoom.Proofs.Origins

/-!
# Why there is no plan

Planning the graph of a document is refused for one reason only: some default of the
document has no expression, because an object or a constructor call stands in it. No
node is met again while it is written out, no limit is unknown, and cyclic types are
deferred, never refused.
-/

namespace SchemaLoom

set_option autoImplicit false

open SchemaLoom.Expr

/-! ### Values without an expression -/

/-- A value stands in another one, at some depth of arrays. -/
inductive Value.StandsIn (x : Value) : Value → Prop
  | here : StandsIn x x
  | item {vs : List Value} {v : Value} : v ∈ vs → StandsIn x v → StandsIn x (.array vs)

/-- An object, or a constructor call other than that of a date by its text. -/
def Value.Unsupported (x : Value) : Prop :=
  x = .object ∨ ∃ name constructor args, x = .scalar name constructor args ∧
    ¬ (constructor = "fromISO" ∧ ∃ s, args = [.string s])

/-- A value of known form is writable, or something in it is not supported. -/
theorem writable_or_unsupported_all :
    (∀ v : Value, ¬ Value.unknown.StandsIn v →
      v.Writable ∨ ∃ x : Value, x.StandsIn v ∧ x.Unsupported) ∧
    (∀ vs : List Value, (∀ v ∈ vs, ¬ Value.unknown.StandsIn v) →
      (∃ xs, ofValues false vs = .ok xs) ∨
        ∃ v ∈ vs, ∃ x : Value, x.StandsIn v ∧ x.Unsupported) := by
  apply ofValue.mutual_induct
  · exact fun s _ => .inl ⟨_, rfl⟩
  · exact fun n _ => .inl ⟨_, rfl⟩
  · exact fun b _ => .inl ⟨_, rfl⟩
  · exact fun _ => .inl ⟨_, rfl⟩
  · intro vs ih hknown
    rcases ih fun v hv h => hknown (.item hv h) with ⟨xs, hxs⟩ | ⟨v, hv, x, hx, hunsupported⟩
    · exact .inl ⟨.array xs, by rw [ofValue, hxs]; rfl⟩
    · exact .inr ⟨x, .item hv hx, hunsupported⟩
  · exact fun type s _ => .inl ⟨_, rfl⟩
  · intro type constructor args hother _
    refine .inr ⟨_, .here, .inr ⟨type, constructor, args, rfl, ?_⟩⟩
    intro hdate
    obtain ⟨hname, s, hs⟩ := hdate
    exact hother s hname hs
  · exact fun _ => .inr ⟨_, .here, .inl rfl⟩
  · exact fun hknown => absurd .here hknown
  · exact fun _ => .inl ⟨_, rfl⟩
  · intro v vs ihv ihvs hknown
    rcases ihv (hknown v List.mem_cons_self) with ⟨x, hx⟩ | ⟨x, hx, hunsupported⟩
    · rcases ihvs fun w hw => hknown w (List.mem_cons_of_mem v hw) with ⟨xs, hxs⟩ | ⟨w, hw, hrest⟩
      · exact .inl ⟨x :: xs, by rw [ofValues, hx, hxs]; rfl⟩
      · exact .inr ⟨w, List.mem_cons_of_mem v hw, hrest⟩
    · exact .inr ⟨v, List.mem_cons_self, x, hx, hunsupported⟩

/-! ### Defaults of the document -/

/-- A default that hinders a plan is the default of a property of the document. -/
theorem Graph.exists_default_of_not_writable {d : Document} {g : Graph}
    (hlink : Graph.link d = .ok g) (h : ¬ g.Writable) :
    ∃ p v, d.Holds p ∧ p.default = some v ∧ ¬ v.Writable := by
  by_contra hall
  apply h
  intro m _ n _ q _ v hv
  obtain ⟨p, hp, hdefault⟩ := (Graph.drawn_of_link hlink q).default v hv
  by_contra hnot
  exact hall ⟨p, v, hp, hdefault, hnot⟩

/-- When planning the graph of a document ends with a failure, a value is not supported, and it
stands in the default of some property. Values of no known form, which no text spells, are left
out. -/
theorem plan_fails_at_default {d : Document} {g : Graph} {e : Failure}
    (hlink : Graph.link d = .ok g) (hplan : plan g {} = .error e) (hends : e.cause ≠ .diverges)
    (hknown : ∀ p, d.Holds p → ∀ v, p.default = some v → ¬ Value.unknown.StandsIn v) :
    (∃ reason, e.cause = .unsupportedValue reason) ∧
    ∃ (p : Property) (v x : Value), d.Holds p ∧ p.default = some v ∧ x.StandsIn v ∧
      x.Unsupported := by
  rcases (Graph.linked_of_link hlink).tells_plan.error e hplan with ⟨_, hcause⟩ | ⟨hnot, hcause⟩
  · exact absurd hcause hends
  · obtain ⟨p, v, hp, hdefault, hv⟩ := Graph.exists_default_of_not_writable hlink hnot
    obtain ⟨x, hx, hunsupported⟩ :=
      (writable_or_unsupported_all.1 v (hknown p hp v hdefault)).resolve_left hv
    exact ⟨hcause, p, v, x, hp, hdefault, hx, hunsupported⟩

/-- A list whose nodes have a default that holds an object. -/
def objectDefault : Document where
  models :=
    [{ name := "Node"
       properties :=
         [{ name := "next", type := .named "Node", optional := true },
          { name := "tags", type := { array := some (.named "string") }
            default := some (.array [.string "a", .array [.object]]) }] }]

theorem default_objectDefault {p : Property} (h : objectDefault.Holds p) {v : Value}
    (hv : p.default = some v) : v = .array [.string "a", .array [.object]] := by
  cases h with
  | own hm hp =>
    rw [List.mem_singleton.mp hm] at hp
    rcases List.mem_pair.mp hp with rfl | rfl
    · cases hv
    · exact (Option.some.inj hv).symm
  | property hm hq hp =>
    rw [List.mem_singleton.mp hm] at hq
    rcases List.mem_pair.mp hq with rfl | rfl
    · exact absurd hp TypeRef.not_holds_named
    · exact absurd hp.of_array TypeRef.not_holds_named
  | base hm ht _ =>
    rw [List.mem_singleton.mp hm] at ht
    cases ht
  | source hm ht _ =>
    rw [List.mem_singleton.mp hm] at ht
    cases ht
  | variant hu _ _ => cases hu

set_option maxRecDepth 100000 in
theorem plan_fails_at_default_objectDefault : ∃ g e, Graph.link objectDefault = .ok g ∧
    plan g {} = .error e ∧ e.cause ≠ .diverges ∧
    (∀ p, objectDefault.Holds p → ∀ v, p.default = some v → ¬ Value.unknown.StandsIn v) ∧
    (∃ reason, e.cause = .unsupportedValue reason) ∧
    ∃ (p : Property) (v x : Value), objectDefault.Holds p ∧ p.default = some v ∧ x.StandsIn v ∧
      x.Unsupported := by
  have hrun : (Graph.link objectDefault).map (fun g => (plan g {}).cause?) =
      .ok (some (.unsupportedValue "unsupported default value kind")) := by
    decide +kernel
  obtain ⟨g, hg, hcause⟩ := Result.map_eq_ok.mp hrun
  obtain ⟨e, he, hcause⟩ := Result.cause?_eq_some.mp hcause
  have hends : e.cause ≠ .diverges := by
    rw [hcause]
    exact Cause.noConfusion
  have hknown : ∀ p, objectDefault.Holds p → ∀ v, p.default = some v →
      ¬ Value.unknown.StandsIn v := by
    intro p hp v hv hunknown
    rw [default_objectDefault hp hv] at hunknown
    cases hunknown with
    | item hw hunknown =>
      rcases List.mem_pair.mp hw with rfl | rfl
      · cases hunknown
      · cases hunknown with
        | item hw hunknown =>
          rw [List.mem_singleton.mp hw] at hunknown
          cases hunknown
  exact ⟨g, e, hg, he, hends, hknown, plan_fails_at_default hg he hends hknown⟩

end SchemaLoom

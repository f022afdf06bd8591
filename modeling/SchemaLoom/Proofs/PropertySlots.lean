import SchemaLoom.Proofs.ImportEnds

/-!
# Slots of properties

Each property of an object schema comes out as one property of a list, under the same name, and
optional unless that schema requires it. A model has the lists of the parts of a conjunction
before that of the schema itself. None of that depends on what was imported before.

Nothing is said here of the types of properties.
-/

namespace SchemaLoom

set_option autoImplicit false

/-- The name of a property, and whether it can be left out. -/
def Property.slot (p : Property) : Text × Bool := (p.name, p.optional)

namespace Schema

def requires (s : Schema) (key : String) : Bool := (s.keywords.required.getD []).contains key

/-- The slots of the properties, in their order. -/
def slots (s : Schema) : List (Text × Bool) :=
  s.orderedProperties.map fun key => (Text.ofString key, !s.requires key)

/-- The schemas whose properties a model has: the parts that give properties, then the schema. -/
def pieces (s : Schema) : List Schema := s.parts.filter isMixin ++ [s]

/-- It is declared as a model with properties of its own. -/
def isModelled (s : Schema) : Bool :=
  s.keywords.ref.isEmpty && !s.isEnumerated && !s.hasVariants && !s.isArray &&
    (s.isObject || !s.parts.isEmpty)

theorem names_of_slots {cs : List Schema} {ps : List Property}
    (h : ps.map Property.slot = cs.flatMap slots) :
    ps.map (·.name) = (cs.flatMap orderedProperties).map Text.ofString := by
  have hnames := congrArg (List.map Prod.fst) h
  simpa [List.map_flatMap, slots, Property.slot, Function.comp_def] using hnames

end Schema

namespace Import

namespace Gives
variable {α β : Type} {m : Import α} {P : α → Prop}

theorem bind_of {f : α → Import β} {Q : β → Prop} (hm : Gives m P)
    (hf : ∀ a, P a → Gives (f a) Q) : Gives (m >>= f) Q := by
  intro s b s' hok
  obtain ⟨⟨a, t⟩, hat, hok⟩ := Result.bind_eq_ok.mp hok
  exact hf a (hm s a t hat) t b s' hok

theorem imp {Q : α → Prop} (hm : Gives m P) (h : ∀ a, P a → Q a) : Gives m Q :=
  fun s a s' hok => h a (hm s a s' hok)

theorem mapM_map {γ : Type} {f : α → Import β} {slot : β → γ} {of : α → γ} (xs : List α)
    (hf : ∀ x, Gives (f x) fun y => slot y = of x) :
    Gives (xs.mapM f) fun ys => ys.map slot = xs.map of := by
  induction xs with
  | nil =>
    rw [List.mapM_nil]
    exact .pure rfl
  | cons x xs ih =>
    rw [List.mapM_cons]
    refine .bind_of (hf x) fun y hy => .bind_of ih fun ys hys => .pure ?_
    rw [List.map_cons, List.map_cons, hy, hys]

end Gives

section Slots
variable {root : Schema} {fuel : Nat}

theorem property_slot (owner : Text) (required : Bool) (key : String) (s : Schema) :
    Gives (property root fuel owner required key s) fun p =>
      p.slot = (Text.ofString key, !required) := by
  cases fuel with
  | zero => exact .fail
  | succ fuel =>
    refine .bind fun r => ?_
    dsimp only
    split
    · exact .bind fun _ => .pure rfl
    · exact .bind fun _ => .bind fun _ => .pure rfl

theorem properties_slots (owner : Text) (s : Schema) :
    Gives (properties root fuel owner s) fun ps => ps.map Property.slot = s.slots := by
  cases fuel with
  | zero => exact .fail
  | succ fuel => exact .mapM_map _ fun key => property_slot owner _ key _

theorem allParts_slots (name : Text) (parts : List Schema) (base : Option TypeRef)
    (props : List Property) :
    Gives (allParts root fuel name parts base props) fun r =>
      r.2.map Property.slot =
        props.map Property.slot ++ (parts.filter Schema.isMixin).flatMap Schema.slots := by
  induction fuel generalizing parts base props with
  | zero => exact .fail
  | succ fuel ih =>
    cases parts with
    | nil => exact .pure (by simp)
    | cons part rest =>
      refine .ite (fun _ => .fail) fun _ => .ite (fun href => ?_) fun href =>
        .ite (fun hobject => ?_) fun _ => .fail
      · have hmixin : part.isMixin = false := Schema.isMixin_of_ref href
        rw [List.filter_cons_of_neg (by simp [hmixin])]
        exact .ite (fun _ => .fail) fun _ => .bind fun b => ih rest (some b) props
      · have hmixin : part.isMixin = true := Schema.isMixin_of_isObject href hobject
        rw [List.filter_cons_of_pos hmixin, List.flatMap_cons]
        refine .bind_of (properties_slots name part) fun own hown => ?_
        refine (ih rest base (props ++ own)).imp fun r hr => ?_
        rw [hr, List.map_append, hown, List.append_assoc]

theorem model_slots (name : Text) (s : Schema) :
    Gives (model root fuel name s) fun m =>
      m.properties.map Property.slot = s.pieces.flatMap Schema.slots := by
  cases fuel with
  | zero => exact .fail
  | succ fuel =>
    refine .bind_of (allParts_slots name s.parts none []) fun r hr => ?_
    refine .bind_of (properties_slots name s) fun own hown => ?_
    have hall : (r.2 ++ own).map Property.slot = s.pieces.flatMap Schema.slots := by
      simp [Schema.pieces, hr, hown]
    dsimp only
    split
    · exact .bind fun _ => .pure hall
    · exact .bind fun _ => .bind fun _ => .pure hall

theorem model_named (name : Text) (s : Schema) :
    Gives (model root fuel name s) fun m => m.name = name := by
  cases fuel with
  | zero => exact .fail
  | succ fuel =>
    refine .bind fun r => .bind fun own => ?_
    dsimp only
    split
    · exact .bind fun _ => .pure rfl
    · exact .bind fun _ => .bind fun _ => .pure rfl

end Slots

end Import

end SchemaLoom

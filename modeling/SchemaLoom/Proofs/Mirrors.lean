import SchemaLoom.Proofs.Growth
import SchemaLoom.Proofs.Materials

/-!
# Documents in the shape of their schema

An imported document follows its schema. Where the schema has a property, the document has a
declaration of that property; where it has an array with items, there is a reference to an
array, with a reference for the items in it. So a subschema has a spot in the document, and
the spots of its own subschemas lie within that one, or within what is declared under a name
that stands there.

A schema with one of the primitive types has no spots below it. What stands in its own spot
is its built-in type, along with its constraints wherever there is room for them.

A spot is only given for what the document has. A reference that the importer makes and does
not use has none.
-/

namespace SchemaLoom

set_option autoImplicit false

/-! ### Schemas -/

namespace Schema

/-- A part of a conjunction that a model can have: a reference to its base, or properties. -/
def isModelPart (part : Schema) : Bool := !part.keywords.ref.isEmpty || part.isMixin

/-- One of the primitive types is given, and nothing that goes before a type. -/
structure IsPrimitive (s : Schema) : Prop where
  type : s.keywords.type ∈ ["string", "boolean", "integer", "number"]
  ref : s.keywords.ref.isEmpty = true
  enumerated : s.isEnumerated = false
  variants : s.hasVariants = false
  parts : s.parts = []

/-- The constraints with the description, as they are attached to a declaration. -/
def documented (s : Schema) : Decorators := { s.decorators with doc := s.keywords.description }

/-- The properties with their schemas, in source order. -/
def fields (s : Schema) : List (String × Schema) :=
  s.orderedProperties.map fun key => (key, (s.property? key).getD .null)

/-- The copy of a schema for one of its types; there is none for null. -/
def typed (s : Schema) (type : String) : Option Schema :=
  if type == "null" then none else some (s.ofType type)

/-- The alternatives: those written out, then the copies for the types. -/
def branches (s : Schema) : List (Option Schema) :=
  (s.under (.anyOf 0) ++ s.under (.oneOf 0)).map (fun c => some c.2) ++
    (s.keywords.types.getD []).map s.typed

namespace IsPrimitive
variable {s : Schema}

theorem isNull (hs : s.IsPrimitive) : s.isNull = false := by
  cases s with
  | null => exact absurd hs.type (by decide)
  | node => rfl

theorem isArray (hs : s.IsPrimitive) : s.isArray = false := by
  have htype := hs.type
  simp only [List.mem_cons, List.not_mem_nil, or_false] at htype
  rcases htype with h | h | h | h <;> simp [Schema.isArray, h]

theorem isObject (hs : s.IsPrimitive) : s.isObject = false := by
  have htype := hs.type
  simp only [List.mem_cons, List.not_mem_nil, or_false] at htype
  rcases htype with h | h | h | h <;> simp [Schema.isObject, h]

theorem hasBuiltInType (hs : s.IsPrimitive) : s.hasBuiltInType = true := by
  have htype := hs.type
  unfold Schema.hasBuiltInType builtInType
  dsimp only
  split
  · decide
  · decide
  · rename_i hnull
    rw [hnull] at htype
    exact absurd htype (by decide)
  · split
    case h_9 => decide
    all_goals
      rename_i hformat
      rw [hformat]
      decide
  · split <;> decide
  · simp_all

theorem leftover_eq (hs : s.IsPrimitive) : s.leftover = s.decorators := by
  rw [leftover_of_not_null hs.isNull]
  simp [hs.ref, hs.enumerated, hs.variants, hs.parts, hs.isArray, hs.isObject]

end IsPrimitive

end Schema

/-! ### Spots -/

/-- Where a document stands for a schema. -/
inductive Spot where
  /-- What is declared under a name. -/
  | declaration (name : Text)
  | property (p : Property)
  /-- A reference with no room for constraints beside it. -/
  | inline (t : TypeRef)
  /-- The type of something that has its constraints elsewhere. -/
  | type (t : TypeRef)

namespace Spot

/-- The properties of a model or an object, if they have the names they should have. -/
def ofFields (fields : List (String × Schema)) (ps : List Property) :
    Option (List (Schema × Spot)) :=
  if ps.map (·.name) = fields.map (fun f => Text.ofString f.1) then
    some ((fields.map (·.2)).zip (ps.map .property))
  else none

/-- The variants of a union or the elements of a tuple, if there are as many as there should be. -/
def ofBranches (branches : List (Option Schema)) (ts : List TypeRef) :
    Option (List (Schema × Spot)) :=
  if ts.length = branches.length then
    some ((branches.zip ts).filterMap fun b => b.1.map (·, .inline b.2))
  else none

def ofArray (s : Schema) : TypeRef → Option (List (Schema × Spot)) :=
  match s.under (.prefixItem 0) with
  | [] =>
    match s.child? .items with
    | none => fun _ => some []
    | some item => fun t => t.array.map fun elem => [(item, .inline elem)]
  | items => fun t => t.tuple.bind (ofBranches (items.map fun c => some c.2))

/-- Below a map or an object. One that is both is declared. -/
def ofObject (s : Schema) : TypeRef → Option (List (Schema × Spot)) :=
  match s.extraProperties? with
  | some a =>
    if s.propertyKeys.isEmpty then fun t => t.record.map fun value => [(a, .inline value)]
    else fun t => some [(s, .declaration t.name)]
  | none => fun t => t.object.bind (ofFields s.fields)

def ofType (s : Schema) : TypeRef → Option (List (Schema × Spot)) :=
  if !s.keywords.ref.isEmpty || s.isEnumerated then fun _ => some []
  else if s.hasVariants then fun t =>
    ofBranches s.branches (if s.branches.length = 1 then [t] else t.union.getD [])
  else match s.parts with
    | [part] =>
      if s.isObject then fun t => some [(s, .declaration t.name)]
      else fun t => some [(part, .type t)]
    | _ :: _ :: _ => fun t => some [(s, .declaration t.name)]
    | [] =>
      if s.isArray then ofArray s
      else if s.isObject then ofObject s
      else fun _ => some []

/-- Below a model: the properties of the parts of its conjunction, its own, and its other ones. -/
def ofModel (s : Schema) (m : ModelDecl) : Option (List (Schema × Spot)) :=
  if s.parts.all Schema.isModelPart then
    (ofFields ((s.parts.filter Schema.isMixin ++ [s]).flatMap Schema.fields) m.properties).bind
      fun fields => match s.extraProperties? with
        | none => some fields
        | some a =>
          (m.source.bind (·.record)).map fun value => fields ++ [(a, .inline value)]
  else none

/-- Below what is declared under one name. An array is declared as a copy, a tuple as the one
variant of a union. -/
def ofDeclared (s : Schema) : Document → Option (List (Schema × Spot)) :=
  if !s.keywords.ref.isEmpty || s.isEnumerated then fun _ => some []
  else if s.hasVariants then fun e =>
    e.unions.head?.bind fun u => ofBranches s.branches (u.variants.map (·.type))
  else if s.isArray then fun e =>
    ((e.models.head?.bind (·.source)).or
      (e.unions.head?.bind fun u => u.variants.head?.map (·.type))).map fun t => [(s, .type t)]
  else if s.isObject || !s.parts.isEmpty then fun e => e.models.head?.bind (ofModel s)
  else fun _ => some []

end Spot

namespace Document

/-- The schemas one step below a schema that a document stands for in a spot, each with the spot
where it stands for that; none if the document has another shape. A schema with constraints
has a declaration where it has no room for them. -/
def below (d : Document) (s : Schema) : Spot → Option (List (Schema × Spot))
  | .declaration name => Spot.ofDeclared s (d.under name)
  | .property p => some [(s, .type p.type)]
  | .inline t => some [(s, if s.leftover.isEmpty then .type t else .declaration t.name)]
  | .type t => Spot.ofType s t

/-- The schema is declared as a scalar, with its constraints and nothing else under the name. -/
def Extends (d : Document) (s : Schema) (name : Text) : Prop :=
  d.under name =
    { scalars := [{ name, base := s.builtInType, decorators := s.documented }] }

/-- What a document has in the spot of a primitive schema. -/
def Renders (d : Document) (s : Schema) : Spot → Prop
  | .declaration name => d.Extends s name
  | .property p => p.type = .named s.builtInType ∧ p.decorators = s.documented
  | .inline t =>
    if s.decorators.isEmpty then t = .named s.builtInType
    else t = .named t.name ∧ d.Extends s t.name
  | .type t => t = .named s.builtInType

/-- A document has the shape of a schema in a spot, and what it should have for each of the
primitive schemas there. -/
inductive Mirrors (d : Document) : Schema → Spot → Prop
  | intro {s : Schema} {spot : Spot} {cs : List (Schema × Spot)} :
      (s.IsPrimitive → d.Renders s spot) → d.below s spot = some cs →
      (∀ c ∈ cs, Mirrors d c.1 c.2) → Mirrors d s spot

/-- It does so in all of some spots, if they exist. -/
def MirrorsAll (d : Document) (cs : Option (List (Schema × Spot))) : Prop :=
  ∃ below, cs = some below ∧ ∀ c ∈ below, d.Mirrors c.1 c.2

end Document

/-! ### Lists of spots -/

namespace Document

section Below
variable {d : Document} {s : Schema}

theorem Mirrors.renders {spot : Spot} (h : d.Mirrors s spot) (hs : s.IsPrimitive) :
    d.Renders s spot := by
  obtain ⟨hrenders, _, _⟩ := h
  exact hrenders hs

theorem Mirrors.of_all {spot : Spot} (hs : s.IsPrimitive → d.Renders s spot)
    (h : d.MirrorsAll (d.below s spot)) : d.Mirrors s spot := by
  obtain ⟨cs, hcs, hall⟩ := h
  exact .intro hs hcs hall

theorem mirrorsAll_nil : d.MirrorsAll (some []) := ⟨[], rfl, nofun⟩

theorem mirrorsAll_singleton {spot : Spot} (h : d.Mirrors s spot) :
    d.MirrorsAll (some [(s, spot)]) := ⟨_, rfl, List.forall_mem_singleton.mpr h⟩

/-- The properties have the names they should have, and the document has the shape of their
schemas there. -/
def MirrorsFields (d : Document) (fields : List (String × Schema)) (ps : List Property) : Prop :=
  List.Forall₂ (fun f p => p.name = Text.ofString f.1 ∧ d.Mirrors f.2 (.property p)) fields ps

/-- The document has the shape of the alternatives in some references. -/
def MirrorsBranches (d : Document) (branches : List (Option Schema)) (ts : List TypeRef) : Prop :=
  List.Forall₂ (fun b t => ∀ c, b = some c → d.Mirrors c (.inline t)) branches ts

theorem MirrorsFields.all {fields : List (String × Schema)} {ps : List Property}
    (h : d.MirrorsFields fields ps) : d.MirrorsAll (Spot.ofFields fields ps) := by
  have hnames : ps.map (·.name) = fields.map fun f => Text.ofString f.1 := by
    induction h with
    | nil => rfl
    | cons hp _ ih => rw [List.map_cons, List.map_cons, hp.1, ih]
  unfold Spot.ofFields
  rw [if_pos hnames]
  refine ⟨_, rfl, ?_⟩
  clear hnames
  induction h with
  | nil => exact nofun
  | cons hp _ ih => exact List.forall_mem_cons.mpr ⟨hp.2, ih⟩

theorem MirrorsBranches.all {branches : List (Option Schema)} {ts : List TypeRef}
    (h : d.MirrorsBranches branches ts) : d.MirrorsAll (Spot.ofBranches branches ts) := by
  unfold Spot.ofBranches
  rw [if_pos h.length_eq.symm]
  refine ⟨_, rfl, ?_⟩
  intro c hc
  obtain ⟨⟨b, t⟩, hbt, hc⟩ := List.mem_filterMap.mp hc
  obtain ⟨s, rfl, rfl⟩ := Option.map_eq_some_iff.mp hc
  exact (List.forall₂_iff_zip.mp h).2 hbt s rfl

theorem MirrorsFields.append {fs gs : List (String × Schema)} {ps qs : List Property}
    (h : d.MirrorsFields fs ps) (hg : d.MirrorsFields gs qs) :
    d.MirrorsFields (fs ++ gs) (ps ++ qs) := List.rel_append h hg

/-! ### What is declared once -/

theorem filter_eq_nil_of_count {α : Type} {name : α → Text} {ys : List α} {x : Text}
    (h : (ys.map fun y => name y).count x = 0) : ys.filter (name · = x) = [] :=
  @filter_append_eq _ _ [] _ _ h

theorem filter_eq_singleton {α : Type} {name : α → Text} {ys : List α} {y : α} (hy : y ∈ ys)
    (h : (ys.map fun y => name y).count (name y) ≤ 1) : ys.filter (name · = name y) = [y] := by
  obtain ⟨before, after, rfl⟩ := List.append_of_mem hy
  simp only [List.map_append, List.map_cons, List.count_append, List.count_cons_self] at h
  rw [List.filter_append, List.filter_cons_of_pos (by simp), filter_eq_nil_of_count (by omega),
    filter_eq_nil_of_count (by omega)]
  rfl

variable (hd : d.names.Nodup)
include hd

theorem count_le_one (x : Text) :
    (d.scalars.map (·.name)).count x + (d.models.map (·.name)).count x +
      (d.enums.map (·.name)).count x + (d.unions.map (·.name)).count x ≤ 1 := by
  simpa only [names, List.count_append] using List.nodup_iff_count_le_one.mp hd x

theorem under_of_mem_scalars {x : ScalarDecl} (hx : x ∈ d.scalars) :
    d.under x.name = { scalars := [x] } := by
  have hone := count_le_one hd x.name
  have hthere : 1 ≤ (d.scalars.map (·.name)).count x.name :=
    List.one_le_count_iff.mpr (List.mem_map_of_mem hx)
  unfold under
  rw [filter_eq_singleton hx (by omega), filter_eq_nil_of_count (by omega),
    filter_eq_nil_of_count (by omega), filter_eq_nil_of_count (by omega)]

theorem under_of_mem_models {x : ModelDecl} (hx : x ∈ d.models) :
    d.under x.name = { models := [x] } := by
  have hone := count_le_one hd x.name
  have hthere : 1 ≤ (d.models.map (·.name)).count x.name :=
    List.one_le_count_iff.mpr (List.mem_map_of_mem hx)
  unfold under
  rw [filter_eq_singleton hx (by omega), filter_eq_nil_of_count (by omega),
    filter_eq_nil_of_count (by omega), filter_eq_nil_of_count (by omega)]

theorem under_of_mem_unions {x : UnionDecl} (hx : x ∈ d.unions) :
    d.under x.name = { unions := [x] } := by
  have hone := count_le_one hd x.name
  have hthere : 1 ≤ (d.unions.map (·.name)).count x.name :=
    List.one_le_count_iff.mpr (List.mem_map_of_mem hx)
  unfold under
  rw [filter_eq_singleton hx (by omega), filter_eq_nil_of_count (by omega),
    filter_eq_nil_of_count (by omega), filter_eq_nil_of_count (by omega)]

end Below

end Document

namespace Import

variable {α β : Type}

/-! ### Results that last -/

/-- Steps that only add to the document, with a result that `P` holds of in whatever becomes of
the document, as long as names stay distinct. -/
structure Lasts (m : Import α) (P : Document → α → Prop) : Prop where
  adds : Adds m
  holds : ∀ s a s', m s = .ok (a, s') → ∀ d, s'.document.Grows d → d.names.Nodup → P d a

namespace Lasts
variable {m : Import α} {P : Document → α → Prop}

theorem pure {a : α} (h : ∀ d, P d a) : Lasts (pure a) P where
  adds := .pure
  holds := by
    intro s b s' hok d _ _
    cases hok
    exact h d

theorem fail {c : Cause} : Lasts (fail c : Import α) P where
  adds := .fail
  holds := by
    intro s a s' hok
    cases hok

/-- What holds of the first result holds to the end, so the second part may rely on it there. -/
theorem bind {f : α → Import β} {Q : Document → β → Prop} (hm : Lasts m P)
    (hf : ∀ a, Lasts (f a) fun d b => P d a → Q d b) : Lasts (m >>= f) Q where
  adds := hm.adds.bind fun a => (hf a).adds
  holds := by
    intro s b s' hok d hd hnames
    obtain ⟨⟨a, t⟩, hat, hok⟩ := Result.bind_eq_ok.mp hok
    have hgrows : t.document.Grows d := ((hf a).adds t b s' hok).trans hd
    exact (hf a).holds t b s' hok d hd hnames (hm.holds s a t hat d hgrows hnames)

theorem imp {Q : Document → α → Prop} (hm : Lasts m P) (h : ∀ d a, P d a → Q d a) :
    Lasts m Q where
  adds := hm.adds
  holds := fun s a s' hok d hd hnames => h d a (hm.holds s a s' hok d hd hnames)

theorem and_gives {Q : α → Prop} (hm : Lasts m P) (hQ : Gives m Q) :
    Lasts m fun d a => P d a ∧ Q a where
  adds := hm.adds
  holds := fun s a s' hok d hd hnames => ⟨hm.holds s a s' hok d hd hnames, hQ s a s' hok⟩

theorem ite {c : Prop} [Decidable c] {n : Import α} (hm : c → Lasts m P)
    (hn : ¬ c → Lasts n P) : Lasts (if c then m else n) P := by
  by_cases hc : c
  · rw [if_pos hc]
    exact hm hc
  · rw [if_neg hc]
    exact hn hc

theorem of_adds (hm : Adds m) : Lasts m fun _ _ => True := ⟨hm, fun _ _ _ _ _ _ _ => trivial⟩

theorem within {position : Text} (hm : Lasts m P) : Lasts (within position m) P where
  adds := .within hm.adds
  holds := fun s a s' hok => hm.holds s a s' (Result.within_eq_ok.mp hok)

theorem mapM {f : α → Import β} {xs : List α} {Q : α → Document → β → Prop}
    (hf : ∀ x, Lasts (f x) (Q x)) :
    Lasts (xs.mapM f) fun d ys => List.Forall₂ (fun x y => Q x d y) xs ys := by
  induction xs with
  | nil =>
    rw [List.mapM_nil]
    exact .pure fun _ => .nil
  | cons x xs ih =>
    rw [List.mapM_cons]
    refine .bind (hf x) fun y => .bind ih fun ys => .pure ?_
    intro d hys hy
    exact .cons hy hys

theorem eachIndexed {f : Nat → Schema → Import β} {i : Nat} {xs : List Schema}
    {Q : Schema → Document → β → Prop} (hf : ∀ i x, Lasts (f i x) (Q x)) :
    Lasts (eachIndexed f i xs) fun d ys => List.Forall₂ (fun x y => Q x d y) xs ys := by
  induction xs generalizing i with
  | nil => exact .pure fun _ => .nil
  | cons x xs ih =>
    refine .bind (hf i x) fun y => .bind ih fun ys => .pure ?_
    intro d hys hy
    exact .cons hy hys

theorem forM {f : α → Import PUnit} {xs : List α} {Q : α → Document → Prop}
    (hf : ∀ x, Lasts (f x) fun d _ => Q x d) : Lasts (xs.forM f) fun d _ => ∀ x ∈ xs, Q x d := by
  induction xs with
  | nil => exact .pure fun _ => nofun
  | cons x xs ih =>
    refine .bind (hf x) fun _ => ih.imp ?_
    intro d _ hrest hx
    exact List.forall_mem_cons.mpr ⟨hx, hrest⟩

end Lasts

/-! ### Declarations -/

theorem addScalar_lasts (x : ScalarDecl) :
    Lasts (addScalar x) fun d _ => d.under x.name = { scalars := [x] } where
  adds := addScalar_adds x
  holds := by
    intro s a s' hok d hd hnames
    cases hok
    exact Document.under_of_mem_scalars hnames (hd.scalars.subset (by simp))

theorem addModel_lasts (m : ModelDecl) :
    Lasts (addModel m) fun d _ => d.under m.name = { models := [m] } where
  adds := addModel_adds m
  holds := by
    intro s a s' hok d hd hnames
    cases hok
    exact Document.under_of_mem_models hnames (hd.models.subset (by simp))

theorem addUnion_lasts (u : UnionDecl) :
    Lasts (addUnion u) fun d _ => d.under u.name = { unions := [u] } where
  adds := addUnion_adds u
  holds := by
    intro s a s' hok d hd hnames
    cases hok
    exact Document.under_of_mem_unions hnames (hd.unions.subset (by simp))

theorem types_unionOf (name : Text) (doc : String) (types : List TypeRef) :
    (unionOf name doc types).variants.map (·.type) = types := by
  simp [unionOf, Function.comp_def]

/-! ### Steps -/

section Steps
variable {root : Schema} {fuel : Nat} {s : Schema}

theorem declare_of_isPrimitive (hs : s.IsPrimitive) (name : Text) :
    declare root (fuel + 1) name s =
      addScalar { name, base := s.builtInType, decorators := s.documented } := by
  cases s with
  | null => cases hs.isNull
  | node k cs =>
    rw [declare]
    · simp only [hs.ref, hs.enumerated, hs.variants, hs.parts, hs.isArray, hs.isObject,
        declareScalar, hs.hasBuiltInType]
      rfl
    · simp

theorem typeRef_of_isPrimitive (hs : s.IsPrimitive) (hint : Text) :
    typeRef root (fuel + 1) hint s = pure (.named s.builtInType, s.decorators) := by
  cases s with
  | null => cases hs.isNull
  | node k cs =>
    rw [typeRef]
    · simp only [hs.ref, hs.enumerated, hs.variants, hs.parts, hs.isArray, hs.isObject]
      rfl
    · simp

theorem below_declaration_of_isPrimitive (hs : s.IsPrimitive) (d : Document) (name : Text) :
    d.below s (.declaration name) = some [] := by
  simp [Document.below, Spot.ofDeclared, hs.ref, hs.enumerated, hs.variants, hs.parts, hs.isArray,
    hs.isObject]

theorem below_type_of_isPrimitive (hs : s.IsPrimitive) (d : Document) (t : TypeRef) :
    d.below s (.type t) = some [] := by
  simp [Document.below, Spot.ofType, hs.ref, hs.enumerated, hs.variants, hs.parts, hs.isArray,
    hs.isObject]

/-- What every function of the importer makes has the shape of its schema. -/
structure Mirroring (root : Schema) (fuel : Nat) : Prop where
  declare : ∀ name s, Lasts (declare root fuel name s) fun d _ => d.Mirrors s (.declaration name)
  model : ∀ name s, Lasts (model root fuel name s) fun d m =>
    m.name = name ∧ d.MirrorsAll (Spot.ofModel s m)
  allParts : ∀ name parts base props, Lasts (allParts root fuel name parts base props) fun d r =>
    parts.all Schema.isModelPart = true ∧ ∃ ps, r.2 = props ++ ps ∧
      d.MirrorsFields ((parts.filter Schema.isMixin).flatMap Schema.fields) ps
  properties : ∀ owner s, Lasts (properties root fuel owner s) fun d ps =>
    d.MirrorsFields s.fields ps
  property : ∀ owner required key s, Lasts (property root fuel owner required key s) fun d p =>
    p.name = Text.ofString key ∧ d.Mirrors s (.property p)
  inlineRef : ∀ hint s, Lasts (inlineRef root fuel hint s) fun d t => d.Mirrors s (.inline t)
  hoist : ∀ hint s, Lasts (hoist root fuel hint s) fun d t =>
    t = .named t.name ∧ d.Mirrors s (.declaration t.name)
  typeRef : ∀ hint s, Lasts (typeRef root fuel hint s) fun d r => d.Mirrors s (.type r.1)
  arrayRef : ∀ hint s, Lasts (arrayRef root fuel hint s) fun d r =>
    d.MirrorsAll (Spot.ofArray s r.1)
  objectRef : ∀ hint s, Lasts (objectRef root fuel hint s) fun d r =>
    d.MirrorsAll (Spot.ofObject s r.1)
  variants : ∀ hint s, Lasts (variants root fuel hint s) fun d ts => d.MirrorsBranches s.branches ts

namespace Mirroring

theorem declare_succ (h : Mirroring root fuel) (name : Text) (s : Schema) :
    Lasts (Import.declare root (fuel + 1) name s) fun d _ => d.Mirrors s (.declaration name) := by
  by_cases hs : s.IsPrimitive
  · rw [declare_of_isPrimitive hs]
    refine (addScalar_lasts _).imp fun d _ hunder => .of_all (fun _ => hunder) ?_
    rw [below_declaration_of_isPrimitive hs]
    exact Document.mirrorsAll_nil
  -- what is left is to give the spots below
  suffices hbelow : Lasts (Import.declare root (fuel + 1) name s) fun d _ =>
      d.MirrorsAll (Spot.ofDeclared s (d.under name)) from
    hbelow.imp fun d _ hall => .of_all (fun hprimitive => absurd hprimitive hs) hall
  unfold Spot.ofDeclared
  cases s with
  | null => exact .fail
  | node k cs =>
    refine .ite (fun href => ?_) fun href => .ite (fun henum => ?_) fun henum => ?_
    · rw [if_pos (by simp only [href, Bool.true_or])]
      exact .imp (.of_adds (declareAlias_adds _ _ _)) fun d _ _ => Document.mirrorsAll_nil
    · rw [if_pos (by simp only [henum, Bool.or_true])]
      exact .imp (.of_adds (declareEnum_adds _ _)) fun d _ _ => Document.mirrorsAll_nil
    have hplain : ¬ ((!(Schema.node k cs).keywords.ref.isEmpty ||
        (Schema.node k cs).isEnumerated) = true) := by simpa using And.intro href henum
    rw [if_neg hplain]
    refine .ite (fun hvariants => ?_) fun hvariants => ?_
    · rw [if_pos hvariants]
      refine .bind (h.variants _ _) fun types => (addUnion_lasts _).imp fun d _ hunder hall => ?_
      rw [show d.under name = _ from hunder, List.head?_cons, Option.bind_some, types_unionOf]
      exact hall.all
    rw [if_neg hvariants]
    refine .ite (fun harray => ?_) fun harray => ?_
    · rw [if_pos harray]
      refine .bind (h.typeRef _ _) fun r => .ite (fun _ => ?_) fun _ => ?_
      · refine (addUnion_lasts _).imp fun d _ hunder hmirrors => ?_
        rw [show d.under name = _ from hunder]
        exact Document.mirrorsAll_singleton hmirrors
      · refine (addModel_lasts _).imp fun d _ hunder hmirrors => ?_
        rw [show d.under name = _ from hunder]
        exact Document.mirrorsAll_singleton hmirrors
    rw [if_neg harray]
    refine .ite (fun hmodel => ?_) fun hmodel => ?_
    · rw [if_pos hmodel]
      refine .bind (h.model _ _) fun m => (addModel_lasts _).imp fun d _ hunder hall => ?_
      rw [← hall.1, hunder]
      exact hall.2
    · rw [if_neg hmodel]
      exact .imp (.of_adds (.ite (addScalar_adds _) .fail)) fun d _ _ => Document.mirrorsAll_nil

theorem model_succ (h : Mirroring root fuel) (name : Text) (s : Schema) :
    Lasts (Import.model root (fuel + 1) name s) fun d m =>
      m.name = name ∧ d.MirrorsAll (Spot.ofModel s m) := by
  refine .bind (h.allParts _ _ _ _) fun r => .bind (h.properties _ _) fun own => ?_
  have hfields : ∀ d : Document, d.MirrorsFields s.fields own →
      (∃ ps, r.2 = [] ++ ps ∧
        d.MirrorsFields ((s.parts.filter Schema.isMixin).flatMap Schema.fields) ps) →
      d.MirrorsAll (Spot.ofFields
        ((s.parts.filter Schema.isMixin ++ [s]).flatMap Schema.fields) (r.2 ++ own)) := by
    intro d hown hparts
    obtain ⟨ps, hps, hparts⟩ := hparts
    rw [hps, List.nil_append, List.flatMap_append, List.flatMap_singleton]
    exact (hparts.append hown).all
  unfold Spot.ofModel
  generalize s.extraProperties? = extra
  cases extra with
  | none =>
    dsimp only
    rw [pure_bind]
    refine .pure fun d hown hparts => ⟨rfl, ?_⟩
    rw [if_pos hparts.1]
    obtain ⟨fields, hfields, hall⟩ := hfields d hown hparts.2
    exact ⟨fields, Option.bind_eq_some_iff.mpr ⟨fields, hfields, rfl⟩, hall⟩
  | some a =>
    refine .bind (h.inlineRef _ _) fun value => ?_
    rw [pure_bind]
    refine .pure fun d hvalue hown hparts => ⟨rfl, ?_⟩
    rw [if_pos hparts.1]
    obtain ⟨fields, hfields, hall⟩ := hfields d hown hparts.2
    refine ⟨_, Option.bind_eq_some_iff.mpr ⟨fields, hfields, rfl⟩, ?_⟩
    exact List.forall_mem_append.mpr ⟨hall, List.forall_mem_singleton.mpr hvalue⟩

theorem allParts_succ (h : Mirroring root fuel) (name : Text) (parts : List Schema)
    (base : Option TypeRef) (props : List Property) :
    Lasts (Import.allParts root (fuel + 1) name parts base props) fun d r =>
      parts.all Schema.isModelPart = true ∧ ∃ ps, r.2 = props ++ ps ∧
        d.MirrorsFields ((parts.filter Schema.isMixin).flatMap Schema.fields) ps := by
  cases parts with
  | nil => exact .pure fun d => ⟨rfl, [], (List.append_nil _).symm, .nil⟩
  | cons part rest =>
    rw [List.all_cons]
    refine .ite (fun _ => .fail) fun _ => .ite (fun href => ?_) fun href =>
      .ite (fun hobject => ?_) fun _ => .fail
    · have hmixin : part.isMixin = false := Schema.isMixin_of_ref href
      have hpart : part.isModelPart = true := by
        unfold Schema.isModelPart
        rw [href, Bool.true_or]
      rw [List.filter_cons_of_neg (by simp [hmixin]), hpart, Bool.true_and]
      refine .ite (fun _ => .fail) fun _ => .bind (.of_adds (refType_adds _ _)) fun b => ?_
      exact (h.allParts _ _ _ _).imp fun d r hr _ => hr
    · have hmixin : part.isMixin = true := Schema.isMixin_of_isObject href hobject
      have hpart : part.isModelPart = true := by
        unfold Schema.isModelPart
        rw [hmixin, Bool.or_true]
      rw [List.filter_cons_of_pos hmixin, List.flatMap_cons, hpart, Bool.true_and]
      refine .bind (h.properties _ _) fun own => (h.allParts _ _ _ _).imp fun d r hr hown => ?_
      obtain ⟨hall, ps, hps, hrest⟩ := hr
      exact ⟨hall, own ++ ps, by rw [hps, List.append_assoc], hown.append hrest⟩

theorem properties_succ (h : Mirroring root fuel) (owner : Text) (s : Schema) :
    Lasts (Import.properties root (fuel + 1) owner s) fun d ps => d.MirrorsFields s.fields ps := by
  refine (Lasts.mapM fun key => h.property owner _ key _).imp fun d ps hps => ?_
  exact List.forall₂_map_left_iff.mpr hps

theorem property_succ (h : Mirroring root fuel) (owner : Text) (required : Bool) (key : String)
    (s : Schema) :
    Lasts (Import.property root (fuel + 1) owner required key s) fun d p =>
      p.name = Text.ofString key ∧ d.Mirrors s (.property p) := by
  have hproperty : ∀ (d : Document) (r : TypeRef × Decorators) (p : Property),
      p.type = r.1 → p.decorators = { r.2 with doc := s.keywords.description } →
      d.Mirrors s (.type r.1) ∧ r.2 = s.leftover → d.Mirrors s (.property p) := by
    rintro d r p htype hdecorators ⟨hmirrors, hleft⟩
    refine .of_all (fun hs => ⟨?_, ?_⟩) ?_
    · rw [htype]
      exact hmirrors.renders hs
    · rw [hdecorators, hleft, hs.leftover_eq]
      rfl
    · unfold Document.below
      dsimp only
      rw [htype]
      exact Document.mirrorsAll_singleton hmirrors
  refine .bind (.within ((h.typeRef _ _).and_gives (typeRef_leftover _ _))) fun r => ?_
  dsimp only
  split
  · rw [pure_bind]
    exact .pure fun d hr => ⟨rfl, hproperty d r _ rfl rfl hr⟩
  · refine .bind (.within (.of_adds .lift)) fun v => ?_
    rw [pure_bind]
    exact .pure fun d _ hr => ⟨rfl, hproperty d r _ rfl rfl hr⟩

theorem inlineRef_succ (h : Mirroring root fuel) (hint : Text) (s : Schema) :
    Lasts (Import.inlineRef root (fuel + 1) hint s) fun d t => d.Mirrors s (.inline t) := by
  refine .bind ((h.typeRef hint s).and_gives (typeRef_leftover hint s)) fun r => ?_
  refine .ite (fun hempty => .pure ?_) fun hleft => (h.hoist hint s).imp ?_
  · rintro d ⟨hmirrors, hr⟩
    rw [hr] at hempty
    refine .of_all (fun hs => ?_) ?_
    · rw [hs.leftover_eq] at hempty
      dsimp only [Document.Renders]
      rw [if_pos hempty]
      exact hmirrors.renders hs
    · dsimp only [Document.below]
      rw [if_pos hempty]
      exact Document.mirrorsAll_singleton hmirrors
  · rintro d t ⟨hname, hmirrors⟩ ⟨_, hr⟩
    rw [hr] at hleft
    refine .of_all (fun hs => ?_) ?_
    · rw [hs.leftover_eq] at hleft
      dsimp only [Document.Renders]
      rw [if_neg hleft]
      exact ⟨hname, hmirrors.renders hs⟩
    · dsimp only [Document.below]
      rw [if_neg hleft]
      exact Document.mirrorsAll_singleton hmirrors

theorem hoist_succ (h : Mirroring root fuel) (hint : Text) (s : Schema) :
    Lasts (Import.hoist root (fuel + 1) hint s) fun d t =>
      t = .named t.name ∧ d.Mirrors s (.declaration t.name) := by
  refine .bind (.of_adds .unique) fun name => .bind (h.declare name s) fun _ => .pure ?_
  exact fun d hmirrors _ => ⟨rfl, hmirrors⟩

theorem typeRef_succ (h : Mirroring root fuel) (hint : Text) (s : Schema) :
    Lasts (Import.typeRef root (fuel + 1) hint s) fun d r => d.Mirrors s (.type r.1) := by
  by_cases hs : s.IsPrimitive
  · rw [typeRef_of_isPrimitive hs]
    refine .pure fun d => .of_all (fun _ => rfl) ?_
    rw [below_type_of_isPrimitive hs]
    exact Document.mirrorsAll_nil
  suffices hbelow : Lasts (Import.typeRef root (fuel + 1) hint s) fun d r =>
      d.MirrorsAll (Spot.ofType s r.1) from
    hbelow.imp fun d _ hall => .of_all (fun hprimitive => absurd hprimitive hs) hall
  have hhoist : Lasts (do let t ← Import.hoist root fuel hint s; pure (t, {}))
      fun d (r : TypeRef × Decorators) => d.MirrorsAll (some [(s, .declaration r.1.name)]) :=
    .bind (h.hoist hint s) fun t => .pure fun d ht => Document.mirrorsAll_singleton ht.2
  unfold Spot.ofType
  cases s with
  | null => exact .fail
  | node k cs =>
    refine .ite (fun href => ?_) fun href => .ite (fun henum => ?_) fun henum => ?_
    · rw [if_pos (by simp only [href, Bool.true_or])]
      refine .bind (.of_adds (refType_adds _ _)) fun t => .pure fun d _ => ?_
      exact Document.mirrorsAll_nil
    · rw [if_pos (by simp only [henum, Bool.or_true])]
      refine .bind (.of_adds .lift) fun values => ?_
      split <;> exact .pure fun d _ => Document.mirrorsAll_nil
    have hplain : ¬ ((!(Schema.node k cs).keywords.ref.isEmpty ||
        (Schema.node k cs).isEnumerated) = true) := by simpa using And.intro href henum
    rw [if_neg hplain]
    refine .ite (fun hvariants => ?_) fun hvariants => ?_
    · rw [if_pos hvariants]
      refine .bind (h.variants _ _) fun types => ?_
      split
      · refine .pure fun d hbranches => ?_
        rw [if_pos (show (Schema.node k cs).branches.length = 1 from hbranches.length_eq)]
        exact hbranches.all
      · rename_i hmany
        refine .pure fun d hbranches => ?_
        rw [if_neg]
        · exact hbranches.all
        · intro hone
          rw [hbranches.length_eq] at hone
          obtain ⟨t, ht⟩ := List.length_eq_one_iff.mp hone
          exact hmany t ht
    rw [if_neg hvariants]
    generalize (Schema.node k cs).parts = parts
    rcases parts with _ | ⟨part, _ | ⟨second, rest⟩⟩
    · refine .ite (fun harray => ?_) fun harray => .ite (fun hobject => ?_) fun hobject => ?_
      · dsimp only
        rw [if_pos harray]
        exact h.arrayRef _ _
      · dsimp only
        rw [if_neg harray, if_pos hobject]
        exact h.objectRef _ _
      · dsimp only
        rw [if_neg harray, if_neg hobject]
        exact .pure fun d => Document.mirrorsAll_nil
    · refine .ite (fun hobject => ?_) fun hobject => ?_
      · dsimp only
        rw [if_pos hobject]
        exact hhoist
      · dsimp only
        rw [if_neg hobject]
        exact (h.typeRef _ _).imp fun d r hr => Document.mirrorsAll_singleton hr
    · exact hhoist

theorem arrayRef_succ (h : Mirroring root fuel) (hint : Text) (s : Schema) :
    Lasts (Import.arrayRef root (fuel + 1) hint s) fun d r =>
      d.MirrorsAll (Spot.ofArray s r.1) := by
  unfold Spot.ofArray
  rw [Import.arrayRef]
  generalize s.under (.prefixItem 0) = items
  cases items with
  | nil =>
    generalize s.child? .items = item
    cases item with
    | none =>
      dsimp only
      rw [pure_bind]
      exact .pure fun d => Document.mirrorsAll_nil
    | some item =>
      refine .bind (h.inlineRef _ _) fun elem => .pure fun d helem => ?_
      exact Document.mirrorsAll_singleton helem
  | cons first rest =>
    refine .bind (.eachIndexed fun i c => h.inlineRef _ c) fun elems => .pure fun d helems => ?_
    refine Document.MirrorsBranches.all ?_
    rw [Document.MirrorsBranches, List.forall₂_map_left_iff]
    refine (List.forall₂_map_left_iff.mp helems).imp ?_
    rintro _ _ hmirrors _ ⟨⟩
    exact hmirrors

theorem objectRef_succ (h : Mirroring root fuel) (hint : Text) (s : Schema) :
    Lasts (Import.objectRef root (fuel + 1) hint s) fun d r =>
      d.MirrorsAll (Spot.ofObject s r.1) := by
  unfold Spot.ofObject
  rw [Import.objectRef]
  generalize s.extraProperties? = extra
  cases extra with
  | none => exact .bind (h.properties _ _) fun ps => .pure fun d hps => hps.all
  | some a =>
    refine .ite (fun hkeys => ?_) fun hkeys => ?_
    · dsimp only
      rw [if_pos hkeys]
      refine .bind (h.inlineRef _ _) fun value => .pure fun d hvalue => ?_
      exact Document.mirrorsAll_singleton hvalue
    · dsimp only
      rw [if_neg hkeys]
      refine .bind (h.hoist _ _) fun t => .pure fun d ht => ?_
      exact Document.mirrorsAll_singleton ht.2

theorem variants_succ (h : Mirroring root fuel) (hint : Text) (s : Schema) :
    Lasts (Import.variants root (fuel + 1) hint s) fun d ts => d.MirrorsBranches s.branches ts := by
  refine .bind (.eachIndexed fun i c => h.inlineRef _ c) fun ts => ?_
  refine .bind (.mapM (Q := fun type d t => ∀ c, s.typed type = some c → d.Mirrors c (.inline t))
    fun type => ?_) fun us => .pure fun d hus hts => ?_
  · unfold Schema.typed
    refine .ite (fun hnull => ?_) fun hnull => ?_
    · rw [if_pos hnull]
      exact .pure fun d => nofun
    · rw [if_neg hnull]
      refine (h.inlineRef _ _).imp ?_
      rintro d t hmirrors _ ⟨⟩
      exact hmirrors
  · refine List.rel_append ?_ (List.forall₂_map_left_iff.mpr hus)
    rw [List.forall₂_map_left_iff]
    refine (List.forall₂_map_left_iff.mp hts).imp ?_
    rintro _ _ hmirrors _ ⟨⟩
    exact hmirrors

end Mirroring

end Steps

end Import

end SchemaLoom

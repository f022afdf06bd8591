import Mathlib.Logic.Relation
import SchemaLoom.Proofs.Readings

/-!
# The keys of a schema document

A document that is read has no unknown keys, however deep: the reader of the
declarations refuses them, and properties, type references and discriminators,
whose parts are read leniently, look at their keys themselves. The theorem says
how far that goes. The reader passes over a key that is null. The look compares
what is written, which is not what an alias stands for, nor what base 64 spells.
And it is not taken at all at a mapping with the tag of null, which below a
property or a type reference nobody looks at.

Nothing is said of the keys that a mapping merges, nor of values: a default, a
literal or the value of a member may be any mapping.
-/

namespace SchemaLoom

set_option autoImplicit false

open Yaml Yaml.Decode

/-- What a mapping of a schema document describes. -/
inductive Role where
  | document | scalar | encoding | model | property | typeRef | enum | member | union
  | discriminator | variant
  deriving DecidableEq, Repr

/-- What stands under a key: a mapping, or a list of them. -/
inductive Slot where
  | one (role : Role)
  | many (role : Role)
  deriving DecidableEq, Repr

namespace Role

def keys : Role → List String
  | document => ["scalars", "models", "enums", "unions"]
  | scalar => ["name", "extends", "encode"] ++ decoratorKeys
  | encoding => ["encoding", "type"]
  | model => ["name", "extends", "is", "properties"] ++ decoratorKeys
  | property => propertyKeys
  | typeRef => typeRefKeys
  | enum => ["name", "doc", "members"]
  | member => ["name", "value"]
  | union => ["name", "doc", "discriminated", "variants"]
  | discriminator => ["property", "envelope", "envelopeProperty"]
  | variant => ["name", "type"]

/-- The keys with mappings of a role under them. Values have none. -/
def slots : Role → List (String × Slot)
  | document =>
    [("scalars", .many scalar), ("models", .many model), ("enums", .many enum),
     ("unions", .many union)]
  | scalar => [("encode", .one encoding)]
  | model => [("extends", .one typeRef), ("is", .one typeRef), ("properties", .many property)]
  | property => [("type", .one typeRef)]
  | typeRef =>
    [("array", .one typeRef), ("record", .one typeRef), ("union", .many typeRef),
     ("tuple", .many typeRef), ("object", .many property)]
  | enum => [("members", .many member)]
  | union => [("discriminated", .one discriminator), ("variants", .many variant)]
  | variant => [("type", .one typeRef)]
  | encoding | member | discriminator => []

/-- Roles that look at their keys themselves. -/
def looks : Role → Bool
  | property | typeRef | discriminator => true
  | _ => false

end Role

namespace Slot

def role : Slot → Role
  | one r | many r => r

/-- The nodes in a slot under `v`. -/
def nodes (anchors : Anchors) : Slot → Yaml.Node → List Yaml.Node
  | one _, v => (v.behind? anchors).toList
  | many _, v =>
    match v.behind? anchors with
    | some (.sequence _ _ items) => items.filterMap (Yaml.Node.behind? anchors)
    | _ => []

end Slot

/-- A node in its role, and whether unknown keys are refused where it is read. -/
structure Standing where
  role : Role
  strict : Bool
  node : Yaml.Node

namespace Standing
variable {anchors : Anchors} {s s' : Standing} {k : Yaml.Node}

/-- The node has its keys looked at as they are written. What is below it is read leniently. -/
def looked (s : Standing) : Bool := s.role.looks && s.node.tag != "!!null"

/-- The entries of the mapping, merge keys apart. -/
def ownEntries (s : Standing) : List (Yaml.Node × Yaml.Node) :=
  s.node.entries.filter fun e => !isMergeKey e.1

/-- The keys of the mapping, merge keys apart. -/
def ownKeys (s : Standing) : List Yaml.Node := s.ownEntries.map (·.1)

/-- What stands directly below a node. -/
def below (anchors : Anchors) (s : Standing) : List Standing :=
  s.ownEntries.flatMap fun (k, v) => s.role.slots.flatMap fun (key, slot) =>
    if k.key? anchors = some key then
      (slot.nodes anchors v).map fun m => ⟨slot.role, s.strict && !s.looked, m⟩
    else []

theorem mem_below : s' ∈ s.below anchors ↔ ∃ e ∈ s.ownEntries, ∃ f ∈ s.role.slots,
    e.1.key? anchors = some f.1 ∧ ∃ m ∈ f.2.nodes anchors e.2,
      s' = ⟨f.2.role, s.strict && !s.looked, m⟩ := by
  simp only [below, List.mem_flatMap, List.mem_ite_nil_right, List.mem_map, eq_comm]

/-- A key denotes one that the role declares. -/
def Declares (anchors : Anchors) (s : Standing) (k : Yaml.Node) : Prop :=
  ∃ key ∈ s.role.keys, k.key? anchors = some key

/-- How a key can be undeclared and not be noticed: not written out, where the keys are looked at
as they are written; null, where the reader refuses unknown keys; any, where nobody minds. -/
def Overlooks (anchors : Anchors) (s : Standing) (k : Yaml.Node) : Prop :=
  if s.looked then k.isWrittenOut = false ∧ ¬ s.Declares anchors k
  else if s.strict then k.key? anchors = none
  else ¬ s.Declares anchors k

/-- What reading makes sure of a key. -/
def Admits (anchors : Anchors) (s : Standing) (k : Yaml.Node) : Prop :=
  if s.looked then k.text ∈ s.role.keys
  else s.strict → k.key? anchors = none ∨ s.Declares anchors k

theorem Admits.declares_iff {k : Yaml.Node} (h : s.Admits anchors k) :
    s.Declares anchors k ↔ ¬ s.Overlooks anchors k := by
  unfold Admits at h
  unfold Overlooks
  split
  · next hlooked =>
    rw [if_pos hlooked] at h
    refine ⟨fun hd hover => hover.2 hd, fun hover => ?_⟩
    by_contra hd
    refine hover ⟨Bool.eq_false_iff.mpr fun hout => hd ?_, hd⟩
    exact ⟨k.text, h, Yaml.Node.key?_of_isWrittenOut hout⟩
  · next hlooked =>
    rw [if_neg hlooked] at h
    split
    · next hstrict =>
      constructor
      · rintro ⟨key, _, hkey⟩ hnone
        exact nomatch hkey.symm.trans hnone
      · exact (h hstrict).resolve_left
    · exact not_not.symm

/-- All keys at a node and below it are admitted. -/
def Sound (anchors : Anchors) (s : Standing) : Prop :=
  ∀ s', Relation.ReflTransGen (fun s s' => s' ∈ s.below anchors) s s' →
    ∀ k ∈ s'.ownKeys, s'.Admits anchors k

theorem Sound.of_below (hkeys : ∀ k ∈ s.ownKeys, s.Admits anchors k)
    (hbelow : ∀ s' ∈ s.below anchors, s'.Sound anchors) : s.Sound anchors := by
  intro s' hreach
  rcases hreach.cases_head with rfl | ⟨s₁, hstep, hrest⟩
  · exact hkeys
  · exact hbelow s₁ hstep s' hrest

theorem Sound.of_entries_nil (h : s.node.entries = []) : s.Sound anchors := by
  have hown : s.ownEntries = [] := by simp [ownEntries, h]
  exact .of_below (by simp [ownKeys, hown]) (by simp [below, hown])

end Standing

/-! ### Readers by role -/

section Readers
variable {α σ : Type} {role : Role} {fs : Fields σ}

/-- A reader in a role: what it reads without fault is sound. -/
structure ReadsAs (role : Role) (r : Reader α) : Prop where
  orderly : ∀ scope n, Orderly (r scope n)
  sound : ∀ scope n a, Clean (r scope n) a →
    Standing.Sound scope.anchors ⟨role, scope.strict, n⟩

/-- A field that is read without fault is sound in its slot. -/
def Slot.ReadBy (slot : Slot) (set : Scope → Yaml.Node → σ → Decode σ) : Prop :=
  ∀ scope v s s', Clean (set scope v s) s' → ∀ m ∈ slot.nodes scope.anchors v,
    Standing.Sound scope.anchors ⟨slot.role, scope.strict, m⟩

theorem ReadsAs.one {r : Reader α} (h : ReadsAs role r) (key : String) {set : σ → α → σ} :
    (Slot.one role).ReadBy (field key r set).2 := by
  intro scope v s s' hclean m hm
  obtain ⟨a, ha⟩ := hclean.field
  obtain ⟨m', expanding, hm', ha⟩ := ha.through h.orderly
  cases hm'.symm.trans (Option.mem_toList.mp hm)
  exact h.sound { scope with expanding } m a ha

theorem ReadsAs.many {r : Reader α} (h : ReadsAs role r) (key : String) {type : String}
    {set : σ → List α → σ} : (Slot.many role).ReadBy (field key (Decode.list type r) set).2 := by
  intro scope v s s' hclean m hm
  obtain ⟨a, ha⟩ := hclean.field
  obtain ⟨m', expanding, hm', ha⟩ := ha.through fun _ _ => .list h.orderly
  simp only [Slot.nodes, hm'] at hm
  cases m' with
  | sequence line tag items =>
    obtain ⟨i, hi, hm⟩ := List.mem_filterMap.mp hm
    obtain ⟨b, hb⟩ := ha.list h.orderly i hi
    obtain ⟨n, expanding', hn, hb⟩ := hb.through h.orderly
    cases hn.symm.trans hm
    exact h.sound { scope with expanding := expanding' } m b hb
  | scalar | mapping | aliasOf => simp at hm

theorem ReadsAs.unlessNull {null r : Reader α}
    (hnull : (∀ scope n, Orderly (null scope n)) ∧ ∀ scope n a, n.tag = "!!null" →
      Clean (null scope n) a → Standing.Sound scope.anchors ⟨role, scope.strict, n⟩)
    (hr : (∀ scope n, Orderly (r scope n)) ∧ ∀ scope n a, n.tag ≠ "!!null" →
      Clean (r scope n) a → Standing.Sound scope.anchors ⟨role, scope.strict, n⟩) :
    ReadsAs role (unlessNull null r) where
  orderly _ _ := .unlessNull hnull.1 hr.1
  sound scope n a h := by
    unfold Decode.unlessNull at h
    split at h
    · next htag => exact hnull.2 scope n a (beq_iff_eq.mp htag) h
    · next htag => exact hr.2 scope n a (fun heq => htag (beq_iff_eq.mpr heq)) h

theorem sound_absent {type : String} {scope : Scope} {n : Yaml.Node} {a : Option α} {strict : Bool}
    (h : Clean (absent type scope n : Decode (Option α)) a) :
    Standing.Sound scope.anchors ⟨role, strict, n⟩ := by
  cases n with
  | mapping => exact absurd h Clean.not_refuse
  | scalar | sequence | aliasOf => exact .of_entries_nil rfl

theorem ReadsAs.optional {r : Reader α} {type : String} (h : ReadsAs role r) :
    ReadsAs role (Decode.optional type r) :=
  .unlessNull ⟨fun _ _ => .absent, fun _ _ _ _ => sound_absent⟩
    ⟨h.orderly, fun scope n a _ => h.sound scope n a⟩

theorem text_mem_of_checkKeys {known : List String} {owner : String} {n : Yaml.Node}
    (h : checkKeys known owner n = .ok ()) : ∀ e ∈ n.entries, e.1.text ∈ known := by
  unfold checkKeys at h
  split at h
  · simp at h
  · next hnone =>
    intro e he
    simpa using List.find?_eq_none.mp hnone e he

theorem checkKeys_ne_illTyped {known : List String} {owner : String} {n : Yaml.Node} {e : Failure}
    {lines : List Text} (h : checkKeys known owner n = .error e) : e.cause ≠ .illTyped lines := by
  unfold checkKeys at h
  split at h
  · rw [Result.fail_eq_error.mp h]
    exact nofun
  · cases h

/-- The fields of a record are those of a role, and what stands under them is read in its role. -/
structure FieldsOf (role : Role) (fs : Fields σ) : Prop where
  keys : fs.fields.map (·.1) = role.keys
  orderly : fs.Orderly
  slots : ∀ e ∈ role.slots, ∃ set, fs.fields.lookup e.1 = some set ∧ e.2.ReadBy set

namespace FieldsOf
variable (hfs : FieldsOf role fs) {scope : Scope} {n : Yaml.Node} {init : σ} {a : Option σ}
include hfs

theorem lookup_eq_none_iff {key : String} : fs.fields.lookup key = none ↔ key ∉ role.keys := by
  rw [← hfs.keys, List.lookup_eq_none_iff]
  simp only [bne_iff_ne, List.mem_map, not_exists, not_and, ne_comm]

theorem takes (h : Clean (Decode.record fs init scope n) a) {s : Standing} (hnode : s.node = n)
    {e : Yaml.Node × Yaml.Node} (he : e ∈ s.ownEntries) : fs.Takes scope e := by
  subst hnode
  obtain ⟨he, hmerge⟩ := List.mem_filter.mp he
  exact (h.record hfs.orderly e he (by simpa using hmerge)).2

theorem sound_of_below (h : Clean (Decode.record fs init scope n) a) {s s' : Standing}
    (hrole : s.role = role) (hnode : s.node = n) (hstrict : (s.strict && !s.looked) = scope.strict)
    (hs : s' ∈ s.below scope.anchors) : s'.Sound scope.anchors := by
  subst hrole
  obtain ⟨e, he, f, hf, hkey, m, hm, rfl⟩ := Standing.mem_below.mp hs
  obtain ⟨set, hset, hsound⟩ := hfs.slots f hf
  have htakes := hfs.takes h hnode he f.1 hkey
  rw [hset] at htakes
  obtain ⟨t, t', hread⟩ := htakes
  rw [hstrict]
  exact hsound scope e.2 t t' hread m hm

theorem declares (h : Clean (Decode.record fs init scope n) a) (hstrict : scope.strict = true)
    {s : Standing} {k : Yaml.Node} (hrole : s.role = role) (hnode : s.node = n)
    (hk : k ∈ s.ownKeys) :
    k.key? scope.anchors = none ∨ s.Declares scope.anchors k := by
  subst hrole
  obtain ⟨e, he, rfl⟩ := List.mem_map.mp hk
  cases hkey : e.1.key? scope.anchors with
  | none => exact .inl rfl
  | some key =>
    refine .inr ⟨key, ?_, hkey⟩
    have htakes := hfs.takes h hnode he key hkey
    split at htakes
    · next hset =>
      by_contra hmem
      simp [hfs.lookup_eq_none_iff.mpr hmem] at hset
    · simp [hstrict] at htakes

theorem sound_of_record (h : Clean (Decode.record fs init scope n) a)
    (hlooked : (Standing.mk role scope.strict n).looked = false) :
    Standing.Sound scope.anchors ⟨role, scope.strict, n⟩ := by
  refine .of_below (fun k hk => ?_) fun s' hs' => ?_
  · unfold Standing.Admits
    rw [if_neg (by simp [hlooked])]
    exact fun hstrict => hfs.declares h hstrict rfl rfl hk
  · exact hfs.sound_of_below h rfl rfl (by simp [hlooked]) hs'

theorem readsAs_record (hlooks : role.looks = false) : ReadsAs role (Decode.record fs init) where
  orderly _ _ := .record hfs.orderly
  sound _ _ _ h := hfs.sound_of_record h (by simp [Standing.looked, hlooks])

theorem sound_own {r : Anchors → Yaml.Node → Result α} {owner : String} {b : Option α}
    (hr : ∀ anchors line tag entries, ∃ f : Option σ → Result α,
      r anchors (.mapping line tag entries) = do
        checkKeys role.keys owner (.mapping line tag entries)
        let s ← readNode (Decode.record fs init) anchors (.mapping line tag entries)
        f s)
    (hlooks : role.looks = true) (htag : n.tag ≠ "!!null") (h : Clean (own r scope n) b) :
    Standing.Sound scope.anchors ⟨role, scope.strict, n⟩ := by
  cases n with
  | scalar | sequence | aliasOf => exact .of_entries_nil rfl
  | mapping line tag entries =>
    -- a failure without faults would pass unseen, but neither the look nor the reading has one
    have hown := h.own
    obtain ⟨f, hf⟩ := hr scope.anchors line tag entries
    rw [hf] at hown
    cases hcheck : checkKeys role.keys owner (.mapping line tag entries) with
    | error e => exact absurd (hown e (by rw [hcheck]; rfl)) (checkKeys_ne_illTyped hcheck)
    | ok _ =>
      rw [hcheck] at hown
      cases hread : readNode (Decode.record fs init) scope.anchors (.mapping line tag entries) with
      | error e =>
        have horderly : Orderly (through (Decode.record fs init) ⟨scope.anchors, false, []⟩
            (.mapping line tag entries)) := .through fun _ _ => .record hfs.orderly
        exact absurd (hown e (by rw [hread]; rfl)) (run_ne_illTyped_nil horderly hread)
      | ok a =>
        obtain ⟨m, expanding, hm, hclean⟩ :=
          (Clean.run hread).through fun _ _ => .record hfs.orderly
        cases hm
        have hlooked :
            (Standing.mk role scope.strict (.mapping line tag entries)).looked = true := by
          simp [Standing.looked, hlooks, htag]
        refine .of_below (fun k hk => ?_) fun s' hs' => ?_
        · obtain ⟨e, he, rfl⟩ := List.mem_map.mp hk
          unfold Standing.Admits
          rw [if_pos hlooked]
          exact text_mem_of_checkKeys hcheck e (List.mem_filter.mp he).1
        · exact hfs.sound_of_below hclean rfl rfl (by simp [hlooked]) hs'

theorem readsAs_unlessNull {r : Anchors → Yaml.Node → Result σ} {null : Fields σ} {blank : σ}
    {owner : String} (hnull : FieldsOf role null)
    (hr : ∀ anchors line tag entries, ∃ f : Option σ → Result σ,
      r anchors (.mapping line tag entries) = do
        checkKeys role.keys owner (.mapping line tag entries)
        let s ← readNode (Decode.record fs init) anchors (.mapping line tag entries)
        f s)
    (hlooks : role.looks = true) :
    ReadsAs role (Decode.unlessNull (Decode.record null blank) (own r)) := by
  refine .unlessNull ⟨fun _ _ => .record hnull.orderly, fun scope n a htag h => ?_⟩
    ⟨fun _ _ => .own, fun scope n a htag h => ?_⟩
  · exact hnull.sound_of_record h (by simp [Standing.looked, htag])
  · exact hfs.sound_own hr hlooks htag h

end FieldsOf

end Readers

/-! ### The roles -/

section Roles
variable {σ : Type}

theorem numberReader_orderly (scope : Scope) (n : Yaml.Node) : Orderly (numberReader scope n) :=
  .optional fun _ _ => .own

theorem countReader_orderly (scope : Scope) (n : Yaml.Node) : Orderly (countReader scope n) :=
  .optional fun _ _ => .int64

theorem valueReader_orderly (depth : Nat) (scope : Scope) (n : Yaml.Node) :
    Orderly (valueReader depth scope n) :=
  .optional fun _ _ => .own

theorem decoratorFields_orderly {on : σ → (Decorators → Decorators) → σ} :
    ∀ f ∈ decoratorFields on, ∀ scope n s, Orderly (f.2 scope n s) := by
  simp [decoratorFields, stringField, Orderly.field, Orderly.text, countReader_orderly,
    numberReader_orderly]

theorem readsAs_encoding : ReadsAs .encoding encodingReader := by
  refine FieldsOf.readsAs_record ⟨rfl, ?_, by simp [Role.slots]⟩ rfl
  simp [Fields.Orderly, textField, Orderly.field, Orderly.text]

theorem readsAs_scalar : ReadsAs .scalar scalarReader := by
  refine FieldsOf.readsAs_record ⟨rfl, ?_, ?_⟩ rfl
  · simp only [Fields.Orderly, List.forall_mem_append]
    refine ⟨?_, decoratorFields_orderly⟩
    simp [textField, Orderly.field, Orderly.text, readsAs_encoding.optional.orderly]
  · simp only [Role.slots, List.forall_mem_cons]
    exact ⟨⟨_, rfl, readsAs_encoding.optional.one "encode"⟩, by simp⟩

theorem readsAs_member {depth : Nat} : ReadsAs .member (memberReader depth) := by
  refine FieldsOf.readsAs_record ⟨rfl, ?_, by simp [Role.slots]⟩ rfl
  simp [Fields.Orderly, textField, Orderly.field, Orderly.text, valueReader_orderly]

theorem readsAs_enum {depth : Nat} : ReadsAs .enum (enumReader depth) := by
  refine FieldsOf.readsAs_record ⟨rfl, ?_, ?_⟩ rfl
  · simp [Fields.Orderly, textField, stringField, Orderly.field, Orderly.text, Orderly.list,
      readsAs_member.orderly]
  · simp only [Role.slots, List.forall_mem_cons]
    exact ⟨⟨_, rfl, readsAs_member.many "members"⟩, by simp⟩

theorem fieldsOf_property {ref : Reader TypeRef} (href : ReadsAs .typeRef ref) (depth : Nat)
    (type : String) :
    FieldsOf .property (Property.fields ref (valueReader depth) type) := by
  refine ⟨rfl, ?_, ?_⟩
  · simp only [Fields.Orderly, Property.fields, List.forall_mem_append]
    refine ⟨?_, decoratorFields_orderly⟩
    simp [textField, Orderly.field, Orderly.text, Orderly.bool, valueReader_orderly, href.orderly]
  · simp only [Role.slots, List.forall_mem_cons]
    exact ⟨⟨_, rfl, href.one "type"⟩, by simp⟩

theorem fieldsOf_typeRef {ref : Reader TypeRef} {property : Reader Property}
    (href : ReadsAs .typeRef ref) (hproperty : ReadsAs .property property) (depth : Nat)
    (type : String) :
    FieldsOf .typeRef (TypeRef.fields ref property (valueReader depth) type) := by
  refine ⟨rfl, ?_, ?_⟩
  · simp [Fields.Orderly, TypeRef.fields, textField, Orderly.field, Orderly.text, Orderly.list,
      valueReader_orderly, href.orderly, href.optional.orderly, hproperty.orderly]
  · simp only [Role.slots, List.forall_mem_cons]
    exact ⟨⟨_, rfl, href.optional.one "array"⟩, ⟨_, rfl, href.optional.one "record"⟩,
      ⟨_, rfl, href.many "union"⟩, ⟨_, rfl, href.many "tuple"⟩, ⟨_, rfl, hproperty.many "object"⟩,
      by simp⟩

theorem readsAs_parts (depth : Nat) :
    ReadsAs .typeRef (TypeRef.reader depth) ∧ ReadsAs .property (Property.reader depth) := by
  -- both at once, because each of them reads the other one level down
  induction depth with
  | zero =>
    exact ⟨⟨fun _ _ => .fatal nofun, fun _ _ _ h => absurd h Clean.not_fatal⟩,
      ⟨fun _ _ => .fatal nofun, fun _ _ _ h => absurd h Clean.not_fatal⟩⟩
  | succ depth ih =>
    obtain ⟨href, hproperty⟩ := ih
    have hparts := fieldsOf_typeRef href hproperty depth
    have hfields := fieldsOf_property href depth
    exact ⟨(hparts "graph.plain").readsAs_unlessNull (hparts _) (fun _ _ _ _ => ⟨_, rfl⟩) rfl,
      (hfields "graph.plain").readsAs_unlessNull (hfields _) (fun _ _ _ _ => ⟨_, rfl⟩) rfl⟩

theorem readsAs_discriminator :
    ReadsAs .discriminator
      (Decode.optional "graph.DiscriminatorDecl" (own DiscriminatorDecl.ofNode)) := by
  have hfs : FieldsOf .discriminator DiscriminatorDecl.fields := by
    refine ⟨rfl, ?_, by simp [Role.slots]⟩
    simp [Fields.Orderly, DiscriminatorDecl.fields, textField, Orderly.field, Orderly.text]
  exact .unlessNull ⟨fun _ _ => .absent, fun _ _ _ _ => sound_absent⟩
    ⟨fun _ _ => .own, fun _ _ _ htag h => hfs.sound_own (fun _ _ _ _ => ⟨_, rfl⟩) rfl htag h⟩

theorem readsAs_variant {depth : Nat} : ReadsAs .variant (variantReader depth) := by
  obtain ⟨href, _⟩ := readsAs_parts depth
  refine FieldsOf.readsAs_record ⟨rfl, ?_, ?_⟩ rfl
  · simp [Fields.Orderly, textField, Orderly.field, Orderly.text, href.orderly]
  · simp only [Role.slots, List.forall_mem_cons]
    exact ⟨⟨_, rfl, href.one "type"⟩, by simp⟩

theorem readsAs_union {depth : Nat} : ReadsAs .union (unionReader depth) := by
  refine FieldsOf.readsAs_record ⟨rfl, ?_, ?_⟩ rfl
  · simp [Fields.Orderly, textField, stringField, Orderly.field, Orderly.text, Orderly.list,
      readsAs_discriminator.orderly, readsAs_variant.orderly]
  · simp only [Role.slots, List.forall_mem_cons]
    exact ⟨⟨_, rfl, readsAs_discriminator.one "discriminated"⟩,
      ⟨_, rfl, readsAs_variant.many "variants"⟩, by simp⟩

theorem readsAs_model {depth : Nat} : ReadsAs .model (modelReader depth) := by
  obtain ⟨href, hproperty⟩ := readsAs_parts depth
  refine FieldsOf.readsAs_record ⟨rfl, ?_, ?_⟩ rfl
  · simp only [Fields.Orderly, List.forall_mem_append]
    refine ⟨?_, decoratorFields_orderly⟩
    simp [textField, Orderly.field, Orderly.text, Orderly.list, href.optional.orderly,
      hproperty.orderly]
  · simp only [Role.slots, List.forall_mem_cons]
    exact ⟨⟨_, rfl, href.optional.one "extends"⟩, ⟨_, rfl, href.optional.one "is"⟩,
      ⟨_, rfl, hproperty.many "properties"⟩, by simp⟩

theorem fieldsOf_document (depth : Nat) :
    ∃ fs, documentReader depth = Decode.record fs {} ∧ FieldsOf .document fs := by
  refine ⟨_, rfl, rfl, ?_, ?_⟩
  · simp [Fields.Orderly, Orderly.field, Orderly.list, readsAs_scalar.orderly,
      readsAs_model.orderly, readsAs_enum.orderly, readsAs_union.orderly]
  · simp only [Role.slots, List.forall_mem_cons]
    exact ⟨⟨_, rfl, readsAs_scalar.many "scalars"⟩, ⟨_, rfl, readsAs_model.many "models"⟩,
      ⟨_, rfl, readsAs_enum.many "enums"⟩, ⟨_, rfl, readsAs_union.many "unions"⟩, by simp⟩

theorem readsAs_document {depth : Nat} : ReadsAs .document (documentReader depth) := by
  obtain ⟨fs, hreader, hfs⟩ := fieldsOf_document depth
  rw [hreader]
  exact hfs.readsAs_record rfl

end Roles

/-! ### Documents -/

namespace Yaml.Document

def Stands (y : Yaml.Document) (s : Standing) : Prop :=
  ∃ m, y.root.behind? y.anchors = some m ∧
    Relation.ReflTransGen (fun s s' => s' ∈ s.below y.anchors) ⟨.document, true, m⟩ s

theorem Stands.below {y : Yaml.Document} {s s' : Standing} (h : y.Stands s)
    (hs : s' ∈ s.below y.anchors) : y.Stands s' := by
  obtain ⟨m, hm, hreach⟩ := h
  exact ⟨m, hm, hreach.tail hs⟩

end Yaml.Document

namespace Document

theorem clean_of_parse {t : Text} {d : Document} {y : Yaml.Document}
    (hy : Yaml.parse t = .ok (some y)) (hd : parse t = .ok d) {m : Yaml.Node}
    (hm : y.root.behind? y.anchors = some m) :
    ∃ expanding a, Clean (documentReader y.depth ⟨y.anchors, true, expanding⟩ m) a := by
  unfold parse at hd
  rw [Result.within_eq_ok, hy] at hd
  obtain ⟨a, hread, _⟩ := Result.bind_eq_ok.mp (show ofYaml y = .ok d from hd)
  obtain ⟨m', expanding, hm', hclean⟩ := (Clean.run hread).through readsAs_document.orderly
  cases hm'.symm.trans hm
  exact ⟨expanding, a, hclean⟩

theorem admits_of_parse {t : Text} {d : Document} {y : Yaml.Document}
    (hy : Yaml.parse t = .ok (some y)) (hd : parse t = .ok d) {s : Standing} (hs : y.Stands s)
    {k : Yaml.Node} (hk : k ∈ s.ownKeys) : s.Admits y.anchors k := by
  obtain ⟨m, hm, hs⟩ := hs
  obtain ⟨expanding, a, hclean⟩ := clean_of_parse hy hd hm
  exact readsAs_document.sound _ m a hclean s hs k hk

/-- In a document that is read, every mapping in a role has declared keys only, exactly when none
of its keys is overlooked. -/
theorem keys_declared_iff {t : Text} {d : Document} {y : Yaml.Document}
    (hy : Yaml.parse t = .ok (some y)) (hd : parse t = .ok d) :
    (∀ s, y.Stands s → ∀ k ∈ s.ownKeys, s.Declares y.anchors k) ↔
      ∀ s, y.Stands s → ∀ k ∈ s.ownKeys, ¬ s.Overlooks y.anchors k := by
  have hiff (s : Standing) (hs : y.Stands s) (k : Yaml.Node) (hk : k ∈ s.ownKeys) :
      s.Declares y.anchors k ↔ ¬ s.Overlooks y.anchors k :=
    (admits_of_parse hy hd hs hk).declares_iff
  exact ⟨fun h s hs k hk => (hiff s hs k hk).mp (h s hs k hk),
    fun h s hs k hk => (hiff s hs k hk).mpr (h s hs k hk)⟩

end Document

/-- A model with a null key. -/
def nullKey : Text := "models:\n  - name: M\n    ~: 1\n"

set_option maxRecDepth 100000 in
theorem nullKey_runs : (do
    let _ ← (Document.parse nullKey).toOption
    let y ← (Yaml.parse nullKey).toOption.join
    let m ← y.root.behind? y.anchors
    let model ← (Standing.below y.anchors ⟨.document, true, m⟩)[0]?
    let k ← model.ownKeys[1]?
    pure (model.role, model.strict, k.key? y.anchors)) = some (.model, true, none) := by
  decide +kernel

theorem keys_declared_iff_nullKey : ∃ d y, Yaml.parse nullKey = .ok (some y) ∧
    Document.parse nullKey = .ok d ∧
    ¬ ∀ s, y.Stands s → ∀ k ∈ s.ownKeys, s.Declares y.anchors k := by
  obtain ⟨d, hd, h⟩ := Option.bind_eq_some_iff.mp nullKey_runs
  obtain ⟨y, hy, h⟩ := Option.bind_eq_some_iff.mp h
  obtain ⟨m, hm, h⟩ := Option.bind_eq_some_iff.mp h
  obtain ⟨model, hmodel, h⟩ := Option.bind_eq_some_iff.mp h
  obtain ⟨k, hk, h⟩ := Option.bind_eq_some_iff.mp h
  obtain ⟨hrole, hstrict, hkey⟩ : model.role = .model ∧ model.strict = true ∧
    k.key? y.anchors = none := by simpa using h
  have hy := Result.ok_of_toOption (Option.join_eq_some_iff.mp hy)
  have hd := Result.ok_of_toOption hd
  have hroot : y.Stands ⟨.document, true, m⟩ := ⟨m, hm, .refl⟩
  have hs := hroot.below (List.mem_of_getElem? hmodel)
  have hover : model.Overlooks y.anchors k := by
    simp [Standing.Overlooks, Standing.looked, hrole, Role.looks, hstrict, hkey]
  exact ⟨d, y, hy, hd, fun h =>
    (Document.keys_declared_iff hy hd).mp h model hs k (List.mem_of_getElem? hk) hover⟩

/-- A property with the key `*doc`, an alias of `bogus`. -/
def aliasKey : Text :=
  "models:\n  - name: &doc bogus\n    properties:\n      - {name: a, type: string, *doc : x}\n"

set_option maxRecDepth 100000 in
theorem aliasKey_runs : (do
    let _ ← (Document.parse aliasKey).toOption
    let y ← (Yaml.parse aliasKey).toOption.join
    let m ← y.root.behind? y.anchors
    let model ← (Standing.below y.anchors ⟨.document, true, m⟩)[0]?
    let property ← (model.below y.anchors)[0]?
    let k ← property.ownKeys[2]?
    pure (property.role, k.key? y.anchors)) = some (.property, some "bogus") := by
  decide +kernel

/-- The document is read, and the property has a key that none declares. -/
theorem aliasKey_not_declared : ∃ d y s, Document.parse aliasKey = .ok d ∧
    Yaml.parse aliasKey = .ok (some y) ∧ y.Stands s ∧ s.role = .property ∧
    ∃ k ∈ s.ownKeys, k.key? y.anchors = some "bogus" ∧ ¬ s.Declares y.anchors k := by
  obtain ⟨d, hd, h⟩ := Option.bind_eq_some_iff.mp aliasKey_runs
  obtain ⟨y, hy, h⟩ := Option.bind_eq_some_iff.mp h
  obtain ⟨m, hm, h⟩ := Option.bind_eq_some_iff.mp h
  obtain ⟨model, hmodel, h⟩ := Option.bind_eq_some_iff.mp h
  obtain ⟨property, hproperty, h⟩ := Option.bind_eq_some_iff.mp h
  obtain ⟨k, hk, h⟩ := Option.bind_eq_some_iff.mp h
  obtain ⟨hrole, hkey⟩ : property.role = .property ∧ k.key? y.anchors = some "bogus" := by
    simpa using h
  have hroot : y.Stands ⟨.document, true, m⟩ := ⟨m, hm, .refl⟩
  have hs := hroot.below (List.mem_of_getElem? hmodel)
  refine ⟨d, y, property, Result.ok_of_toOption hd,
    Result.ok_of_toOption (Option.join_eq_some_iff.mp hy),
    hs.below (List.mem_of_getElem? hproperty), hrole, k, List.mem_of_getElem? hk, hkey, ?_⟩
  rintro ⟨key, hmem, heq⟩
  cases hkey.symm.trans heq
  rw [hrole] at hmem
  revert hmem
  decide

end SchemaLoom

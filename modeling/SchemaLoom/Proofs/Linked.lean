import Mathlib.Data.List.Nodup
import SchemaLoom.Expr.Build
import SchemaLoom.Proofs.Names

/-!
# Linked graphs

What linking guarantees of every node of the store. Declared nodes are the only
ones that uses refer to. All others mention only declarations and nodes that
were made before them, so they can be written out from the bottom up; they
derive from nothing that is declared.

A link that fails leaves nothing to state here.
-/

namespace SchemaLoom

set_option autoImplicit false

namespace Node

/-- The nodes whose values a value of the node holds. -/
def slots (n : Node) : List NodeId :=
  (n.indexer.bind (·.key)).toList ++ (n.indexer.bind (·.value)).toList ++ n.elements ++
    n.type.toList

def mentions (n : Node) : List NodeId :=
  n.base.toList ++ n.properties ++ n.variants ++ n.members ++ n.slots

/-- The node is used by reference to its declaration. -/
def isReferred (n : Node) : Bool := n.isDeclaration && !n.builtIn

/-- The fields of a node hold what its kind asks for. -/
structure Shaped (g : Graph) (n : Node) : Prop where
  lt : ∀ r ∈ n.mentions, r < g.nodes.size
  base : ∀ b, n.base = some b → (n.kind = .scalar ∨ n.kind = .model) ∧ (g.node b).kind = n.kind
  properties : ∀ p ∈ n.properties, (g.node p).kind = .modelProperty
  variants : ∀ v ∈ n.variants, (g.node v).kind = .unionVariant
  members : ∀ m ∈ n.members, (g.node m).kind = .enumMember
  slots : ∀ t ∈ n.slots, (g.node t).kind ≠ .modelProperty
  typed : n.kind = .modelProperty ∨ n.kind = .unionVariant → n.type.isSome
  valued : ∀ ix, n.indexer = some ix → ix.value.isSome
  literal : n.kind = .string ∨ n.kind = .number ∨ n.kind = .boolean →
    ∃ v, n.literal = some v ∧ v.isPrimitive = true
  numeric : n.builtIn = true → n.name = Text.ofString "numeric" → n.kind = .scalar

/-- The node stands where it may. -/
structure Fits (g : Graph) (i : NodeId) (n : Node) : Prop extends Shaped g n where
  declared_iff : n.isReferred = true ↔ i ∈ g.declarations
  below : i ∉ g.declarations → ∀ r ∈ n.mentions, r ∈ g.declarations ∨ r < i
  plain : i ∉ g.declarations → n.encoding = none ∧ ∀ b, n.base = some b → b ∉ g.declarations

section Mentions
variable {n : Node} {r : NodeId}

theorem mem_mentions_of_base (h : n.base = some r) : r ∈ n.mentions := by simp [mentions, h]

theorem mem_mentions_of_property (h : r ∈ n.properties) : r ∈ n.mentions := by simp [mentions, h]

theorem mem_mentions_of_variant (h : r ∈ n.variants) : r ∈ n.mentions := by simp [mentions, h]

theorem mem_mentions_of_member (h : r ∈ n.members) : r ∈ n.mentions := by simp [mentions, h]

theorem mem_mentions_of_slot (h : r ∈ n.slots) : r ∈ n.mentions := by simp [mentions, h]

theorem mem_mentions : r ∈ n.mentions ↔
    n.base = some r ∨ r ∈ n.properties ∨ r ∈ n.variants ∨ r ∈ n.members ∨ r ∈ n.slots := by
  simp [mentions]

theorem mem_slots : r ∈ n.slots ↔ n.indexer.bind (·.key) = some r ∨
    n.indexer.bind (·.value) = some r ∨ r ∈ n.elements ∨ n.type = some r := by
  simp [slots]

theorem mem_slots_of_type (h : n.type = some r) : r ∈ n.slots := by simp [slots, h]

theorem mem_slots_of_element (h : r ∈ n.elements) : r ∈ n.slots := by simp [slots, h]

theorem mem_slots_of_key {ix : Indexer} (hix : n.indexer = some ix) (h : ix.key = some r) :
    r ∈ n.slots := by simp [slots, hix, h]

theorem mem_slots_of_value {ix : Indexer} (hix : n.indexer = some ix) (h : ix.value = some r) :
    r ∈ n.slots := by simp [slots, hix, h]

end Mentions

theorem Shaped.mono {g h : Graph} {n : Node} (hn : n.Shaped g)
    (hsize : g.nodes.size ≤ h.nodes.size)
    (hkind : ∀ i < g.nodes.size, (h.node i).kind = (g.node i).kind) : n.Shaped h where
  lt := fun r hr => Nat.lt_of_lt_of_le (hn.lt r hr) hsize
  base := fun b hb => by
    rw [hkind b (hn.lt b (mem_mentions_of_base hb))]
    exact hn.base b hb
  properties := fun p hp => by
    rw [hkind p (hn.lt p (mem_mentions_of_property hp))]
    exact hn.properties p hp
  variants := fun v hv => by
    rw [hkind v (hn.lt v (mem_mentions_of_variant hv))]
    exact hn.variants v hv
  members := fun m hm => by
    rw [hkind m (hn.lt m (mem_mentions_of_member hm))]
    exact hn.members m hm
  slots := fun t ht => by
    rw [hkind t (hn.lt t (mem_mentions_of_slot ht))]
    exact hn.slots t ht
  typed := hn.typed
  valued := hn.valued
  literal := hn.literal
  numeric := hn.numeric

theorem Shaped.update {g : Graph} {n m : Node} (hn : n.Shaped g) (hkind : m.kind = n.kind)
    (hname : m.name = n.name) (hbuiltIn : m.builtIn = n.builtIn) (htype : m.type = n.type)
    (hliteral : m.literal = n.literal) (hlt : ∀ r ∈ m.mentions, r < g.nodes.size)
    (hbase : ∀ b, m.base = some b → (n.kind = .scalar ∨ n.kind = .model) ∧
      (g.node b).kind = n.kind)
    (hproperties : ∀ p ∈ m.properties, (g.node p).kind = .modelProperty)
    (hvariants : ∀ v ∈ m.variants, (g.node v).kind = .unionVariant)
    (hmembers : ∀ x ∈ m.members, (g.node x).kind = .enumMember)
    (hslots : ∀ t ∈ m.slots, (g.node t).kind ≠ .modelProperty)
    (hvalued : ∀ ix, m.indexer = some ix → ix.value.isSome) : m.Shaped g where
  lt := hlt
  base := hkind ▸ hbase
  properties := hproperties
  variants := hvariants
  members := hmembers
  slots := hslots
  typed := by rw [hkind, htype]; exact hn.typed
  valued := hvalued
  literal := by rw [hkind, hliteral]; exact hn.literal
  numeric := by rw [hkind, hname, hbuiltIn]; exact hn.numeric

theorem Fits.mono {g h : Graph} {i : NodeId} {n : Node} (hn : n.Fits g i) (hgh : g.Grows h) :
    n.Fits h i where
  toShaped := hn.toShaped.mono hgh.size_le hgh.kind
  declared_iff := by rw [hgh.declarations]; exact hn.declared_iff
  below := by rw [hgh.declarations]; exact hn.below
  plain := by rw [hgh.declarations]; exact hn.plain

end Node

namespace Graph

/-- Every node of the store is as linking makes it. -/
structure Fit (g : Graph) : Prop where
  size_le : builtInNodes.length ≤ g.nodes.size
  builtIn : ∀ i < builtInNodes.length, (g.node i).kind ≠ .modelProperty
  kept : g.Kept
  nodup : g.declarations.Nodup
  fits : ∀ i n, g.node? i = some n → n.Fits g i

/-- A node that is added without being declared. -/
structure Anonymous (g : Graph) (n : Node) : Prop where
  undeclared : n.isReferred = false
  base : n.base = none
  encoding : n.encoding = none
  shaped : n.Shaped g

namespace Fit
variable {g : Graph}

theorem fits_of_lt (hg : g.Fit) {i : NodeId} (hi : i < g.nodes.size) : (g.node i).Fits g i :=
  hg.fits i _ (node?_of_lt hi)

theorem push (hg : g.Fit) {n : Node} (hn : g.Anonymous n) : (g.push n).2.Fit := by
  have hgrow := Grows.push g n
  refine ⟨Nat.le_trans hg.size_le hgrow.size_le, ?_, hgrow.kept hg.kept, hg.nodup, ?_⟩
  · intro i hi
    rw [hgrow.kind i (Nat.lt_of_lt_of_le hi hg.size_le)]
    exact hg.builtIn i hi
  · intro i m hm
    rw [node?_push] at hm
    split at hm
    · rename_i hi
      cases hm
      have hnot : i ∉ g.declarations := fun hmem => Nat.lt_irrefl i (hi ▸ hg.kept i hmem)
      refine
        { toShaped := hn.shaped.mono hgrow.size_le hgrow.kind
          declared_iff := ?_
          below := fun _ r hr => .inr (hi ▸ hn.shaped.lt r hr)
          plain := fun _ => ⟨hn.encoding, by simp [hn.base]⟩ }
      simp only [declarations_push, hnot, iff_false, hn.undeclared]
      exact Bool.false_ne_true
    · exact (hg.fits i m hm).mono hgrow

theorem modify (hg : g.Fit) {i : NodeId} {f : Node → Node} (hi : i ∈ g.declarations)
    (hkind : ∀ n, (f n).kind = n.kind) (hname : ∀ n, (f n).name = n.name)
    (hbuiltIn : ∀ n, (f n).builtIn = n.builtIn) (hf : (f (g.node i)).Shaped g) :
    (g.modify i f).Fit := by
  have hgrow := Grows.modify g i hkind hname
  refine ⟨Nat.le_trans hg.size_le hgrow.size_le, ?_, hgrow.kept hg.kept, hg.nodup, ?_⟩
  · intro i hi
    rw [hgrow.kind i (Nat.lt_of_lt_of_le hi hg.size_le)]
    exact hg.builtIn i hi
  · intro j m hm
    rw [node?_modify] at hm
    split at hm
    · rename_i hij
      subst hij
      obtain ⟨n, hn, rfl⟩ := Option.map_eq_some_iff.mp hm
      have hfit := hg.fits i n hn
      rw [node_of_node? hn] at hf
      have hreferred : (f n).isReferred = n.isReferred := by
        simp [Node.isReferred, Node.isDeclaration, hkind, hname, hbuiltIn]
      refine
        { toShaped := hf.mono hgrow.size_le hgrow.kind
          declared_iff := ?_
          below := fun hnot => absurd hi hnot
          plain := fun hnot => absurd hi hnot }
      rw [hreferred]
      exact hfit.declared_iff
    · exact (hg.fits j m hm).mono hgrow

theorem kind_slot (hg : g.Fit) {i t : NodeId} (h : t ∈ (g.node i).slots) :
    (g.node t).kind ≠ .modelProperty := by
  by_cases hi : i < g.nodes.size
  · exact (hg.fits_of_lt hi).slots t h
  · have hnode := node_of_size_le (Nat.le_of_not_lt hi)
    rw [hnode] at h
    simp [Node.slots] at h

theorem kind_declared (hg : g.Fit) {i : NodeId} (hi : i ∈ g.declarations) :
    (g.node i).kind ≠ .modelProperty := by
  have hreferred := (hg.fits_of_lt (hg.kept i hi)).declared_iff.mpr hi
  intro hkind
  simp [Node.isReferred, Node.isDeclaration, hkind] at hreferred

theorem kind_lookup?_ne (hg : g.Fit) {name : Text} {i : NodeId} (h : g.lookup? name = some i) :
    (g.node i).kind ≠ .modelProperty := by
  unfold lookup? at h
  rcases Option.or_eq_some_iff.mp h with h | ⟨_, h⟩
  · exact hg.kind_declared (mem_of_declaration? h).1
  · exact hg.builtIn i (builtin?_eq_some h).1

theorem lookup?_lt (hg : g.Fit) {name : Text} {i : NodeId} (h : g.lookup? name = some i) :
    i < g.nodes.size := by
  unfold lookup? at h
  rcases Option.or_eq_some_iff.mp h with h | ⟨_, h⟩
  · exact hg.kept i (mem_of_declaration? h).1
  · exact Nat.lt_of_lt_of_le (builtin?_eq_some h).1 hg.size_le

end Fit

/-! ### Anonymous nodes -/

section Anonymous
variable {g : Graph}

theorem anonymous_array {elem : NodeId} (h : elem < g.nodes.size)
    (hkind : (g.node elem).kind ≠ .modelProperty) : g.Anonymous (arrayNode elem) where
  undeclared := rfl
  base := rfl
  encoding := rfl
  shaped :=
    { lt := by simpa [Node.mentions, Node.slots, arrayNode] using h
      base := by simp [arrayNode]
      properties := by simp [arrayNode]
      variants := by simp [arrayNode]
      members := by simp [arrayNode]
      slots := by simpa [Node.slots, arrayNode] using hkind
      typed := by simp [arrayNode]
      valued := by simp [arrayNode]
      literal := by simp [arrayNode]
      numeric := fun _ h => absurd (show Text.ofString "Array" = Text.ofString "numeric" from h)
        (by decide) }

theorem anonymous_record {value : NodeId} (hg : g.Fit) (h : value < g.nodes.size)
    (hkind : (g.node value).kind ≠ .modelProperty) : g.Anonymous (recordNode value) where
  undeclared := rfl
  base := rfl
  encoding := rfl
  shaped :=
    { lt := by
        have hstring : stringType < g.nodes.size := Nat.lt_of_lt_of_le (by decide) hg.size_le
        simpa [Node.mentions, Node.slots, recordNode] using ⟨hstring, h⟩
      base := by simp [recordNode]
      properties := by simp [recordNode]
      variants := by simp [recordNode]
      members := by simp [recordNode]
      slots := by
        have hstring : (g.node stringType).kind ≠ .modelProperty := hg.builtIn _ (by decide)
        simpa [Node.slots, recordNode] using ⟨hstring, hkind⟩
      typed := by simp [recordNode]
      valued := by simp [recordNode]
      literal := by simp [recordNode]
      numeric := fun _ h => absurd (show Text.ofString "Record" = Text.ofString "numeric" from h)
        (by decide) }

theorem literalNode_eq_ok {v : Value} {n : Node} (h : literalNode v = .ok n) :
    v.isPrimitive = true ∧ ∃ kind, (kind = .string ∨ kind = .number ∨ kind = .boolean) ∧
      n = { kind, literal := some v } := by
  unfold literalNode at h
  split at h
  · cases h; exact ⟨rfl, _, .inl rfl, rfl⟩
  · cases h; exact ⟨rfl, _, .inr (.inl rfl), rfl⟩
  · cases h; exact ⟨rfl, _, .inr (.inr rfl), rfl⟩
  · simp at h

theorem kind_literalNode {v : Value} {n : Node} (h : literalNode v = .ok n) :
    n.kind ≠ .modelProperty := by
  obtain ⟨_, kind, rfl | rfl | rfl, rfl⟩ := literalNode_eq_ok h <;> simp

theorem anonymous_literal {v : Value} {n : Node} (h : literalNode v = .ok n) :
    g.Anonymous n := by
  obtain ⟨hv, kind, hkind, rfl⟩ := literalNode_eq_ok h
  refine ⟨?_, rfl, rfl, ?_⟩
  · rcases hkind with rfl | rfl | rfl <;> rfl
  · refine ⟨by simp [Node.mentions, Node.slots], by simp, by simp, by simp, by simp,
      by simp [Node.slots], ?_, by simp, ?_, by simp⟩
    · rcases hkind with rfl | rfl | rfl <;> simp
    · exact fun _ => ⟨v, rfl, hv⟩

/-- A node that names others in one of its lists or as its type. -/
theorem anonymous_of_lists {n : Node} (hkind : n.isReferred = false) (hbase : n.base = none)
    (hencoding : n.encoding = none) (hindexer : n.indexer = none) (hbuiltIn : n.builtIn = false)
    (hlt : ∀ r ∈ n.mentions, r < g.nodes.size)
    (hproperties : ∀ p ∈ n.properties, (g.node p).kind = .modelProperty)
    (hvariants : ∀ v ∈ n.variants, (g.node v).kind = .unionVariant)
    (hmembers : n.members = []) (hslots : ∀ t ∈ n.slots, (g.node t).kind ≠ .modelProperty)
    (htyped : n.kind = .modelProperty ∨ n.kind = .unionVariant → n.type.isSome)
    (hliteral : n.kind ≠ .string ∧ n.kind ≠ .number ∧ n.kind ≠ .boolean) : g.Anonymous n where
  undeclared := hkind
  base := hbase
  encoding := hencoding
  shaped :=
    { lt := hlt
      base := by simp [hbase]
      properties := hproperties
      variants := hvariants
      members := by simp [hmembers]
      slots := hslots
      typed := htyped
      valued := by simp [hindexer]
      literal := by rintro (h | h | h) <;> simp_all
      numeric := by simp [hbuiltIn] }

end Anonymous

/-! ### Resolving types -/

/-- The result of making one node of some kind. -/
structure Made (g : Graph) (P : Kind → Prop) (r : NodeId × Graph) : Prop where
  fit : r.2.Fit
  grows : g.Grows r.2
  lt : r.1 < r.2.nodes.size
  kind : P (r.2.node r.1).kind

/-- The result of making several nodes of some kind. -/
structure MadeAll (g : Graph) (P : Kind → Prop) (r : List NodeId × Graph) : Prop where
  fit : r.2.Fit
  grows : g.Grows r.2
  lt : ∀ i ∈ r.1, i < r.2.nodes.size
  kind : ∀ i ∈ r.1, P (r.2.node i).kind

section Make
variable {g h : Graph}

theorem Made.push (hg : h.Fit) (hgh : g.Grows h) {P : Kind → Prop} {n : Node}
    (hn : h.Anonymous n) (hP : P n.kind) : Made g P (h.push n) where
  fit := hg.push hn
  grows := hgh.trans (.push h n)
  lt := by simp
  kind := by
    rw [push_fst, node_push_self]
    exact hP

theorem MadeAll.nil (hg : g.Fit) (P : Kind → Prop) : MadeAll g P ([], g) :=
  ⟨hg, .refl g, by simp, by simp⟩

theorem MadeAll.cons {P : Kind → Prop} {i : NodeId} {is : List NodeId} {k : Graph}
    (hi : Made g P (i, h)) (his : MadeAll h P (is, k)) : MadeAll g P (i :: is, k) where
  fit := his.fit
  grows := hi.grows.trans his.grows
  lt := by
    intro j hj
    rcases List.mem_cons.mp hj with rfl | hj
    · exact Nat.lt_of_lt_of_le hi.lt his.grows.size_le
    · exact his.lt j hj
  kind := by
    intro j hj
    rcases List.mem_cons.mp hj with rfl | hj
    · rw [his.grows.kind j hi.lt]
      exact hi.kind
    · exact his.kind j hj

theorem resolveName_made (hg : g.Fit) {name : Text} {i : NodeId} (h : g.resolveName name = .ok i) :
    Made g (· ≠ .modelProperty) (i, g) := by
  unfold resolveName at h
  split at h
  · rename_i heq
    cases h
    exact ⟨hg, .refl g, hg.lookup?_lt heq, hg.kind_lookup?_ne heq⟩
  · simp at h

theorem kind_resolveMember (hg : g.Fit) {ref : Text} {i : NodeId}
    (h : g.resolveMember ref = .ok i) : i < g.nodes.size ∧ (g.node i).kind = .enumMember := by
  unfold resolveMember at h
  split at h
  · simp at h
  · obtain ⟨e, he, h⟩ := Result.bind_eq_ok.mp h
    split at h
    · rename_i m hm
      cases h
      have hfits := hg.fits_of_lt (resolveName_made hg he).lt
      have hmem := List.mem_of_find?_eq_some hm
      exact ⟨hfits.lt i (Node.mem_mentions_of_member hmem), hfits.members i hmem⟩
    · simp at h

theorem resolveMember_made (hg : g.Fit) {ref : Text} {i : NodeId}
    (h : g.resolveMember ref = .ok i) : Made g (· ≠ .modelProperty) (i, g) := by
  obtain ⟨hlt, hkind⟩ := kind_resolveMember hg h
  refine ⟨hg, .refl g, hlt, ?_⟩
  rw [hkind]
  simp

theorem variant_made (hg : g.Fit) {t : NodeId} (h : t < g.nodes.size)
    (hkind : (g.node t).kind ≠ .modelProperty) (name : Text) :
    Made g (· = .unionVariant) (g.push { kind := .unionVariant, name, type := some t }) := by
  refine .push hg (.refl g) ?_ rfl
  apply anonymous_of_lists <;>
    simp [Node.isReferred, Node.isDeclaration, Node.mentions, Node.slots]
  · exact h
  · exact hkind

theorem pushVariants_made (hg : g.Fit) {types : List NodeId} (h : ∀ t ∈ types, t < g.nodes.size)
    (hkind : ∀ t ∈ types, (g.node t).kind ≠ .modelProperty) :
    MadeAll g (· = .unionVariant) (g.pushVariants types) := by
  induction types generalizing g with
  | nil => exact .nil hg _
  | cons t ts ih =>
    have hmade := variant_made hg (h t List.mem_cons_self) (hkind t List.mem_cons_self) []
    refine .cons hmade (ih hmade.fit ?_ ?_)
    · intro x hx
      exact Nat.lt_of_lt_of_le (h x (List.mem_cons_of_mem _ hx)) hmade.grows.size_le
    · intro x hx
      have hmem := List.mem_cons_of_mem t hx
      exact fun heq => hkind x hmem ((hmade.grows.kind x (h x hmem)).symm.trans heq)

theorem propertyNode_made (hg : h.Fit) (hgh : g.Grows h) (p : Property) {t : NodeId}
    (ht : t < h.nodes.size) (hkind : (h.node t).kind ≠ .modelProperty) :
    Made g (· = .modelProperty) (h.push (propertyNode p t)) := by
  refine .push hg hgh ?_ rfl
  apply anonymous_of_lists <;>
    simp [Node.isReferred, Node.isDeclaration, Node.mentions, Node.slots, propertyNode]
  · exact ht
  · exact hkind

/-- Every node a type reference makes is as linking makes it. -/
theorem resolve_made_all :
    (∀ g t, g.Fit → ∀ r, g.resolve t = .ok r → Made g (· ≠ .modelProperty) r) ∧
    (∀ g ps, g.Fit → ∀ r, g.linkProperties ps = .ok r → MadeAll g (· = .modelProperty) r) ∧
    (∀ g p, g.Fit → ∀ r, g.linkProperty p = .ok r → Made g (· = .modelProperty) r) ∧
    (∀ g ts, g.Fit → ∀ r, g.resolveAll ts = .ok r → MadeAll g (· ≠ .modelProperty) r) := by
  apply resolve.mutual_induct
  · intro g name array record literal union tuple object member hname hg r h
    rw [resolve.eq_def] at h
    simp only [if_pos hname] at h
    obtain ⟨i, hi, rfl⟩ := Result.map_eq_ok.mp h
    exact resolveName_made hg hi
  · intro g name record literal union tuple object member hname t ih hg r h
    rw [resolve, if_neg hname] at h
    obtain ⟨⟨elem, k⟩, hk, h⟩ := Result.bind_eq_ok.mp h
    cases h
    have hmade := ih hg _ hk
    exact .push hmade.fit hmade.grows (anonymous_array hmade.lt hmade.kind) (by simp [arrayNode])
  · intro g name literal union tuple object member hname t ih hg r h
    rw [resolve, if_neg hname] at h
    obtain ⟨⟨value, k⟩, hk, h⟩ := Result.bind_eq_ok.mp h
    cases h
    have hmade := ih hg _ hk
    exact .push hmade.fit hmade.grows (anonymous_record hmade.fit hmade.lt hmade.kind)
      (by simp [recordNode])
  · intro g name union tuple object member hname v hg r h
    rw [resolve, if_neg hname] at h
    obtain ⟨n, hn, rfl⟩ := Result.map_eq_ok.mp h
    exact .push hg (.refl g) (anonymous_literal hn) (kind_literalNode hn)
  · intro g name tuple object member hname ts ih hg r h
    rw [resolve, if_neg hname] at h
    obtain ⟨⟨types, k⟩, hk, h⟩ := Result.bind_eq_ok.mp h
    cases h
    have htypes := ih hg _ hk
    have hvariants := pushVariants_made htypes.fit htypes.lt htypes.kind
    refine .push hvariants.fit (htypes.grows.trans hvariants.grows) ?_ (by simp)
    apply anonymous_of_lists <;>
      simp [Node.isReferred, Node.isDeclaration, Node.mentions, Node.slots]
    · exact hvariants.lt
    · exact hvariants.kind
  · intro g name object member hname ts ih hg r h
    rw [resolve, if_neg hname] at h
    obtain ⟨⟨elements, k⟩, hk, h⟩ := Result.bind_eq_ok.mp h
    cases h
    have helements := ih hg _ hk
    refine .push helements.fit helements.grows ?_ (by simp)
    apply anonymous_of_lists <;>
      simp [Node.isReferred, Node.isDeclaration, Node.mentions, Node.slots]
    · exact helements.lt
    · exact helements.kind
  · intro g name member hname ps ih hg r h
    rw [resolve, if_neg hname] at h
    obtain ⟨⟨properties, k⟩, hk, h⟩ := Result.bind_eq_ok.mp h
    cases h
    have hproperties := ih hg _ hk
    refine .push hproperties.fit hproperties.grows ?_ (by simp)
    apply anonymous_of_lists <;>
      simp [Node.isReferred, Node.isDeclaration, Node.mentions, Node.slots]
    · exact hproperties.lt
    · exact hproperties.kind
  · intro g name member hname hmember hg r h
    rw [resolve, if_neg hname] at h
    simp only [if_pos hmember] at h
    obtain ⟨i, hi, rfl⟩ := Result.map_eq_ok.mp h
    exact resolveMember_made hg hi
  · intro g name member hname hmember hg r h
    rw [resolve, if_neg hname] at h
    simp only [if_neg hmember] at h
    exact absurd h Result.fail_ne_ok
  · intro g name type optional default decorators ih hg r h
    rw [linkProperty] at h
    obtain ⟨⟨t, k⟩, hk, h⟩ := Result.bind_eq_ok.mp h
    cases h
    have hmade := ih hg _ (Result.within_eq_ok.mp hk)
    exact propertyNode_made hmade.fit hmade.grows _ hmade.lt hmade.kind
  · intro g hg r h
    cases h
    exact .nil hg _
  · intro g t ts iht ihts hg r h
    rw [resolveAll] at h
    obtain ⟨⟨n, k⟩, hn, h⟩ := Result.bind_eq_ok.mp h
    obtain ⟨⟨ns, l⟩, hns, h⟩ := Result.bind_eq_ok.mp h
    cases h
    have hmade := iht hg _ hn
    exact .cons hmade (ihts k hmade.fit _ hns)
  · intro g hg r h
    cases h
    exact .nil hg _
  · intro g p ps ihp ihps hg r h
    rw [linkProperties] at h
    obtain ⟨⟨n, k⟩, hn, h⟩ := Result.bind_eq_ok.mp h
    obtain ⟨⟨ns, l⟩, hns, h⟩ := Result.bind_eq_ok.mp h
    cases h
    have hmade := ihp hg _ hn
    exact .cons hmade (ihps k hmade.fit _ hns)

theorem resolve_made (hg : g.Fit) {t : TypeRef} {r : NodeId × Graph} (h : g.resolve t = .ok r) :
    Made g (· ≠ .modelProperty) r := resolve_made_all.1 g t hg r h

theorem linkProperties_made (hg : g.Fit) {ps : List Property} {r : List NodeId × Graph}
    (h : g.linkProperties ps = .ok r) : MadeAll g (· = .modelProperty) r :=
  resolve_made_all.2.1 g ps hg r h

end Make

/-! ### Bodies -/

/-- A graph on the way from the names of a document to its linked graph. -/
structure Linking (d : Document) (g : Graph) : Prop where
  fit : g.Fit
  grows : (ofNames d).Grows g
  declarable : ∀ name ∈ d.names, Declarable name
  unique : d.names.Nodup

section Bodies
variable {d : Document} {g : Graph}

theorem Linking.made (hg : Linking d g) {P : Kind → Prop} {r : NodeId × Graph}
    (h : Made g P r) : Linking d r.2 :=
  ⟨h.fit, hg.grows.trans h.grows, hg.declarable, hg.unique⟩

theorem Linking.madeAll (hg : Linking d g) {P : Kind → Prop} {r : List NodeId × Graph}
    (h : MadeAll g P r) : Linking d r.2 :=
  ⟨h.fit, hg.grows.trans h.grows, hg.declarable, hg.unique⟩

theorem Linking.declared (hg : Linking d g) {name : Text} {kind : Kind} (hname : name ∈ d.names)
    (hkind : d.kind? name = some kind) :
    g.declared name ∈ g.declarations ∧ (g.node (g.declared name)).kind = kind := by
  have hkept := kept_ofNames d
  rw [← kind_lookup?_ofNames, Graph.lookup?, (hg.declarable name hname).not_builtin,
    Option.or_none, ← hg.grows.declaration? hkept] at hkind
  obtain ⟨i, hi, hkind⟩ := Option.map_eq_some_iff.mp hkind
  have hmem := (mem_of_declaration? hi).1
  have heq : g.declared name = i := by simp [Graph.declared, hi]
  rw [heq]
  refine ⟨hmem, ?_⟩
  rw [hg.grows.declarations] at hmem
  rw [hg.grows.kind i (hkept i hmem)]
  exact hkind

theorem kind?_scalar {s : ScalarDecl} (hs : s ∈ d.scalars) : d.kind? s.name = some .scalar := by
  rw [Document.kind?, if_pos (List.mem_map_of_mem hs)]

theorem kind?_model (hd : d.names.Nodup) {m : ModelDecl} (hm : m ∈ d.models) :
    d.kind? m.name = some .model := by
  have hmem : m.name ∈ d.models.map (·.name) := List.mem_map_of_mem hm
  simp only [Document.names, List.nodup_append] at hd
  have hscalar : m.name ∉ d.scalars.map (·.name) := fun h => hd.1.1.2.2 _ h _ hmem rfl
  rw [Document.kind?, if_neg hscalar, if_pos hmem]

theorem kind?_enum (hd : d.names.Nodup) {e : EnumDecl} (he : e ∈ d.enums) :
    d.kind? e.name = some .enum := by
  have hmem : e.name ∈ d.enums.map (·.name) := List.mem_map_of_mem he
  simp only [Document.names, List.nodup_append, List.mem_append] at hd
  have hscalar : e.name ∉ d.scalars.map (·.name) := fun h => hd.1.2.2 _ (.inl h) _ hmem rfl
  have hmodel : e.name ∉ d.models.map (·.name) := fun h => hd.1.2.2 _ (.inr h) _ hmem rfl
  rw [Document.kind?, if_neg hscalar, if_neg hmodel, if_pos hmem]

theorem kind?_union (hd : d.names.Nodup) {u : UnionDecl} (hu : u ∈ d.unions) :
    d.kind? u.name = some .union := by
  have hmem : u.name ∈ d.unions.map (·.name) := List.mem_map_of_mem hu
  simp only [Document.names, List.nodup_append, List.mem_append] at hd
  have hscalar : u.name ∉ d.scalars.map (·.name) := fun h => hd.2.2 _ (.inl (.inl h)) _ hmem rfl
  have hmodel : u.name ∉ d.models.map (·.name) := fun h => hd.2.2 _ (.inl (.inr h)) _ hmem rfl
  have henum : u.name ∉ d.enums.map (·.name) := fun h => hd.2.2 _ (.inr h) _ hmem rfl
  rw [Document.kind?, if_neg hscalar, if_neg hmodel, if_neg henum, if_pos hmem]

theorem mem_names_scalar {s : ScalarDecl} (hs : s ∈ d.scalars) : s.name ∈ d.names := by
  simp only [Document.names, List.mem_append]
  exact .inl (.inl (.inl (List.mem_map_of_mem hs)))

theorem mem_names_model {m : ModelDecl} (hm : m ∈ d.models) : m.name ∈ d.names := by
  simp only [Document.names, List.mem_append]
  exact .inl (.inl (.inr (List.mem_map_of_mem hm)))

theorem mem_names_enum {e : EnumDecl} (he : e ∈ d.enums) : e.name ∈ d.names := by
  simp only [Document.names, List.mem_append]
  exact .inl (.inr (List.mem_map_of_mem he))

theorem mem_names_union {u : UnionDecl} (hu : u ∈ d.unions) : u.name ∈ d.names := by
  simp only [Document.names, List.mem_append]
  exact .inr (List.mem_map_of_mem hu)

/-- Filling in a declaration goes on with linking. -/
theorem Linking.modify (hg : Linking d g) {i : NodeId} {f : Node → Node} (hi : i ∈ g.declarations)
    (hkind : ∀ n, (f n).kind = n.kind) (hname : ∀ n, (f n).name = n.name)
    (hbuiltIn : ∀ n, (f n).builtIn = n.builtIn) (hf : (f (g.node i)).Shaped g) :
    Linking d (g.modify i f) where
  fit := hg.fit.modify hi hkind hname hbuiltIn hf
  grows := hg.grows.trans (.modify g i hkind hname)
  declarable := hg.declarable
  unique := hg.unique

theorem Linking.shaped (hg : Linking d g) {i : NodeId} (hi : i ∈ g.declarations) :
    (g.node i).Shaped g := (hg.fit.fits_of_lt (hg.fit.kept i hi)).toShaped

theorem linkScalar_linking (hg : Linking d g) {s : ScalarDecl} (hs : s ∈ d.scalars) {h : Graph}
    (hok : g.linkScalar s = .ok h) : Linking d h := by
  obtain ⟨hmem, hkind⟩ := hg.declared (mem_names_scalar hs) (kind?_scalar hs)
  have hn := hg.shaped hmem
  obtain ⟨base, hbase, hok⟩ := Result.bind_eq_ok.mp (Result.within_eq_ok.mp hok)
  obtain ⟨encoding, _, hok⟩ := Result.bind_eq_ok.mp hok
  cases hok
  have hscalar : ∀ b, base = some b → b < g.nodes.size ∧ (g.node b).kind = .scalar := by
    unfold scalarBase at hbase
    split at hbase
    · cases hbase
      simp
    · obtain ⟨c, hc, hbase⟩ := Result.bind_eq_ok.mp hbase
      split at hbase
      · rename_i hkind
        cases hbase
        rintro b ⟨⟩
        exact ⟨(resolveName_made hg.fit hc).lt, by simpa using hkind⟩
      · simp at hbase
  refine hg.modify hmem (fun _ => rfl) (fun _ => rfl) (fun _ => rfl) ?_
  refine hn.update rfl rfl rfl rfl rfl ?_ ?_ hn.properties hn.variants hn.members hn.slots
    hn.valued
  · intro r hr
    rcases Node.mem_mentions.mp hr with hb | hr
    · exact (hscalar r hb).1
    · exact hn.lt r (Node.mem_mentions.mpr (.inr hr))
  · intro b hb
    rw [hkind]
    exact ⟨.inl rfl, (hscalar b hb).2⟩

theorem pushMembers_made (hg : g.Fit) (parent : NodeId) (ms : List MemberDecl) :
    MadeAll g (· = .enumMember) (g.pushMembers parent ms) := by
  induction ms generalizing g with
  | nil => exact .nil hg _
  | cons m ms ih =>
    have hn : g.Anonymous
        { kind := .enumMember, name := m.name, parent := some parent, literal := m.value } := by
      apply anonymous_of_lists <;>
        simp [Node.isReferred, Node.isDeclaration, Node.mentions, Node.slots]
    have hmade : Made g (· = .enumMember) _ := Made.push hg (.refl g) hn rfl
    exact .cons hmade (ih hmade.fit)

theorem linkEnum_linking (hg : Linking d g) {e : EnumDecl} (he : e ∈ d.enums) :
    Linking d (g.linkEnum e) := by
  have hmembers := pushMembers_made hg.fit (g.declared e.name) e.members
  have hmem := (hg.declared (mem_names_enum he) (kind?_enum hg.unique he)).1
  rw [← hmembers.grows.declarations] at hmem
  have hg := hg.madeAll hmembers
  have hn := hg.shaped hmem
  refine hg.modify hmem (fun _ => rfl) (fun _ => rfl) (fun _ => rfl) ?_
  refine hn.update rfl rfl rfl rfl rfl ?_ hn.base hn.properties hn.variants hmembers.kind hn.slots
    hn.valued
  intro r hr
  rcases Node.mem_mentions.mp hr with hr | hr | hr | hr | hr
  · exact hn.lt r (Node.mem_mentions.mpr (.inl hr))
  · exact hn.lt r (Node.mem_mentions.mpr (.inr (.inl hr)))
  · exact hn.lt r (Node.mem_mentions.mpr (.inr (.inr (.inl hr))))
  · exact hmembers.lt r hr
  · exact hn.lt r (Node.mem_mentions_of_slot hr)

theorem modelBase_made (hg : g.Fit) {t : Option TypeRef} {base : Option NodeId} {h : Graph}
    (hok : g.modelBase t = .ok (base, h)) :
    h.Fit ∧ g.Grows h ∧ ∀ b, base = some b → b < h.nodes.size ∧ (h.node b).kind = .model := by
  cases t with
  | none =>
    cases hok
    exact ⟨hg, .refl g, by simp⟩
  | some t =>
    rw [modelBase] at hok
    obtain ⟨⟨b, k⟩, hb, hok⟩ := Result.bind_eq_ok.mp hok
    have hmade := resolve_made hg (Result.within_eq_ok.mp hb)
    simp only at hok
    split at hok
    · rename_i hkind
      cases hok
      refine ⟨hmade.fit, hmade.grows, ?_⟩
      rintro c ⟨⟩
      exact ⟨hmade.lt, by simpa using hkind⟩
    · simp at hok

theorem linkModel_linking (hg : Linking d g) {m : ModelDecl} (hm : m ∈ d.models) {h : Graph}
    (hok : g.linkModel m = .ok h) : Linking d h := by
  obtain ⟨⟨base, k⟩, hbase, hok⟩ := Result.bind_eq_ok.mp (Result.within_eq_ok.mp hok)
  obtain ⟨⟨properties, l⟩, hproperties, hok⟩ := Result.bind_eq_ok.mp hok
  cases hok
  obtain ⟨hfit, hgrows, hmodel⟩ := modelBase_made hg.fit hbase
  have hmade := linkProperties_made hfit hproperties
  have hg : Linking d l :=
    ⟨hmade.fit, hg.grows.trans (hgrows.trans hmade.grows), hg.declarable, hg.unique⟩
  obtain ⟨hmem, hkind⟩ := hg.declared (mem_names_model hm) (kind?_model hg.unique hm)
  have hn := hg.shaped hmem
  refine hg.modify hmem (fun _ => rfl) (fun _ => rfl) (fun _ => rfl) ?_
  refine hn.update rfl rfl rfl rfl rfl ?_ ?_ hmade.kind hn.variants hn.members hn.slots hn.valued
  · intro r hr
    rcases Node.mem_mentions.mp hr with hb | hp | hr
    · exact Nat.lt_of_lt_of_le (hmodel r hb).1 hmade.grows.size_le
    · exact hmade.lt r hp
    · exact hn.lt r (Node.mem_mentions.mpr (.inr (.inr hr)))
  · intro b hb
    rw [hkind, hmade.grows.kind b (hmodel b hb).1]
    exact ⟨.inr rfl, (hmodel b hb).2⟩

theorem linkVariants_made (hg : g.Fit) {tagged : Bool} {i : Nat} {vs : List VariantDecl}
    {r : List NodeId × Graph} (hok : g.linkVariants tagged i vs = .ok r) :
    MadeAll g (· = .unionVariant) r := by
  induction vs generalizing g i r with
  | nil =>
    cases hok
    exact .nil hg _
  | cons v vs ih =>
    rw [linkVariants] at hok
    obtain ⟨⟨t, k⟩, ht, hok⟩ := Result.bind_eq_ok.mp hok
    have htype := resolve_made hg (Result.within_eq_ok.mp ht)
    simp only at hok
    split at hok
    · simp at hok
    · obtain ⟨⟨ns, l⟩, hns, hok⟩ := Result.bind_eq_ok.mp hok
      cases hok
      have hn := variant_made htype.fit htype.lt htype.kind v.name
      have hmade : Made g (· = .unionVariant) _ :=
        ⟨hn.fit, htype.grows.trans hn.grows, hn.lt, hn.kind⟩
      exact .cons hmade (ih hmade.fit hns)

theorem linkUnion_linking (hg : Linking d g) {u : UnionDecl} (hu : u ∈ d.unions) {h : Graph}
    (hok : g.linkUnion u = .ok h) : Linking d h := by
  obtain ⟨_, _, hok⟩ := Result.bind_eq_ok.mp (Result.within_eq_ok.mp hok)
  obtain ⟨⟨variants, k⟩, hvariants, hok⟩ := Result.bind_eq_ok.mp hok
  cases hok
  have hmade := linkVariants_made hg.fit hvariants
  have hg := hg.madeAll hmade
  have hmem := (hg.declared (mem_names_union hu) (kind?_union hg.unique hu)).1
  have hn := hg.shaped hmem
  refine hg.modify hmem (fun _ => rfl) (fun _ => rfl) (fun _ => rfl) ?_
  refine hn.update rfl rfl rfl rfl rfl ?_ hn.base hn.properties hmade.kind hn.members hn.slots
    hn.valued
  intro r hr
  rcases Node.mem_mentions.mp hr with hr | hr | hr | hr
  · exact hn.lt r (Node.mem_mentions.mpr (.inl hr))
  · exact hn.lt r (Node.mem_mentions.mpr (.inr (.inl hr)))
  · exact hmade.lt r hr
  · exact hn.lt r (Node.mem_mentions.mpr (.inr (.inr (.inr hr))))

theorem linkEnums_linking (hg : Linking d g) {es : List EnumDecl} (hes : ∀ e ∈ es, e ∈ d.enums) :
    Linking d (es.foldl linkEnum g) := by
  induction es generalizing g with
  | nil => exact hg
  | cons e es ih =>
    exact ih (linkEnum_linking hg (hes e List.mem_cons_self))
      fun x hx => hes x (List.mem_cons_of_mem _ hx)

theorem linkBodies_linking (hg : Linking d g) {h : Graph} (hok : g.linkBodies d = .ok h) :
    Linking d h := by
  obtain ⟨a, ha, hok⟩ := Result.bind_eq_ok.mp hok
  obtain ⟨b, hb, hok⟩ := Result.bind_eq_ok.mp hok
  have hscalars : Linking d a :=
    Result.foldlM_induction (fun _ _ _ hs hg h => linkScalar_linking hg hs h) hg ha
  have henums : Linking d (d.enums.foldl linkEnum a) := linkEnums_linking hscalars fun _ he => he
  have hmodels : Linking d b :=
    Result.foldlM_induction (fun _ _ _ hm hg h => linkModel_linking hg hm h) henums hb
  exact Result.foldlM_induction (fun _ _ _ hu hg h => linkUnion_linking hg hu h) hmodels hok

end Bodies

/-! ### Copies -/

section Copying
variable {d : Document} {g : Graph}

/-- What is still to be expanded are declared models. -/
def Copyable (g : Graph) (copies : Copies) : Prop :=
  ∀ c ∈ copies, c.1 ∈ g.declarations ∧ (g.node c.1).kind = .model

theorem Copyable.grows {h : Graph} {copies : Copies} (hc : g.Copyable copies) (hkept : g.Kept)
    (hgh : g.Grows h) : h.Copyable copies := by
  intro c hmem
  obtain ⟨hdecl, hkind⟩ := hc c hmem
  rw [hgh.declarations, hgh.kind c.1 (hkept c.1 hdecl)]
  exact ⟨hdecl, hkind⟩

theorem mem_of_lookup {α β : Type} [BEq α] [LawfulBEq α] {entries : List (α × β)} {x : α} {y : β}
    (h : entries.lookup x = some y) : (x, y) ∈ entries := by
  obtain ⟨l₁, l₂, rfl, _⟩ := List.lookup_eq_some_iff.mp h
  simp

theorem copyShape_linking (hg : Linking d g) {n src : NodeId} (hn : n ∈ g.declarations)
    (hkind : (g.node n).kind = .model) (hsrc : src < g.nodes.size)
    (hmodel : (g.node src).kind = .model) : Linking d (g.copyShape n src) := by
  have hown := hg.shaped hn
  have hshape := (hg.fit.fits_of_lt hsrc).toShaped
  refine hg.modify hn (fun _ => rfl) (fun _ => rfl) (fun _ => rfl) ?_
  have hslots : ∀ r ∈ ({ g.node n with indexer := (g.node src).indexer } : Node).slots,
      r ∈ (g.node src).slots ∨ r ∈ (g.node n).slots := by
    intro r hr
    simp only [Node.mem_slots] at hr ⊢
    tauto
  refine hown.update rfl rfl rfl rfl rfl ?_ ?_ ?_ hown.variants hown.members ?_ hshape.valued
  · intro r hr
    rcases Node.mem_mentions.mp hr with hr | hr | hr | hr | hr
    · rcases Option.or_eq_some_iff.mp hr with hr | ⟨_, hr⟩
      · exact hown.lt r (Node.mem_mentions_of_base hr)
      · exact hshape.lt r (Node.mem_mentions_of_base hr)
    · rcases List.mem_append.mp hr with hr | hr
      · exact hshape.lt r (Node.mem_mentions_of_property hr)
      · exact hown.lt r (Node.mem_mentions_of_property hr)
    · exact hown.lt r (Node.mem_mentions_of_variant hr)
    · exact hown.lt r (Node.mem_mentions_of_member hr)
    · rcases hslots r hr with hr | hr
      · exact hshape.lt r (Node.mem_mentions_of_slot hr)
      · exact hown.lt r (Node.mem_mentions_of_slot hr)
  · intro b hb
    rcases Option.or_eq_some_iff.mp hb with hb | ⟨_, hb⟩
    · exact hown.base b hb
    · obtain ⟨_, hbase⟩ := hshape.base b hb
      rw [hbase, hmodel, hkind]
      exact ⟨.inr rfl, rfl⟩
  · intro p hp
    rcases List.mem_append.mp hp with hp | hp
    · exact hshape.properties p hp
    · exact hown.properties p hp
  · intro t ht
    rcases hslots t ht with ht | ht
    · exact hshape.slots t ht
    · exact hown.slots t ht

theorem grows_copyShape (g : Graph) (n src : NodeId) : g.Grows (g.copyShape n src) :=
  .modify g n (fun _ => rfl) fun _ => rfl

theorem expand_linking {fuel : Nat} {visiting : List NodeId} {copies : Copies} {n : NodeId}
    (hg : Linking d g) (hc : g.Copyable copies) {r : Graph × Copies}
    (hok : expand fuel visiting g copies n = .ok r) :
    Linking d r.1 ∧ g.Grows r.1 ∧ r.2 ⊆ copies := by
  induction fuel generalizing visiting g copies n r with
  | zero => simp [expand] at hok
  | succ fuel ih =>
    rw [expand] at hok
    split at hok
    · cases hok
      exact ⟨hg, .refl g, List.Subset.refl _⟩
    · rename_i source hlookup
      split at hok
      · simp at hok
      · obtain ⟨⟨src, k⟩, hsrc, hok⟩ := Result.bind_eq_ok.mp hok
        have hmade := resolve_made hg.fit (Result.within_eq_ok.mp hsrc)
        simp only at hok
        split at hok
        · simp at hok
        · rename_i hmodel
          obtain ⟨⟨l, rest⟩, hrest, hok⟩ := Result.bind_eq_ok.mp hok
          cases hok
          obtain ⟨hl, hgrows, hsub⟩ := ih (hg.made hmade) (hc.grows hg.fit.kept hmade.grows) hrest
          obtain ⟨hn, hkind⟩ := (hc.grows hg.fit.kept (hmade.grows.trans hgrows)) _
            (mem_of_lookup hlookup)
          refine ⟨?_, (hmade.grows.trans hgrows).trans (grows_copyShape l n src), ?_⟩
          · refine copyShape_linking hl hn hkind ?_ ?_
            · exact Nat.lt_of_lt_of_le hmade.lt hgrows.size_le
            · rw [hgrows.kind src hmade.lt]
              simpa using hmodel
          · exact fun c hmem => hsub (List.mem_of_mem_filter hmem)

theorem copyable_copiesOf (hg : Linking d g) : g.Copyable (g.copiesOf d.models) := by
  intro c hc
  obtain ⟨m, hm, hc⟩ := List.mem_filterMap.mp hc
  obtain ⟨t, _, rfl⟩ := Option.map_eq_some_iff.mp hc
  exact hg.declared (mem_names_model hm) (kind?_model hg.unique hm)

theorem expandCopies_linking (hg : Linking d g) {copies : Copies} (hc : g.Copyable copies)
    {h : Graph} (hok : g.expandCopies copies = .ok h) : Linking d h := by
  obtain ⟨⟨k, rest⟩, hk, hok⟩ := Result.bind_eq_ok.mp hok
  cases hok
  have hend : Linking d h ∧ h.Copyable rest := by
    refine Result.foldlM_induction (P := fun s : Graph × Copies => Linking d s.1 ∧ s.1.Copyable s.2)
      ?_ ⟨hg, hc⟩ hk
    rintro ⟨g, copies⟩ n r _ ⟨hg, hc⟩ hok
    obtain ⟨hr, hgrows, hsub⟩ := expand_linking hg hc (Result.within_eq_ok.mp hok)
    exact ⟨hr, fun c hmem => hc.grows hg.fit.kept hgrows c (hsub hmem)⟩
  exact hend.1

end Copying

/-! ### The names -/

section Names
variable {g : Graph}

/-- A built-in type is a scalar that derives from an earlier one, or an intrinsic type. -/
theorem node?_empty {i : NodeId} {n : Node} (h : empty.node? i = some n) :
    (∃ name base, n = { kind := .scalar, name, builtIn := true, base } ∧
      ∀ b, base = some b → b < i ∧ (empty.node b).kind = .scalar) ∨
    ∃ name, n = { kind := .intrinsic, name, builtIn := true } ∧ name ≠ Text.ofString "numeric" := by
  have hscalars : ∀ j < builtInScalars.length, ∀ p, builtInScalars[j]? = some p →
      ∀ b, p.2 = some b → b < j ∧ (empty.node b).kind = .scalar := by decide
  have hnames : ∀ name ∈ intrinsicNames, Text.ofString name ≠ Text.ofString "numeric" := by decide
  simp only [empty, node?, builtInNodes, List.getElem?_toArray, List.getElem?_append,
    List.getElem?_map, List.length_map] at h
  split at h
  · rename_i hi
    obtain ⟨⟨name, base⟩, hp, rfl⟩ := Option.map_eq_some_iff.mp h
    exact .inl ⟨_, base, rfl, hscalars i hi _ hp⟩
  · obtain ⟨name, hname, rfl⟩ := Option.map_eq_some_iff.mp h
    exact .inr ⟨_, rfl, hnames name (List.mem_of_getElem? hname)⟩

theorem shaped_of_base {kind : Kind} {name : Text} {builtIn : Bool} {base : Option NodeId}
    (hkind : kind = .intrinsic ∨ kind = .scalar ∨ kind = .model ∨ kind = .enum ∨ kind = .union)
    (hbase : ∀ b, base = some b → kind = .scalar ∧ b < g.nodes.size ∧ (g.node b).kind = .scalar)
    (hnumeric : builtIn = true → name = Text.ofString "numeric" → kind = .scalar) :
    Node.Shaped g { kind, name, builtIn, base } where
  lt := by
    intro r hr
    have hr : base = some r := by simpa [Node.mentions, Node.slots] using hr
    exact (hbase r hr).2.1
  base := by
    intro b hb
    obtain ⟨rfl, _, hb⟩ := hbase b hb
    exact ⟨.inl rfl, hb⟩
  properties := by simp
  variants := by simp
  members := by simp
  slots := by simp [Node.slots]
  typed := by rcases hkind with rfl | rfl | rfl | rfl | rfl <;> simp
  valued := by simp
  literal := by rcases hkind with rfl | rfl | rfl | rfl | rfl <;> simp
  numeric := hnumeric

theorem fit_empty : empty.Fit where
  size_le := by simp [empty]
  builtIn := by decide
  kept := kept_empty
  nodup := by simp [empty]
  fits := by
    intro i n hn
    have hlt := lt_of_node? hn
    rcases node?_empty hn with ⟨name, base, rfl, hbase⟩ | ⟨name, rfl, hname⟩
    · refine
        { toShaped := shaped_of_base (by simp) ?_ (by simp)
          declared_iff := by simp [Node.isReferred, empty]
          below := ?_
          plain := by simp [empty] }
      · exact fun b hb => ⟨rfl, Nat.lt_trans (hbase b hb).1 hlt, (hbase b hb).2⟩
      · intro _ r hr
        have hr : base = some r := by simpa [Node.mentions, Node.slots] using hr
        exact .inr (hbase r hr).1
    · exact
        { toShaped := shaped_of_base (by simp) (by simp) fun _ h => absurd h hname
          declared_iff := by simp [Node.isReferred, empty]
          below := by simp [Node.mentions, Node.slots]
          plain := by simp }

theorem Fit.withNames (hg : g.Fit) {kind : Kind} {names : List Text}
    (hkind : kind = .scalar ∨ kind = .model ∨ kind = .enum ∨ kind = .union)
    (hnames : ∀ name ∈ names, name ≠ []) : (g.withNames kind names).Fit := by
  have hsize : g.nodes.size ≤ (g.withNames kind names).nodes.size := by
    rw [size_withNames]
    exact Nat.le_add_right _ _
  have hold : ∀ i < g.nodes.size, (g.withNames kind names).node i = g.node i := by
    intro i hi
    simp only [node, node?_withNames_of_lt hi]
  have hmem : ∀ i < g.nodes.size, i ∈ (g.withNames kind names).declarations ↔
      i ∈ g.declarations := by
    intro i hi
    have hnot : i ∉ List.range' g.nodes.size names.length := fun h =>
      Nat.lt_irrefl i (Nat.lt_of_lt_of_le hi (List.mem_range'_1.mp h).1)
    simp [Graph.withNames, hnot]
  refine ⟨Nat.le_trans hg.size_le hsize, ?_, kept_withNames hg.kept, ?_, ?_⟩
  · intro i hi
    rw [hold i (Nat.lt_of_lt_of_le hi hg.size_le)]
    exact hg.builtIn i hi
  · refine List.nodup_append.mpr ⟨hg.nodup, List.nodup_range', ?_⟩
    rintro a ha b hb rfl
    exact Nat.lt_irrefl a (Nat.lt_of_lt_of_le (hg.kept a ha) (List.mem_range'_1.mp hb).1)
  · intro i n hn
    by_cases hi : i < g.nodes.size
    · rw [node?_withNames_of_lt hi] at hn
      have hfits := hg.fits i n hn
      exact
        { toShaped := hfits.toShaped.mono hsize fun j hj => by rw [hold j hj]
          declared_iff := by rw [hmem i hi]; exact hfits.declared_iff
          below := by
            rw [hmem i hi]
            intro hnot r hr
            rw [hmem r (hfits.lt r hr)]
            exact hfits.below hnot r hr
          plain := by
            rw [hmem i hi]
            intro hnot
            refine ⟨(hfits.plain hnot).1, ?_⟩
            intro b hb
            rw [hmem b (hfits.lt b (Node.mem_mentions_of_base hb))]
            exact (hfits.plain hnot).2 b hb }
    · obtain ⟨j, rfl⟩ := Nat.exists_eq_add_of_le (Nat.le_of_not_lt hi)
      rw [node?_withNames_add] at hn
      obtain ⟨name, hname, rfl⟩ := Option.map_eq_some_iff.mp hn
      have hj : j < names.length := (List.getElem?_eq_some_iff.mp hname).1
      have hdecl : g.nodes.size + j ∈ (g.withNames kind names).declarations := by
        refine List.mem_append_right _ (List.mem_range'_1.mpr ⟨?_, ?_⟩)
        · exact Nat.le_add_right _ _
        · exact Nat.add_lt_add_left hj _
      have hne := hnames name (List.mem_of_getElem? hname)
      exact
        { toShaped := shaped_of_base (.inr hkind) (by simp) (by simp)
          declared_iff := by
            rcases hkind with rfl | rfl | rfl | rfl <;>
              simp [Node.isReferred, Node.isDeclaration, hdecl, hne]
          below := fun hnot => absurd hdecl hnot
          plain := fun hnot => absurd hdecl hnot }

theorem fit_ofNames {d : Document} (hd : ∀ name ∈ d.names, Declarable name) :
    (ofNames d).Fit := by
  simp only [Document.names, List.mem_append, or_imp, forall_and] at hd
  obtain ⟨⟨⟨hs, hm⟩, he⟩, hu⟩ := hd
  unfold ofNames
  refine Fit.withNames (Fit.withNames (Fit.withNames (Fit.withNames fit_empty ?_ ?_) ?_ ?_) ?_ ?_)
    ?_ ?_
  · simp
  · exact fun name h => (hs name h).ne_nil
  · simp
  · exact fun name h => (hm name h).ne_nil
  · simp
  · exact fun name h => (he name h).ne_nil
  · simp
  · exact fun name h => (hu name h).ne_nil

end Names

/-! ### Linked graphs -/

theorem lt_of_mem_ancestors {g : Graph} {fuel : Nat} {m a : NodeId} (h : a ∈ g.ancestors fuel m) :
    a < g.nodes.size := by
  induction fuel generalizing m with
  | zero => simp [ancestors] at h
  | succ fuel ih =>
    rw [ancestors] at h
    split at h
    · simp at h
    · rename_i node hnode
      rcases List.mem_cons.mp h with rfl | h
      · exact lt_of_node? hnode
      · split at h
        · simp at h
        · exact ih h

/-- A linked graph: every node is as linking makes it and base chains end. -/
structure Linked (g : Graph) : Prop extends Fit g where
  ends : ∀ n ∈ g.declarations, g.baseLoops n = false

/-- The steps of a link that succeeds. -/
theorem link_phases {d : Document} {g : Graph} (h : link d = .ok g) :
    ∃ b, Linking d (ofNames d) ∧ (ofNames d).linkBodies d = .ok b ∧
      Linking d b ∧ b.expandCopies (b.copiesOf d.models) = .ok g ∧
      Linking d g ∧ g.checkBases = .ok () := by
  obtain ⟨a, ha, h⟩ := Result.bind_eq_ok.mp h
  obtain ⟨b, hb, h⟩ := Result.bind_eq_ok.mp h
  obtain ⟨c, hc, h⟩ := Result.bind_eq_ok.mp h
  obtain ⟨_, hcheck, h⟩ := Result.bind_eq_ok.mp h
  cases h
  obtain ⟨rfl, hdeclarable, hunique⟩ := declareNames_eq_ok.mp ha
  have hnames : Linking d (ofNames d) := ⟨fit_ofNames hdeclarable, .refl _, hdeclarable, hunique⟩
  have hbodies := linkBodies_linking hnames hb
  exact ⟨b, hnames, hb, hbodies, hc, expandCopies_linking hbodies (copyable_copiesOf hbodies) hc,
    hcheck⟩

/-- Linking a document gives a linked graph. -/
theorem linked_of_link {d : Document} {g : Graph} (h : link d = .ok g) : g.Linked := by
  obtain ⟨_, _, _, _, _, hg, hcheck⟩ := link_phases h
  refine ⟨hg.fit, ?_⟩
  unfold checkBases at hcheck
  split at hcheck
  · simp at hcheck
  · rename_i hnone
    intro n hn
    simpa using List.find?_eq_none.mp hnone n hn

end Graph

end SchemaLoom

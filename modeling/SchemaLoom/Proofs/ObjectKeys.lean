import SchemaLoom.Proofs.Fragments
import SchemaLoom.Proofs.Merging
import SchemaLoom.Proofs.Undeclared

/-!
# Keys of object literals

An object literal is put together from the properties of a model and of an undeclared base,
and from the two keys of an envelope. Whether a key comes up twice is not checked on the way:
a copied property meets an own one of its name, a flattened base does, and an envelope may
give both keys the same name. That no list of the document repeats a name rules out the rest.
-/

namespace SchemaLoom

set_option autoImplicit false

open SchemaLoom.Expr

/-! ### Object literals inside expressions -/

namespace Expr

/-- No object literal inside the expression repeats a key. -/
def Unrepeated (e : Expr) : Prop :=
  ∀ props, (object props).Occurs e → (props.map (·.1)).Nodup

def UnrepeatedAll (es : List Expr) : Prop := ∀ e ∈ es, e.Unrepeated

@[simp] theorem unrepeated_ident (name : Text) : (ident name).Unrepeated := by
  intro props h
  cases h

@[simp] theorem unrepeated_raw (text : Text) : (raw text).Unrepeated := by
  intro props h
  cases h

@[simp] theorem unrepeated_ref (n : NodeId) : (ref n).Unrepeated := by
  intro props h
  cases h

@[simp] theorem unrepeated_lazy (n : NodeId) : (lazy n).Unrepeated := by
  intro props h
  cases h

@[simp] theorem unrepeatedAll_nil : UnrepeatedAll [] := by simp [UnrepeatedAll]

@[simp] theorem unrepeatedAll_cons {e : Expr} {es : List Expr} :
    UnrepeatedAll (e :: es) ↔ e.Unrepeated ∧ UnrepeatedAll es := by simp [UnrepeatedAll]

theorem unrepeatedAll_append {es fs : List Expr} :
    UnrepeatedAll (es ++ fs) ↔ UnrepeatedAll es ∧ UnrepeatedAll fs := by
  simp only [UnrepeatedAll, List.forall_mem_append]

theorem unrepeated_call {name : Text} {args : List Expr} (h : UnrepeatedAll args) :
    (call name args).Unrepeated := by
  intro props hprops
  cases hprops with
  | call he hprops => exact h _ he props hprops

theorem unrepeated_array {elems : List Expr} (h : UnrepeatedAll elems) :
    (array elems).Unrepeated := by
  intro props hprops
  cases hprops with
  | array he hprops => exact h _ he props hprops

theorem unrepeated_chain {parts : List Expr} (h : UnrepeatedAll parts) :
    (chain parts).Unrepeated := by
  intro props hprops
  cases hprops with
  | chain he hprops => exact h _ he props hprops

theorem unrepeated_object {props : List (Text × Expr)} (hkeys : (props.map (·.1)).Nodup)
    (h : ∀ p ∈ props, p.2.Unrepeated) : (object props).Unrepeated := by
  intro inner hinner
  cases hinner with
  | here => exact hkeys
  | object hp hinner => exact h _ hp inner hinner

theorem unrepeatedAll_parts {e : Expr} (h : e.Unrepeated) : UnrepeatedAll e.parts := by
  cases e with
  | chain ps => exact fun e he props hprops => h props (.chain he hprops)
  | _ =>
    intro f hf
    rw [List.mem_singleton.mp hf]
    exact h

theorem unrepeated_ofParts {groups : List (List Expr)} (h : UnrepeatedAll groups.flatten) :
    (ofParts groups).Unrepeated := by
  have hparts : UnrepeatedAll (groups.flatten.flatMap parts) := by
    intro e he
    obtain ⟨f, hf, he⟩ := List.mem_flatMap.mp he
    exact unrepeatedAll_parts (h f hf) e he
  unfold ofParts
  split
  · rename_i e heq
    rw [heq] at hparts
    split
    · exact unrepeated_chain hparts
    · exact hparts e List.mem_cons_self
  · exact unrepeated_chain hparts

theorem unrepeatedAll_library (name : Text) {args : List Expr} (h : UnrepeatedAll args) :
    UnrepeatedAll (fromZ [call name args]) := by
  intro e he
  rcases List.mem_pair.mp he with rfl | rfl
  · exact unrepeated_ident _
  · exact unrepeated_call h

theorem Narrows.unrepeated {e : Expr} (h : e.Narrows) : e.Unrepeated := by
  obtain ⟨name, rfl⟩ | ⟨name, _, t, rfl⟩ := h
  · exact unrepeated_call unrepeatedAll_nil
  · exact unrepeated_call (by simp)

/-- Values are written without objects. -/
theorem unrepeated_ofValue {big : Bool} {v : Value} {e : Expr} (h : ofValue big v = .ok e) :
    e.Unrepeated := by
  intro props hprops
  obtain ⟨t, ht⟩ | ⟨es, hes⟩ := (occurs_ofValue_all big _).1 v e h hprops
  · cases ht
  · cases hes

theorem unrepeated_ofLiteral {v : Option Value} {e : Expr} (h : ofLiteral v = .ok e) :
    e.Unrepeated := by
  unfold ofLiteral at h
  split at h
  · simp at h
  · split at h
    · exact unrepeated_ofValue h
    · simp at h

theorem unrepeated_ofMember (name : Text) (v : Option Value) : (ofMember name v).Unrepeated := by
  unfold ofMember
  split <;> simp [quoted]

theorem Stock.unrepeated {es : List Expr} (h : Stock es) : UnrepeatedAll es :=
  h.forall unrepeated_ident fun _ => unrepeated_call unrepeatedAll_nil

theorem unrepeatedAll_describe (ns : List Node) : UnrepeatedAll (describe ns) := by
  intro e he
  obtain ⟨t, rfl⟩ := mem_describe he
  exact unrepeated_call (by simp)

end Expr

/-! ### What is written for a node -/

namespace Builder
variable {b : Builder} {base : BaseOf}

/-- The keys that are put together for a node are apart. -/
structure KeysApart (b : Builder) (s : Subject) : Prop where
  shape : s.node.kind = .model → s.node.isArray = false →
    ((b.shapeProperties s).map b.graph.nameOf).Nodup
  envelope : s.node.kind = .union → ∀ d, s.node.discriminator = some d →
    d.envelope ≠ Discriminator.noEnvelope → s.node.variants ≠ [] →
    d.property ≠ d.envelopeProperty

/-- Base schemas of nodes whose keys are apart repeat none. -/
def BaseUnrepeated (b : Builder) (base : BaseOf) : Prop :=
  ∀ s, b.KeysApart s → ∀ es, base s = .ok es → UnrepeatedAll es

/-- Keys are apart all over the graph. -/
def AllKeysApart (b : Builder) : Prop := ∀ n, b.KeysApart (b.graph.subject n)

theorem unrepeatedAll_memberParts {prop : Node} {type : Option Subject} {es : List Expr}
    (h : b.memberParts prop type = .ok es) : UnrepeatedAll es := by
  intro e he
  obtain rfl | ⟨big, v, x, _, hx, rfl⟩ := mem_memberParts h he
  · exact unrepeated_call unrepeatedAll_nil
  · exact unrepeated_call (by simpa using unrepeated_ofValue hx)

/-- What narrows and describes an expression adds no keys. -/
theorem unrepeated_parts {bs cs member : List Expr} {ns : List Node} {s : Subject}
    {prop : Option Node} {inlined : Bool} (hbs : UnrepeatedAll bs)
    (hcs : b.constraints s prop inlined = .ok cs) (hmember : UnrepeatedAll member) :
    (Parts.expr { base := bs, constraints := cs, member
                  description := describe ns }).Unrepeated := by
  apply unrepeated_ofParts
  simp only [List.flatten_cons, List.flatten_nil, unrepeatedAll_append]
  exact ⟨hbs, fun _ he => (narrows_of_mem_constraints hcs he).unrepeated, hmember,
    unrepeatedAll_describe ns, unrepeatedAll_nil⟩

theorem unrepeated_refer (n : NodeId) : (b.refer n).Unrepeated := by
  unfold refer
  split
  · exact unrepeated_lazy n
  · exact unrepeated_ref n

section Steps
variable (hr : b.registry.Silent) (hall : b.AllKeysApart) (hbase : b.BaseUnrepeated base)
include hr hall hbase

omit hall hbase in
/-- A field repeats no key if the base schema of its type does not. -/
theorem unrepeated_field {prop t : Subject} (ht : ∀ es, base t = .ok es → UnrepeatedAll es)
    {e : Expr} (h : b.field base prop (some t) = .ok e) : e.Unrepeated := by
  obtain ⟨cs, member, hmember, ⟨n, _, hcs, rfl⟩ | ⟨_, hcs, bs, hbs, rfl⟩⟩ := field_eq_ok hr h
  · exact unrepeated_parts (by simpa using unrepeated_refer n) hcs
      (unrepeatedAll_memberParts hmember)
  · exact unrepeated_parts (ht bs hbs) hcs (unrepeatedAll_memberParts hmember)

theorem unrepeated_fieldOf {p : NodeId} {e : Expr} (h : b.fieldOf base p = .ok e) :
    e.Unrepeated := by
  obtain ⟨t, _, _, h⟩ := fieldOf_eq_ok hr h
  exact unrepeated_field hr (hbase _ (hall t)) h

theorem unrepeated_inline {s : Subject} (hs : b.KeysApart s) {e : Expr}
    (h : b.inline base s = .ok e) : e.Unrepeated := by
  by_cases hkind : s.node.kind = .modelProperty
  · obtain ⟨p, hp, rfl⟩ := Result.map_eq_ok.mp h
    rw [inlineParts, if_pos (by simpa using hkind)] at hp
    have hfield : b.field base s (b.subject? s.node.type) = .ok p.expr := by
      rw [field_of_silent hr, hp]
      rfl
    obtain ⟨t, _, _, hfield⟩ := type_of_field hr hfield
    exact unrepeated_field hr (hbase _ (hall t)) hfield
  · obtain ⟨bs, cs, hbs, hcs, rfl⟩ := inline_eq_ok hkind h
    exact unrepeated_parts (hbase s hs bs hbs) hcs unrepeatedAll_nil

theorem unrepeated_nested {o : Option NodeId} {e : Expr}
    (h : b.nested base (b.subject? o) = .ok e) : e.Unrepeated := by
  obtain ⟨t, _, _, ⟨_, rfl⟩ | ⟨_, h⟩⟩ := nested_eq_ok hr h
  · exact unrepeated_refer t
  · exact unrepeated_inline hr hall hbase (hall t) h

theorem unrepeated_objectOf {ps : List NodeId} (hps : (ps.map b.graph.nameOf).Nodup) {e : Expr}
    (h : b.objectOf base ps = .ok e) : e.Unrepeated := by
  have hkeys := objectOf_eq_ok h
  obtain ⟨fields, rfl, hfields, _⟩ := fields_of_objectOf h
  rw [← hkeys] at hps
  apply unrepeated_object hps
  intro x hx
  obtain ⟨p, _, hp⟩ := hfields x hx
  exact unrepeated_fieldOf hr hall hbase hp

theorem Shaped.unrepeated {m : Subject} {es : List Expr} (h : b.Shaped base m es)
    (hm : ((b.shapeProperties m).map b.graph.nameOf).Nodup) : UnrepeatedAll es := by
  have hobject : ∀ obj, b.objectOf base (b.shapeProperties m) = .ok obj →
      UnrepeatedAll (fromZ [.call "object" [obj]]) := by
    intro obj hobj
    apply unrepeatedAll_library
    simpa using unrepeated_objectOf hr hall hbase hm hobj
  have hrecord : ∀ (ix : Indexer) key value, b.nested base (b.subject? ix.key) = .ok key →
      b.nested base (b.subject? ix.value) = .ok value →
      UnrepeatedAll (fromZ [.call "record" [key, value]]) := by
    intro ix key value hkey hvalue
    apply unrepeatedAll_library
    simpa using ⟨unrepeated_nested hr hall hbase hkey, unrepeated_nested hr hall hbase hvalue⟩
  cases h with
  | object _ hobj => exact hobject _ hobj
  | record _ _ hkey hvalue => exact hrecord _ _ _ hkey hvalue
  | both _ _ hkey hvalue hobj =>
    apply unrepeatedAll_library
    simp only [unrepeatedAll_cons]
    exact ⟨unrepeated_ofParts (by simpa using hobject _ hobj),
      unrepeated_ofParts (by simpa using hrecord _ _ _ hkey hvalue), unrepeatedAll_nil⟩

theorem unrepeated_envelope {d : Discriminator} (hd : d.property ≠ d.envelopeProperty) {v : Node}
    {e : Expr} (h : b.envelope base d v = .ok e) : e.Unrepeated := by
  obtain ⟨tag, payload, t, _, _, htag, hpayload, rfl⟩ := envelope_eq_ok hr h
  have htag : tag.Unrepeated := by
    refine unrepeated_field hr (hbase _ ⟨?_, ?_⟩) htag
    · intro hkind
      cases hkind
    · intro hkind
      cases hkind
  have hpayload : payload.Unrepeated := unrepeated_field hr (hbase _ (hall t)) hpayload
  have hobject : (object [(d.property, tag), (d.envelopeProperty, payload)]).Unrepeated := by
    apply unrepeated_object
    · simpa using hd
    · simp [htag, hpayload]
  apply unrepeated_ofParts
  rw [List.flatten_singleton]
  exact unrepeatedAll_library _ (by simpa using hobject)

theorem unrepeatedAll_variants {u : Subject} (hkind : u.node.kind = .union) (hu : b.KeysApart u)
    {es : List Expr} (h : u.node.variants.mapM (b.variant base u.node.discriminator) = .ok es) :
    UnrepeatedAll es := by
  intro e he
  obtain ⟨v, hv, he⟩ := Result.exists_of_mem_mapM h he
  obtain ⟨_, he⟩ | ⟨d, hd, henvelope, he⟩ := variant_eq_ok he
  · exact unrepeated_nested hr hall hbase he
  · have hapart := hu.envelope hkind d hd henvelope (List.ne_nil_of_mem hv)
    exact unrepeated_envelope hr hall hbase hapart he

theorem Composed.unrepeated {s : Subject} {es : List Expr} (h : b.Composed base s es)
    (hs : b.KeysApart s) : UnrepeatedAll es := by
  cases h with
  | stock _ hstock => exact hstock.unrepeated
  | literal _ hx => exact unrepeatedAll_library _ (by simpa using unrepeated_ofLiteral hx)
  | member _ => exact unrepeatedAll_library _ (by simpa using unrepeated_ofMember _ _)
  | @enum elems _ helems =>
    have helems : UnrepeatedAll elems := by
      intro e he
      obtain ⟨m, _, he⟩ := Result.exists_of_mem_mapM helems he
      rw [enumMember_eq_ok hr he]
      exact unrepeated_ofMember _ _
    exact unrepeatedAll_library _ (by simpa using unrepeated_array helems)
  | @tuple elems _ helems =>
    have helems : UnrepeatedAll elems := by
      intro e he
      obtain ⟨t, _, he⟩ := Result.exists_of_mem_mapM helems he
      exact unrepeated_nested (o := some t) hr hall hbase he
    exact unrepeatedAll_library _ (by simpa using unrepeated_array helems)
  | untagged hkind _ helems =>
    have helems := unrepeated_array (unrepeatedAll_variants hr hall hbase hkind hs helems)
    exact unrepeatedAll_library _ (by simpa using helems)
  | tagged hkind _ helems =>
    have helems := unrepeated_array (unrepeatedAll_variants hr hall hbase hkind hs helems)
    exact unrepeatedAll_library _ (by simpa using helems)
  | array _ helem =>
    exact unrepeatedAll_library _ (by simpa using unrepeated_nested hr hall hbase helem)
  | shape hkind harray _ hshape =>
    exact (shaped_of_shape hshape).unrepeated hr hall hbase (hs.shape hkind harray)
  | merged hkind harray _ hshape =>
    have hshape := (shaped_of_shape hshape).unrepeated hr hall hbase (hs.shape hkind harray)
    simp only [unrepeatedAll_cons]
    exact ⟨unrepeated_ref _, unrepeated_call (by simpa using unrepeated_ofParts (by simpa)),
      unrepeatedAll_nil⟩
  | property _ ht hes =>
    obtain ⟨t, _, _, rfl⟩ := subject?_eq_some ht
    exact hbase _ (hall t) _ hes

end Steps

theorem unrepeated_baseSchema (hr : b.registry.Silent) (hall : b.AllKeysApart) (fuel : Nat)
    (expanding : List NodeId) : b.BaseUnrepeated (b.baseSchema fuel expanding) := by
  apply baseSchema_induction
  intro base' hstep s hs es h
  obtain ⟨base, hbase, h⟩ := hstep s es h
  exact (composed_of_baseStep h).unrepeated hr hall hbase hs

theorem unrepeated_declare (hr : b.registry.Silent) (hall : b.AllKeysApart) (n : NodeId) {e : Expr}
    (h : b.declare (b.graph.subject n) = .ok e) : e.Unrepeated := by
  rw [declare_of_silent hr] at h
  exact unrepeated_inline hr hall (unrepeated_baseSchema hr hall _ _) (hall n) h

/-! ### What the keys of a declaration say about its node -/

theorem Shaped.names_nodup {m : Subject} {es : List Expr} (h : b.Shaped base m es)
    (hes : UnrepeatedAll es) : ((b.shapeProperties m).map b.graph.nameOf).Nodup := by
  have hobject : ∀ obj, b.objectOf base (b.shapeProperties m) = .ok obj →
      obj.Occurs (ofParts [es]) → ((b.shapeProperties m).map b.graph.nameOf).Nodup := by
    intro obj hobj hoccurs
    rw [← objectOf_eq_ok hobj]
    obtain ⟨fields, rfl, _⟩ := fields_of_objectOf hobj
    exact unrepeated_ofParts (by simpa using hes) fields hoccurs
  cases h with
  | @object obj _ hobj => exact hobject obj hobj (occurs_library "object" List.mem_cons_self)
  | record _ hnone _ _ =>
    rw [hnone]
    exact List.nodup_nil
  | @both _ _ _ obj _ _ _ _ hobj =>
    have hinner : obj.Occurs (ofParts [fromZ [.call "object" [obj]]]) :=
      occurs_library "object" List.mem_cons_self
    exact hobject obj hobj (hinner.trans (occurs_library "intersection" List.mem_cons_self))

theorem Composed.names_nodup {m : Subject} {es : List Expr} (h : b.Composed base m es)
    (hkind : m.node.kind = .model) (harray : m.node.isArray = false) (hes : UnrepeatedAll es) :
    ((b.shapeProperties m).map b.graph.nameOf).Nodup := by
  obtain ⟨shape, hshape, ⟨_, rfl⟩ | ⟨a, _, rfl⟩⟩ := h.of_shape hkind harray
  · exact (shaped_of_shape hshape).names_nodup hes
  · have hshape := shaped_of_shape hshape
    apply hshape.names_nodup
    -- what is merged holds the parts of the shape
    intro x hx props hprops
    have hmerged : x.Occurs (.call "merge" [ofParts [shape]]) :=
      .call List.mem_cons_self (occurs_ofParts (by simpa using hx) (hshape.opens.parts x hx))
    exact hes _ (List.mem_cons_of_mem _ List.mem_cons_self) props (hprops.trans hmerged)

theorem Composed.keys_ne (hr : b.registry.Silent) {u : Subject} {es : List Expr}
    (h : b.Composed base u es) (hkind : u.node.kind = .union) {d : Discriminator}
    (hd : u.node.discriminator = some d) (henvelope : d.envelope ≠ Discriminator.noEnvelope)
    (hvariants : u.node.variants ≠ []) (hes : UnrepeatedAll es) :
    d.property ≠ d.envelopeProperty := by
  cases h with
  | @tagged d' elems _ hd' helems =>
    obtain rfl : d' = d := Option.some.inj (hd'.symm.trans hd)
    obtain ⟨v, hv⟩ := List.exists_mem_of_ne_nil _ hvariants
    obtain ⟨e, he, hvariant⟩ := Result.exists_mem_of_mapM helems hv
    obtain ⟨hnone, _⟩ | ⟨c, hc, _, hvariant⟩ := variant_eq_ok hvariant
    · exact absurd (hnone d' hd) henvelope
    obtain rfl : c = d' := Option.some.inj (hc.symm.trans hd)
    obtain ⟨tag, payload, _, _, _, _, _, rfl⟩ := envelope_eq_ok hr hvariant
    have hobject : (object [(c.property, tag), (c.envelopeProperty, payload)]).Occurs
        (.call "discriminatedUnion" [.raw c.property.quoteLiteral, .array elems]) :=
      .call (List.mem_cons_of_mem _ List.mem_cons_self)
        (.array he (occurs_library "object" List.mem_cons_self))
    have hkeys := hes _ (List.mem_cons_of_mem _ List.mem_cons_self) _ hobject
    simpa using hkeys
  | array harray _ => simp [Node.kind_of_isArray harray] at hkind
  | _ => simp_all

theorem keysApart_of_declare (hr : b.registry.Silent) {n : NodeId}
    (hkind : (b.graph.node n).kind ≠ .modelProperty) {e : Expr}
    (h : b.declare (b.graph.subject n) = .ok e) (he : e.Unrepeated) :
    b.KeysApart (b.graph.subject n) := by
  rw [declare_of_silent hr] at h
  obtain ⟨bs, cs, hbs, _, rfl⟩ := inline_eq_ok hkind h
  obtain ⟨_, _, hstep⟩ := baseStep_of_baseSchema hbs
  have hcomposed := composed_of_baseStep hstep
  have hes : UnrepeatedAll bs := by
    intro x hx props hprops
    exact he props
      (hprops.trans (occurs_ofParts (by simp [hx]) ((known_base.opens hbs).parts x hx)))
  exact ⟨fun hkind harray => hcomposed.names_nodup hkind harray hes,
    fun hkind d hd henvelope hvariants =>
      hcomposed.keys_ne hr hkind hd henvelope hvariants hes⟩

end Builder

/-! ### Linked graphs -/

namespace Graph

/-- The properties in the object of a model: those of an undeclared base, then its own. -/
def objectProperties (g : Graph) (m : NodeId) : List NodeId :=
  (match (g.node m).base with
    | some a => if a ∈ g.declarations then [] else (g.node a).properties
    | none => []) ++ (g.node m).properties

/-- The declarations of a graph put no two keys of one name together. -/
structure KeysApart (g : Graph) : Prop where
  models : ∀ m ∈ g.declarations, (g.node m).kind = .model → (g.node m).isArray = false →
    ((g.objectProperties m).map g.nameOf).Nodup
  unions : ∀ u ∈ g.declarations, (g.node u).kind = .union →
    ∀ d ∈ (g.node u).discriminator, d.envelope ≠ Discriminator.noEnvelope →
      (g.node u).variants ≠ [] → d.property ≠ d.envelopeProperty

end Graph

namespace Builder
variable {b : Builder}

theorem shapeProperties_of_base_none {m : NodeId} (hbase : (b.graph.node m).base = none) :
    b.shapeProperties (b.graph.subject m) = (b.graph.node m).properties := by
  rw [shapeProperties, flattened_eq, hbase]
  simp

/-- A declared base is merged into; an undeclared one has no base itself and is written out. -/
theorem shapeProperties_eq (hg : b.graph.Linked) (hr : b.registry = {})
    (huntouched : b.graph.AllUntouched) {m : NodeId} (hm : m < b.graph.nodes.size)
    (hkind : (b.graph.node m).kind = .model) :
    b.shapeProperties (b.graph.subject m) = b.graph.objectProperties m := by
  cases hbase : (b.graph.node m).base with
  | none =>
    rw [shapeProperties_of_base_none hbase, Graph.objectProperties, hbase]
    rfl
  | some a =>
    have hlt := (hg.fits_of_lt hm).lt a (Node.mem_mentions_of_base hbase)
    have hchain := Graph.baseChain_of_lt hlt
    rw [shapeProperties, flattened_eq, Graph.objectProperties, hbase]
    by_cases hdecl : a ∈ b.graph.declarations
    · have hrefers := (refersTo_iff hg.toFit hr hlt).mpr hdecl
      simp [hdecl, writtenOut, hchain, hrefers]
    · have hrefers : b.refersTo a = false := by
        rw [Bool.eq_false_iff]
        exact mt (refersTo_iff hg.toFit hr hlt).mp hdecl
      have hmodel : (b.graph.node a).kind = .model := by
        rw [((hg.fits_of_lt hm).base a hbase).2, hkind]
      rw [(huntouched a hdecl).base hmodel] at hchain
      simp [hdecl, writtenOut, hchain, hrefers]

theorem allKeysApart_of_graph (hg : b.graph.Linked) (hr : b.registry = {})
    (huntouched : b.graph.AllUntouched) (h : b.graph.KeysApart) : b.AllKeysApart := by
  intro n
  by_cases hn : n ∈ b.graph.declarations
  · constructor
    · intro hkind harray
      rw [shapeProperties_eq hg hr huntouched (hg.kept n hn) hkind]
      exact h.models n hn hkind harray
    · intro hkind d hd
      exact h.unions n hn hkind d hd
  · have hnode := huntouched n hn
    constructor
    · intro hkind _
      rw [shapeProperties_of_base_none (hnode.base hkind)]
      exact hnode.unrepeated
    · intro _ d hd
      have hnone : (b.graph.subject n).node.discriminator = none := hnode.discriminator
      rw [hnone] at hd
      cases hd

end Builder

section Plans
variable {d : Document} {g : Graph} {ds : List Planned}

theorem keysApart_of_unrepeated (hg : g.Linked) (huntouched : g.AllUntouched)
    (hplan : plan g {} = .ok ds) (h : ∀ p ∈ ds, p.expr.Unrepeated) : g.KeysApart := by
  have hwritten : ∀ n ∈ g.declarations,
      ∃ pending, Builder.KeysApart { graph := g, pending } (g.subject n) := by
    intro n hn
    obtain ⟨p, hp, rfl⟩ := exists_planned hg hplan hn
    obtain ⟨hdecl, pending, hdeclare⟩ := declare_of_planned hg hplan hp
    exact ⟨pending, Builder.keysApart_of_declare (Registry.silent_of_empty rfl)
      (hg.kind_declared hdecl) hdeclare (h p hp)⟩
  constructor
  · intro m hm hkind harray
    obtain ⟨pending, hapart⟩ := hwritten m hm
    have hnames := hapart.shape hkind harray
    rw [Builder.shapeProperties_eq hg rfl huntouched (hg.kept m hm) hkind] at hnames
    exact hnames
  · intro u hu hkind d hd
    obtain ⟨pending, hapart⟩ := hwritten u hu
    exact hapart.envelope hkind d hd

/-- Where no list of a document repeats a name, an object literal of the plan repeats a key just
if a declaration puts two properties of one name together. -/
theorem plan_unrepeated_iff (hd : d.Unrepeated) (hlink : Graph.link d = .ok g)
    (hplan : plan g {} = .ok ds) : (∀ p ∈ ds, p.expr.Unrepeated) ↔ g.KeysApart := by
  have hg := Graph.linked_of_link hlink
  have huntouched := Graph.untouched_of_link hd hlink
  constructor
  · exact keysApart_of_unrepeated hg huntouched hplan
  · intro h p hp
    obtain ⟨_, pending, hdeclare⟩ := declare_of_planned hg hplan hp
    have hall := Builder.allKeysApart_of_graph (b := { graph := g, pending }) hg rfl huntouched h
    exact Builder.unrepeated_declare (Registry.silent_of_empty rfl) hall p.node hdeclare

end Plans

/-- Types that are named hold no lists of their own. -/
theorem Document.unrepeated_of_named {d : Document} (hunions : d.unions = [])
    (hmodels : ∀ m ∈ d.models, (m.properties.map (·.name)).Nodup ∧
      (∀ p ∈ m.properties, ∃ name, p.type = .named name) ∧
      (∀ t ∈ m.base, ∃ name, t = .named name) ∧ ∀ t ∈ m.source, ∃ name, t = .named name) :
    d.Unrepeated := by
  intro ps hps
  cases hps with
  | model hm hps =>
    rw [← hps]
    exact (hmodels _ hm).1
  | base hm ht hps =>
    obtain ⟨name, rfl⟩ := (hmodels _ hm).2.2.1 _ ht
    exact absurd hps TypeRef.not_lists_named
  | source hm ht hps =>
    obtain ⟨name, rfl⟩ := (hmodels _ hm).2.2.2 _ ht
    exact absurd hps TypeRef.not_lists_named
  | property hm hp hps =>
    obtain ⟨name, hname⟩ := (hmodels _ hm).2.1 _ hp
    rw [hname] at hps
    exact absurd hps TypeRef.not_lists_named
  | variant hu =>
    rw [hunions] at hu
    cases hu

theorem unrepeated_threeModels : threeModels.Unrepeated := by
  apply Document.unrepeated_of_named rfl
  simp [threeModels]

set_option maxRecDepth 100000 in
theorem plan_unrepeated_iff_threeModels : ∃ g ds, threeModels.Unrepeated ∧
    Graph.link threeModels = .ok g ∧ plan g {} = .ok ds ∧ ∀ p ∈ ds, p.expr.Unrepeated := by
  have hrun : (Graph.link threeModels >>= fun g => (plan g {}).map fun _ =>
      decide ((∀ m ∈ g.declarations, (g.node m).kind = .model → (g.node m).isArray = false →
          ((g.objectProperties m).map g.nameOf).Nodup) ∧
        ∀ u ∈ g.declarations, (g.node u).kind ≠ .union)) = .ok true := by
    decide +kernel
  obtain ⟨g, hg, hrun⟩ := Result.bind_eq_ok.mp hrun
  obtain ⟨ds, hds, hrun⟩ := Result.map_eq_ok.mp hrun
  obtain ⟨hmodels, hunions⟩ := of_decide_eq_true hrun
  have hapart : g.KeysApart := ⟨hmodels, fun u hu hkind => absurd hkind (hunions u hu)⟩
  exact ⟨g, ds, unrepeated_threeModels, hg, hds,
    (plan_unrepeated_iff unrepeated_threeModels hg hds).mpr hapart⟩

/-- A model, and a copy of it with a property of the same name. -/
def redeclaredCopy : Document where
  models :=
    [{ name := "A", properties := [{ name := "x", type := .named "string" }] },
     { name := "B", source := some (.named "A")
       properties := [{ name := "x", type := .named "int32" }] }]

set_option maxRecDepth 100000 in
/-- The object of the copy has the copied property and its own. -/
theorem redeclaredCopy_repeats : ∃ g ds, redeclaredCopy.Unrepeated ∧
    Graph.link redeclaredCopy = .ok g ∧ plan g {} = .ok ds ∧
    ¬ ∀ p ∈ ds, p.expr.Unrepeated := by
  -- the models stand at 29 and 30, after the built-in types
  have hrun : (Graph.link redeclaredCopy >>= fun g => (plan g {}).map fun _ =>
      decide (30 ∈ g.declarations ∧ (g.node 30).kind = .model ∧ (g.node 30).isArray = false ∧
        ¬ ((g.objectProperties 30).map g.nameOf).Nodup)) = .ok true := by
    decide +kernel
  obtain ⟨g, hg, hrun⟩ := Result.bind_eq_ok.mp hrun
  obtain ⟨ds, hds, hrun⟩ := Result.map_eq_ok.mp hrun
  obtain ⟨hdecl, hkind, harray, hrepeats⟩ := of_decide_eq_true hrun
  have hd : redeclaredCopy.Unrepeated := by
    apply Document.unrepeated_of_named rfl
    simp [redeclaredCopy]
  refine ⟨g, ds, hd, hg, hds, ?_⟩
  intro h
  have hapart := keysApart_of_unrepeated (Graph.linked_of_link hg) (Graph.untouched_of_link hd hg)
    hds h
  exact hrepeats (hapart.models 30 hdecl hkind harray)

end SchemaLoom

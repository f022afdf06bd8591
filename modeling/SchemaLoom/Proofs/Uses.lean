import SchemaLoom.Proofs.Composition
import SchemaLoom.Proofs.Grouping
import SchemaLoom.Proofs.NumberLimits

/-!
# What an expression refers to

The expression of a node refers to declarations only, and only to those that the
references of the node lead to. References to pending declarations are deferred,
all others are direct. The one exception is the base a model is merged into,
which is direct in any case.
-/

namespace SchemaLoom

set_option autoImplicit false

open SchemaLoom.Expr

/-! ### Calls without references -/

namespace Range

theorem keepsAll_map_toList {P Q : NodeId → Prop} {f : Number → Expr} (hf : ∀ n, (f n).Keeps P Q)
    (n : Option Number) : KeepsAll P Q (n.toList.map f) := by
  intro e he
  obtain ⟨m, _, rfl⟩ := List.mem_map.mp he
  exact hf m

theorem calls_ok (r : Range) (big : Bool) :
    ∃ es, r.calls big = .ok es ∧ ∀ P Q, KeepsAll P Q es := by
  refine ⟨_, calls_eq r big, ?_⟩
  intro P Q
  have hsafe : KeepsAll P Q (if r.safe then [Expr.method "safe"] else []) := by
    split <;> simp
  have hmin : ∀ n, (minExpr big n).Keeps P Q := by
    intro n
    unfold minExpr
    split <;> simp [limitExpr]
  have hlimit : ∀ method n, (limitExpr method big n).Keeps P Q := by simp [limitExpr]
  simp only [keepsAll_append]
  exact ⟨⟨⟨⟨hsafe, keepsAll_map_toList hmin r.min⟩, keepsAll_map_toList (hlimit _) r.minExclusive⟩,
    keepsAll_map_toList (hlimit _) r.max⟩, keepsAll_map_toList (hlimit _) r.maxExclusive⟩

end Range

namespace Graph

theorem keepsAll_stringCalls {P Q : NodeId → Prop} (ds : List Decorators) :
    KeepsAll P Q (stringCalls ds) := by
  simp only [stringCalls, keepsAll_append]
  refine ⟨⟨⟨?_, ?_⟩, ?_⟩, ?_⟩
  · split
    · split <;> simp [integer]
    · simp
  · intro e he
    obtain ⟨n, _, rfl⟩ := Option.map_eq_some_iff.mp (Option.mem_toList.mp he)
    simp [integer]
  · split <;> simp
  · intro e he
    obtain ⟨m, _, rfl⟩ := Option.map_eq_some_iff.mp (Option.mem_toList.mp he)
    simp

theorem keepsAll_countCall {P Q : NodeId → Prop} (name : String) (n : Option Int) :
    KeepsAll P Q (countCall name n) := by
  unfold countCall
  split
  · split <;> simp [integer]
  · simp

theorem keepsAll_numberCalls {P Q : NodeId → Prop} {ds : List Decorators} {type : Range}
    {big : Bool} {es : List Expr} (h : numberCalls ds type big = .ok es) : KeepsAll P Q es := by
  obtain ⟨fs, hfs, hkeeps⟩ := (Range.reconcile type (Range.ofDecorators ds)).calls_ok big
  unfold numberCalls at h
  rw [hfs] at h
  cases h
  exact hkeeps P Q

theorem keepsAll_constraints {P Q : NodeId → Prop} {g : Graph} {t : NodeId}
    {member : Option Decorators} {inlined : Bool} {es : List Expr}
    (h : g.constraints t member inlined = .ok es) : KeepsAll P Q es := by
  cases narrowed_of_constraints h with
  | nothing => simp
  | carried _ _ _ _ _ _ h => exact keepsAll_numberCalls h
  | number _ _ _ _ _ h => exact keepsAll_numberCalls h
  | text _ _ _ => exact keepsAll_stringCalls _
  | items _ => simp [arrayCalls, keepsAll_countCall]

/-! ### Where references come from -/

section Edges
variable {g : Graph} {m : NodeId}

theorem mem_references_of_base (hg : g.Fit) {b : NodeId} (h : (g.node m).base = some b) :
    b ∈ g.references m := by
  have hm : m < g.nodes.size := by
    by_contra hge
    have hnode := node_of_size_le (Nat.le_of_not_lt hge)
    rw [hnode] at h
    cases h
  rcases ((hg.fits_of_lt hm).base b h).1 with hkind | hkind <;> simp [references, hkind, h]

theorem mem_references_of_property (hkind : (g.node m).kind = .model) {p t : NodeId}
    (hp : p ∈ (g.node m).properties) (ht : (g.node p).type = some t) : t ∈ g.references m := by
  simp only [references, hkind, List.mem_append, List.mem_filterMap]
  exact .inr ⟨p, hp, ht⟩

theorem mem_references_of_key (hkind : (g.node m).kind = .model) {ix : Indexer} {t : NodeId}
    (hix : (g.node m).indexer = some ix) (ht : ix.key = some t) : t ∈ g.references m := by
  simp [references, hkind, hix, ht]

theorem mem_references_of_value (hkind : (g.node m).kind = .model) {ix : Indexer} {t : NodeId}
    (hix : (g.node m).indexer = some ix) (ht : ix.value = some t) : t ∈ g.references m := by
  simp [references, hkind, hix, ht]

theorem mem_references_of_variant (hkind : (g.node m).kind = .union) {v t : NodeId}
    (hv : v ∈ (g.node m).variants) (ht : (g.node v).type = some t) : t ∈ g.references m := by
  simp only [references, hkind, List.mem_filterMap]
  exact ⟨v, hv, ht⟩

theorem mem_references_of_element (hkind : (g.node m).kind = .tuple) {t : NodeId}
    (ht : t ∈ (g.node m).elements) : t ∈ g.references m := by
  simpa [references, hkind] using ht

/-- A base chain follows references; it stays within one kind. -/
theorem reaches_of_mem_ancestors (hg : g.Fit) {fuel : Nat} {a : NodeId}
    (h : a ∈ g.ancestors fuel m) :
    Reaches g.references m a ∧ (g.node a).kind = (g.node m).kind := by
  induction fuel generalizing m with
  | zero => simp [ancestors] at h
  | succ fuel ih =>
    rw [ancestors] at h
    split at h
    · simp at h
    · rename_i node hnode
      rcases List.mem_cons.mp h with rfl | h
      · exact ⟨.refl a, rfl⟩
      · split at h
        · simp at h
        · rename_i b hb
          rw [← node_of_node? hnode] at hb
          obtain ⟨hreach, hkind⟩ := ih h
          have hbase := ((hg.fits_of_lt (lt_of_node? hnode)).base b hb).2
          exact ⟨(Reaches.edge (mem_references_of_base hg hb)).trans hreach, hkind.trans hbase⟩

end Edges

end Graph

namespace Builder

variable {b : Builder}

/-! ### Direct and deferred references -/

/-- What the expression of `m` may refer to at once. -/
def Now (b : Builder) (m n : NodeId) : Prop :=
  n ∈ b.graph.declarations ∧
    (Leads b.graph.references m n ∧ n ∉ b.pending ∨ (b.graph.node m).base = some n)

/-- What the expression of `m` may refer to later. -/
def Later (b : Builder) (m n : NodeId) : Prop :=
  n ∈ b.graph.declarations ∧ Leads b.graph.references m n ∧ n ∈ b.pending

/-- A value of `m` holds values of `t`. -/
structure Holds (b : Builder) (m t : NodeId) : Prop where
  leads : Leads b.graph.references m t
  kind : (b.graph.node t).kind ≠ .modelProperty

/-- Base schemas refer to what they may. The tag of an envelope is no node of the graph. -/
structure Writes (b : Builder) (base : BaseOf) : Prop where
  node : ∀ n < b.graph.nodes.size, (b.graph.node n).kind ≠ .modelProperty → ∀ es,
    base (b.graph.subject n) = .ok es → KeepsAll (b.Now n) (b.Later n) es
  tag : ∀ v es, base { node := { kind := .string, literal := v } } = .ok es →
    ∀ P Q, KeepsAll P Q es

section Writes
variable {base : BaseOf} {m : NodeId} {P Q : NodeId → Prop}

theorem keeps_refer {n : NodeId} (hn : n ∈ b.graph.declarations)
    (hmn : Leads b.graph.references m n) : (b.refer n).Keeps (b.Now m) (b.Later m) := by
  unfold refer
  split
  · rename_i hp
    exact keeps_lazy ⟨hn, hmn, by simpa using hp⟩
  · rename_i hp
    exact keeps_ref ⟨hn, .inl ⟨hmn, by simpa using hp⟩⟩

/-- What is written out refers to what the node around it may refer to. -/
theorem Writes.below (hg : b.graph.Fit) (hbase : b.Writes base) {t : NodeId}
    (ht : t < b.graph.nodes.size) (hnot : t ∉ b.graph.declarations)
    (hmt : b.Holds m t) {es : List Expr} (h : base (b.graph.subject t) = .ok es) :
    KeepsAll (b.Now m) (b.Later m) es := by
  intro e he
  refine (hbase.node t ht hmt.kind es h e he).mono ?_ ?_
  · rintro n ⟨hn, ⟨htn, hp⟩ | hb⟩
    · exact ⟨hn, .inl ⟨hmt.leads.trans_reaches htn.reaches, hp⟩⟩
    · exact absurd hn (((hg.fits_of_lt ht).plain hnot).2 n hb)
  · rintro n ⟨hn, htn, hp⟩
    exact ⟨hn, hmt.leads.trans_reaches htn.reaches, hp⟩

theorem keepsAll_memberParts {prop : Node} {type : Option Subject} {es : List Expr}
    (h : b.memberParts prop type = .ok es) : KeepsAll P Q es := by
  intro e he
  obtain rfl | ⟨big, v, x, _, hx, rfl⟩ := mem_memberParts h he
  · exact keeps_method _
  · simpa using keeps_ofValue hx

theorem keeps_parts {p : Parts} (hbase : KeepsAll P Q p.base)
    (hconstraints : KeepsAll P Q p.constraints) (hmember : KeepsAll P Q p.member)
    (hdescription : KeepsAll P Q p.description) : p.expr.Keeps P Q := by
  apply keeps_ofParts
  intro es hes
  simp only [List.mem_cons, List.not_mem_nil, or_false] at hes
  rcases hes with rfl | rfl | rfl | rfl <;> assumption

/-- A field of a type that is referred to or written out. -/
theorem keeps_field (hg : b.graph.Fit) (hr : b.registry = {}) (hbase : b.Writes base) {t : NodeId}
    (ht : t < b.graph.nodes.size) (hmt : b.Holds m t) {prop : Subject} {e : Expr}
    (h : b.field base prop (some (b.graph.subject t)) = .ok e) :
    e.Keeps (b.Now m) (b.Later m) := by
  obtain ⟨cs, member, hmember, ⟨hdecl, hcs, rfl⟩ | ⟨hdecl, hcs, bs, hbs, rfl⟩⟩ :=
    field_cases hg hr ht h
  · exact keeps_parts (by simpa using keeps_refer hdecl hmt.leads) (Graph.keepsAll_constraints hcs)
      (keepsAll_memberParts hmember) (keepsAll_describe _)
  · exact keeps_parts (hbase.below hg ht hdecl hmt hbs) (Graph.keepsAll_constraints hcs)
      (keepsAll_memberParts hmember) (keepsAll_describe _)

/-- A node used where `m` is being written. -/
theorem keeps_nested (hg : b.graph.Fit) (hr : b.registry = {}) (hbase : b.Writes base)
    {o : Option NodeId} (hmo : ∀ t, o = some t → b.Holds m t) {e : Expr}
    (h : b.nested base (b.subject? o) = .ok e) : e.Keeps (b.Now m) (b.Later m) := by
  obtain ⟨t, rfl, ht, ⟨hdecl, rfl⟩ | ⟨hdecl, bs, cs, hbs, hcs, rfl⟩⟩ :=
    nested_cases hg hr (fun t ht _ => (hmo t ht).kind) h
  · exact keeps_refer hdecl (hmo t rfl).leads
  · exact keeps_parts (hbase.below hg ht hdecl (hmo t rfl) hbs) (Graph.keepsAll_constraints hcs)
      keepsAll_nil (keepsAll_describe _)

theorem keeps_objectOf (hg : b.graph.Fit) (hr : b.registry = {}) (hbase : b.Writes base)
    {ps : List NodeId}
    (hps : ∀ p ∈ ps, ∀ t, (b.graph.node p).type = some t → b.Holds m t)
    {e : Expr} (h : b.objectOf base ps = .ok e) : e.Keeps (b.Now m) (b.Later m) := by
  obtain ⟨fields, rfl, hfields, _⟩ := fields_of_objectOf h
  rw [keeps_object]
  intro x hx
  obtain ⟨p, hp, hfield⟩ := hfields x hx
  obtain ⟨t, ht, hlt, hfield⟩ := fieldOf_eq_ok (Registry.silent_of_empty hr) hfield
  exact keeps_field hg hr hbase hlt (hps p hp t ht) hfield

/-- What is written out with a model is on its base chain. -/
theorem mem_flattened (hm : m < b.graph.nodes.size) {x : Node}
    (hx : x ∈ b.flattened (b.graph.subject m)) :
    ∃ i < b.graph.nodes.size, x = b.graph.node i ∧
      i ∈ b.graph.ancestors (b.graph.nodes.size + 1) m := by
  rw [Graph.ancestors, Graph.node?_of_lt hm]
  rcases List.mem_cons.mp hx with rfl | hx
  · exact ⟨m, hm, rfl, List.mem_cons_self⟩
  · split at hx
    · simp at hx
    · rename_i a ha
      obtain ⟨s, hs, rfl⟩ := List.mem_map.mp hx
      obtain ⟨i, hi, hs⟩ := List.mem_filterMap.mp (List.takeWhile_subset _ hs)
      obtain ⟨hlt, rfl⟩ := Graph.subject?_eq_some hs
      refine ⟨i, hlt, rfl, List.mem_cons_of_mem _ ?_⟩
      rw [show (b.graph.node m).base = some a from ha]
      exact hi

/-- The types of the properties of a model and of its map are held by its values. -/
theorem holds_of_shape (hg : b.graph.Fit) (hm : m < b.graph.nodes.size)
    (hkind : (b.graph.node m).kind = .model) :
    (∀ p ∈ b.shapeProperties (b.graph.subject m), ∀ t,
      (b.graph.node p).type = some t → b.Holds m t) ∧
    ∀ ix, b.shapeIndexer? (b.graph.subject m) = some ix →
      ∀ t, ix.key = some t ∨ ix.value = some t → b.Holds m t := by
  constructor
  · intro p hp t ht
    obtain ⟨x, hx, hp⟩ := List.mem_flatMap.mp hp
    obtain ⟨i, _, rfl, hi⟩ := mem_flattened hm (List.mem_reverse.mp hx)
    obtain ⟨hreach, hkindi⟩ := Graph.reaches_of_mem_ancestors hg hi
    rw [hkind] at hkindi
    refine ⟨Relation.TransGen.tail' hreach (Graph.mem_references_of_property hkindi hp ht), ?_⟩
    exact hg.kind_slot (Node.mem_slots_of_type ht)
  · intro ix hix t ht
    obtain ⟨x, hx, hix⟩ := List.exists_of_findSome?_eq_some hix
    obtain ⟨i, _, rfl, hi⟩ := mem_flattened hm hx
    obtain ⟨hreach, hkindi⟩ := Graph.reaches_of_mem_ancestors hg hi
    rw [hkind] at hkindi
    have hix : (b.graph.node i).indexer = some ix := by
      split at hix
      · exact hix
      · cases hix
    rcases ht with ht | ht
    · exact ⟨Relation.TransGen.tail' hreach (Graph.mem_references_of_key hkindi hix ht),
        hg.kind_slot (Node.mem_slots_of_key hix ht)⟩
    · exact ⟨Relation.TransGen.tail' hreach (Graph.mem_references_of_value hkindi hix ht),
        hg.kind_slot (Node.mem_slots_of_value hix ht)⟩

theorem keepsAll_shape (hg : b.graph.Fit) (hr : b.registry = {}) (hbase : b.Writes base)
    (hm : m < b.graph.nodes.size) (hkind : (b.graph.node m).kind = .model) {es : List Expr}
    (h : b.shape base (b.graph.subject m) = .ok es) : KeepsAll (b.Now m) (b.Later m) es := by
  obtain ⟨hfields, hmap⟩ := holds_of_shape hg hm hkind
  have hobject : ∀ obj, b.objectOf base (b.shapeProperties (b.graph.subject m)) = .ok obj →
      obj.Keeps (b.Now m) (b.Later m) := fun obj => keeps_objectOf hg hr hbase hfields
  have hrecord : ∀ ix key value, b.shapeIndexer? (b.graph.subject m) = some ix →
      b.nested base (b.subject? ix.key) = .ok key →
      b.nested base (b.subject? ix.value) = .ok value →
      KeepsAll (b.Now m) (b.Later m) [key, value] := by
    intro ix key value hix hkey hvalue
    have hkey := keeps_nested hg hr hbase (fun t ht => hmap ix hix t (.inl ht)) hkey
    have hvalue := keeps_nested hg hr hbase (fun t ht => hmap ix hix t (.inr ht)) hvalue
    simp [hkey, hvalue]
  cases shaped_of_shape h with
  | object _ hobj => simpa using hobject _ hobj
  | record hix _ hkey hvalue => simpa using hrecord _ _ _ hix hkey hvalue
  | @both ix key value obj hix _ hkey hvalue hobj =>
    have hleft : (Expr.ofParts [Expr.fromZ [.call "object" [obj]]]).Keeps (b.Now m) (b.Later m) :=
      keeps_ofParts (by simpa using hobject obj hobj)
    have hright : (Expr.ofParts [Expr.fromZ [.call "record" [key, value]]]).Keeps (b.Now m)
        (b.Later m) := keeps_ofParts (by simpa using hrecord ix key value hix hkey hvalue)
    simp [hleft, hright]

/-- The tag of an envelope refers to nothing. -/
theorem keeps_tag (hr : b.registry = {}) (hbase : b.Writes base) {prop : Subject}
    {v : Option Value} {e : Expr}
    (h : b.field base prop (some { node := { kind := .string, literal := v } }) = .ok e) :
    e.Keeps P Q := by
  obtain ⟨bs, member, ns, hbs, hmember, rfl⟩ := tag_eq_ok (Registry.silent_of_empty hr) h
  exact keeps_parts (hbase.tag v bs hbs P Q) keepsAll_nil (keepsAll_memberParts hmember)
    (keepsAll_describe _)

theorem keeps_variant (hg : b.graph.Fit) (hr : b.registry = {}) (hbase : b.Writes base)
    {d : Option Discriminator} {v : NodeId}
    (hv : ∀ t, (b.graph.node v).type = some t → b.Holds m t) {e : Expr}
    (h : b.variant base d v = .ok e) : e.Keeps (b.Now m) (b.Later m) := by
  obtain ⟨_, h⟩ | ⟨d, _, _, h⟩ := variant_eq_ok h
  · exact keeps_nested hg hr hbase hv h
  · obtain ⟨tag, payload, t, ht, hlt, htag, hpayload, rfl⟩ :=
      envelope_eq_ok (Registry.silent_of_empty hr) h
    have htag : tag.Keeps (b.Now m) (b.Later m) := keeps_tag hr hbase htag
    have hpayload := keeps_field hg hr hbase hlt (hv t ht) hpayload
    apply keeps_ofParts
    simp [htag, hpayload]

/-! ### Base schemas -/

theorem keepsAll_baseStep (hg : b.graph.Fit) (hr : b.registry = {}) (hbase : b.Writes base)
    {n : NodeId} (hn : n < b.graph.nodes.size) (hnot : (b.graph.node n).kind ≠ .modelProperty)
    {es : List Expr}
    (h : b.baseStep base (b.graph.subject n) = .ok es) : KeepsAll (b.Now n) (b.Later n) es := by
  have hvariants : ∀ d elems, (b.graph.node n).kind = .union →
      (b.graph.node n).variants.mapM (b.variant base d) = .ok elems →
      KeepsAll (b.Now n) (b.Later n) elems := by
    intro d elems hkind helems e he
    obtain ⟨v, hv, he⟩ := Result.exists_of_mem_mapM helems he
    refine keeps_variant hg hr hbase (fun t ht => ?_) he
    exact ⟨.of_edge (Graph.mem_references_of_variant hkind hv ht) (.refl t),
      hg.kind_slot (Node.mem_slots_of_type ht)⟩
  cases composed_of_baseStep h with
  | stock _ hstock => exact hstock.forall keeps_ident keeps_method
  | literal _ hlit => simpa using keeps_ofLiteral hlit
  | member _ => simp
  | @enum elems _ helems =>
    have helems : KeepsAll (b.Now n) (b.Later n) elems := by
      intro e he
      obtain ⟨x, _, he⟩ := Result.exists_of_mem_mapM helems he
      rw [enumMember_eq_ok (Registry.silent_of_empty hr) he]
      exact keeps_ofMember _ _
    simpa using helems
  | @tuple elems hkind helems =>
    have helems : KeepsAll (b.Now n) (b.Later n) elems := by
      intro e he
      obtain ⟨t, ht, he⟩ := Result.exists_of_mem_mapM helems he
      refine keeps_nested hg hr hbase (o := some t) ?_ he
      rintro _ ⟨⟩
      exact ⟨.of_edge (Graph.mem_references_of_element hkind ht) (.refl t),
        hg.kind_slot (Node.mem_slots_of_element ht)⟩
    simpa using helems
  | untagged hkind _ helems => simpa using hvariants _ _ hkind helems
  | tagged hkind _ helems => simpa using hvariants _ _ hkind helems
  | array harray helem =>
    have hkind : (b.graph.node n).kind = .model := Node.kind_of_isArray harray
    have hholds : ∀ t, (b.graph.node n).indexer.bind (·.value) = some t → b.Holds n t := by
      intro t ht
      obtain ⟨ix, hix, ht⟩ := Option.bind_eq_some_iff.mp ht
      exact ⟨.of_edge (Graph.mem_references_of_value hkind hix ht) (.refl t),
        hg.kind_slot (Node.mem_slots_of_value hix ht)⟩
    simpa using keeps_nested hg hr hbase hholds helem
  | shape hkind _ _ hshape => exact keepsAll_shape hg hr hbase hn hkind hshape
  | @merged a es hkind _ ha hshape =>
    obtain ⟨s, hs, ha⟩ := Option.bind_eq_some_iff.mp ha
    obtain ⟨t, ht, hlt, rfl⟩ := subject?_eq_some hs
    obtain ⟨hrefers, rfl⟩ := target?_eq_some.mp ha
    have hleft : (Expr.ref t).Keeps (b.Now n) (b.Later n) :=
      keeps_ref ⟨(refersTo_iff hg hr hlt).mp hrefers, .inr ht⟩
    have hright : (Expr.ofParts [es]).Keeps (b.Now n) (b.Later n) :=
      keeps_ofParts (by simpa using keepsAll_shape hg hr hbase hn hkind hshape)
    simp [hleft, hright]
  | property hkind _ _ => exact absurd hkind hnot

end Writes

/-- Base schemas refer to what they may, however deep they are built. -/
theorem writes_baseSchema (hg : b.graph.Fit) (hr : b.registry = {}) (fuel : Nat)
    (expanding : List NodeId) : b.Writes (b.baseSchema fuel expanding) := by
  apply baseSchema_induction
  intro base' hbase'
  constructor
  · intro n hn hkind es h
    obtain ⟨base, hbase, hstep⟩ := hbase' _ es h
    exact keepsAll_baseStep hg hr hbase hn hkind hstep
  · intro v es h P Q
    obtain ⟨base, _, hstep⟩ := hbase' _ es h
    obtain ⟨x, hx, rfl⟩ := literal_of_tag hstep
    simpa using keeps_ofLiteral hx

theorem keeps_declare (hg : b.graph.Fit) (hr : b.registry = {}) {n : NodeId}
    (hn : n ∈ b.graph.declarations) {e : Expr} (h : b.declare (b.graph.subject n) = .ok e) :
    e.Keeps (b.Now n) (b.Later n) := by
  rw [declare_eq hr] at h
  have hkind := hg.kind_declared hn
  obtain ⟨bs, cs, hbs, hcs, rfl⟩ := inline_eq_ok hkind h
  exact keeps_parts ((writes_baseSchema hg hr _ _).node n (hg.kept n hn) hkind bs hbs)
    (Graph.keepsAll_constraints hcs) keepsAll_nil (keepsAll_describe _)

end Builder

end SchemaLoom

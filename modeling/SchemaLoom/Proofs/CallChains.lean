import SchemaLoom.Proofs.Calls
import SchemaLoom.Proofs.Inheritance

/-!
# Chains of calls

Every chain inside a declaration has one of three forms. It starts at the schema library;
or it is the declaration of a model, starting at the base the model is merged into; or it
is a field of a declared type, starting at the reference to that type and going on with
what the field adds. References stand nowhere else in a chain than at its start.
-/

namespace SchemaLoom

set_option autoImplicit false

open SchemaLoom.Expr

namespace Builder
variable {b : Builder}

/-- The declaration of `n` is merged into that of its base `a`; `arg` is what it adds. -/
structure Merges (b : Builder) (n a : NodeId) (arg : Expr) : Prop where
  kind : (b.graph.node n).kind = .model
  array : (b.graph.node n).isArray = false
  base : (b.graph.node n).base = some a
  declared : a ∈ b.graph.declarations
  shape : ∃ base es, b.shape base (b.graph.subject n) = .ok es ∧ arg = .ofParts [es]

/-- How the base schema of a node starts. -/
inductive Begins (b : Builder) (n : NodeId) : List Expr → Prop
  | library {es : List Expr} : (∀ e ∈ es, e.isStep = true) → Begins b n (z :: es)
  | merged {a : NodeId} {arg : Expr} : b.Merges n a arg → Begins b n [.ref a, .call "merge" [arg]]

/-- The chains inside the declaration of a node. -/
inductive Form (b : Builder) (m : NodeId) : List Expr → Prop
  | library {es : List Expr} : (∀ e ∈ es, e.isStep = true) → Form b m (z :: es)
  | merged {a : NodeId} {arg : Expr} {es : List Expr} : b.Merges m a arg →
      (∀ e ∈ es, ∃ t, e = .call "describe" [.raw t]) → Form b m (.ref a :: .call "merge" [arg] :: es)
  | field {n f t : NodeId} {cs member : List Expr} : b.Part m n → f ∈ b.fields n →
      (b.graph.node f).type = some t → t ∈ b.graph.declarations →
      b.graph.constraints t (some (b.graph.node f).decorators) false = .ok cs →
      b.memberParts (b.graph.node f) (some (b.graph.subject t)) = .ok member →
      Form b m (b.refer t :: (cs ++ member ++ describe [b.graph.node f]))

/-- Behind the start of a chain stand steps only. -/
theorem Form.steps {m : NodeId} {ps : List Expr} (h : b.Form m ps) :
    ∃ start es, ps = start :: es ∧ ∀ e ∈ es, e.isStep = true := by
  cases h with
  | library hes => exact ⟨_, _, rfl, hes⟩
  | merged _ hes =>
    refine ⟨_, _, rfl, ?_⟩
    intro e he
    rcases List.mem_cons.mp he with rfl | he
    · rfl
    · obtain ⟨t, rfl⟩ := hes e he
      rfl
  | field _ _ _ _ hcs hmember =>
    refine ⟨_, _, rfl, ?_⟩
    intro e he
    exact isStep_of_isCall (trails_of_mem_field hcs hmember he).isCall

/-- A part that is no step, such as a reference, is the start. -/
theorem Form.start_of_not_isStep {m : NodeId} {before after : List Expr} {e : Expr}
    (h : b.Form m (before ++ e :: after)) (he : e.isStep = false) : before = [] := by
  obtain ⟨start, es, heq, hes⟩ := h.steps
  cases before with
  | nil => rfl
  | cons x xs =>
    have hmem : e ∈ es := by
      rw [← (List.cons.inj heq).2]
      simp
    rw [hes e hmem] at he
    cases he

/-- The base schemas of nodes start as they may and hold chains of these forms only. -/
structure Forms (b : Builder) (base : BaseOf) : Prop where
  node : ∀ n < b.graph.nodes.size, (b.graph.node n).kind ≠ .modelProperty → ∀ es,
    base (b.graph.subject n) = .ok es → b.Begins n es ∧ ChainsAll (b.Form n) es
  tag : ∀ v es, base { node := { kind := .string, literal := v } } = .ok es →
    ∃ x, es = Expr.fromZ [.call "literal" [x]] ∧ ∀ C, x.Chains C

section Forms
variable {base : BaseOf} {m : NodeId}

/-- What is written out inside a node is written out as a part of it. -/
theorem Form.below (hg : b.graph.Fit) {t : NodeId} (ht : t ∈ b.inside m)
    (hlt : t < b.graph.nodes.size) (hnot : t ∉ b.graph.declarations) {ps : List Expr}
    (h : b.Form t ps) : b.Form m ps := by
  cases h with
  | library hes => exact .library hes
  | merged hmerges _ =>
    exact absurd hmerges.declared (((hg.fits_of_lt hlt).plain hnot).2 _ hmerges.base)
  | field hpart hf htype hdecl hcs hmember =>
    exact .field (.step ht hnot hpart) hf htype hdecl hcs hmember

theorem Forms.below (hg : b.graph.Fit) (hbase : b.Forms base) (hm : m < b.graph.nodes.size)
    {t : NodeId} (ht : t ∈ b.inside m) (hnot : t ∉ b.graph.declarations) {es : List Expr}
    (h : base (b.graph.subject t) = .ok es) :
    ∃ fs, es = z :: fs ∧ (∀ e ∈ fs, e.isStep = true) ∧ ChainsAll (b.Form m) es := by
  obtain ⟨hlt, hkind, _⟩ := inside_below hg hm ht hnot
  obtain ⟨hbegins, hchains⟩ := hbase.node t hlt hkind es h
  have hchains : ChainsAll (b.Form m) es := fun e he =>
    (hchains e he).mono fun ps hps => hps.below hg ht hlt hnot
  cases hbegins with
  | library hfs => exact ⟨_, rfl, hfs, hchains⟩
  | merged hmerges =>
    exact absurd hmerges.declared (((hg.fits_of_lt hlt).plain hnot).2 _ hmerges.base)

theorem chains_library {groups : List (List Expr)} (es : List Expr)
    (hgroups : groups.flatten = z :: es) (hes : ∀ e ∈ es, e.isStep = true)
    (hchains : ChainsAll (b.Form m) es) : (Expr.ofParts groups).Chains (b.Form m) :=
  chains_ofParts_start z es rfl rfl hgroups hes (by simpa [z] using hchains) fun _ => .library hes

theorem chains_library_parts {p : Parts} {es : List Expr} (hp : p.base = z :: es)
    (hes : ∀ e ∈ es, e.isStep = true) (hchains : ChainsAll (b.Form m) p.base)
    (hconstraints : ∀ e ∈ p.constraints, e.Trails) (hmember : ∀ e ∈ p.member, e.Trails)
    (hdescription : ∀ e ∈ p.description, e.Trails) : p.expr.Chains (b.Form m) := by
  have hrest : ∀ e ∈ p.constraints ++ p.member ++ p.description, e.Trails := by
    intro e he
    simp only [List.mem_append] at he
    rcases he with (he | he) | he
    · exact hconstraints e he
    · exact hmember e he
    · exact hdescription e he
  rw [hp] at hchains
  refine chains_library (es ++ (p.constraints ++ p.member ++ p.description)) ?_ ?_ ?_
  · simp [hp]
  · intro e he
    rcases List.mem_append.mp he with he | he
    · exact hes e he
    · exact isStep_of_isCall (hrest e he).isCall
  · intro e he
    rcases List.mem_append.mp he with he | he
    · exact hchains e (List.mem_cons_of_mem z he)
    · exact (hrest e he).chains _

theorem chains_field (hg : b.graph.Fit) (hr : b.registry = {}) (hbase : b.Forms base)
    (hm : m < b.graph.nodes.size) {t : NodeId} (ht : t ∈ b.inside m)
    (hlt : t < b.graph.nodes.size) {prop : Subject}
    (hform : t ∈ b.graph.declarations → ∀ cs member,
      b.graph.constraints t (some prop.node.decorators) false = .ok cs →
      b.memberParts prop.node (some (b.graph.subject t)) = .ok member →
      cs ++ member ++ describe [prop.node] ≠ [] →
      b.Form m (b.refer t :: (cs ++ member ++ describe [prop.node])))
    {e : Expr} (h : b.field base prop (some (b.graph.subject t)) = .ok e) :
    e.Chains (b.Form m) := by
  obtain ⟨cs, member, hmember, ⟨hdecl, hcs, rfl⟩ | ⟨hdecl, hcs, bs, hbs, rfl⟩⟩ :=
    field_cases hg hr hlt h
  · have hrest : ∀ e ∈ cs ++ member ++ describe [prop.node], e.Trails :=
      fun e he => trails_of_mem_field hcs hmember he
    have hrefer : (b.refer t).parts = [b.refer t] ∧ (b.refer t).isCall = false ∧
        (b.refer t).Chains (b.Form m) := by
      unfold refer
      split <;> simp [parts, isCall]
    refine chains_ofParts_start (b.refer t) (cs ++ member ++ describe [prop.node]) hrefer.1
      hrefer.2.1 (by simp) (fun e he => isStep_of_isCall (hrest e he).isCall) ?_
      (hform hdecl cs member hcs hmember)
    exact chainsAll_cons.mpr ⟨hrefer.2.2, fun e he => (hrest e he).chains _⟩
  · obtain ⟨fs, rfl, hfs, hchains⟩ := hbase.below hg hm ht hdecl hbs
    exact chains_library_parts rfl hfs hchains
      (fun e he => (Graph.narrows_of_mem_constraints hcs he).trails)
      (fun e he => trails_of_mem_memberParts hmember he) (fun e he => trails_of_mem_describe he)

theorem chains_nested (hg : b.graph.Fit) (hr : b.registry = {}) (hbase : b.Forms base)
    (hm : m < b.graph.nodes.size) {o : Option NodeId} (hmo : ∀ t, o = some t → t ∈ b.inside m)
    {e : Expr} (h : b.nested base (b.subject? o) = .ok e) : e.Chains (b.Form m) := by
  obtain ⟨t, rfl, _, ⟨_, rfl⟩ | ⟨hdecl, bs, cs, hbs, hcs, rfl⟩⟩ :=
    nested_cases hg hr (fun t ht hdecl => (inside_below hg hm (hmo t ht) hdecl).2.1) h
  · unfold refer
    split <;> simp
  · obtain ⟨fs, rfl, hfs, hchains⟩ := hbase.below hg hm (hmo t rfl) hdecl hbs
    exact chains_library_parts rfl hfs hchains
      (fun e he => (Graph.narrows_of_mem_constraints hcs he).trails) (by simp)
      (fun e he => trails_of_mem_describe he)

theorem chains_objectOf (hg : b.graph.Fit) (hr : b.registry = {}) (hbase : b.Forms base)
    (hm : m < b.graph.nodes.size) (hkind : (b.graph.node m).kind = .model)
    (harray : (b.graph.node m).isArray = false) {e : Expr}
    (h : b.objectOf base (b.fields m) = .ok e) : e.Chains (b.Form m) := by
  obtain ⟨fields, rfl, hfields, _⟩ := fields_of_objectOf h
  rw [chains_object]
  intro x hx
  obtain ⟨f, hf, hfield⟩ := hfields x hx
  obtain ⟨t, htype, hlt, hfield⟩ := fieldOf_eq_ok (Registry.silent_of_empty hr) hfield
  have ht : t ∈ b.inside m :=
    (mem_inside_of_shape hkind harray).mpr (.inr (.inr ⟨f, hf, htype⟩))
  refine chains_field hg hr hbase hm ht hlt ?_ hfield
  intro hdecl cs member hcs hmember _
  exact .field (.self m) hf htype hdecl hcs hmember

theorem chains_library_call (name : Text) {args : List Expr} (hargs : ChainsAll (b.Form m) args) :
    (Expr.ofParts [Expr.fromZ [.call name args]]).Chains (b.Form m) :=
  chains_library [.call name args] (by simp [fromZ]) (by simp [isStep]) (by simpa using hargs)

theorem chainsAll_shape (hg : b.graph.Fit) (hr : b.registry = {}) (hbase : b.Forms base)
    (hm : m < b.graph.nodes.size) (hkind : (b.graph.node m).kind = .model)
    (harray : (b.graph.node m).isArray = false) {es : List Expr}
    (h : b.shape base (b.graph.subject m) = .ok es) :
    ∃ name args, es = Expr.fromZ [.call name args] ∧ ChainsAll (b.Form m) args := by
  have hobject : ∀ obj, b.objectOf base (b.shapeProperties (b.graph.subject m)) = .ok obj →
      ChainsAll (b.Form m) [obj] := by
    intro obj hobj
    rw [← fields_of_shape hkind harray] at hobj
    simpa using chains_objectOf hg hr hbase hm hkind harray hobj
  have hrecord : ∀ ix key value, b.shapeIndexer? (b.graph.subject m) = some ix →
      b.nested base (b.subject? ix.key) = .ok key →
      b.nested base (b.subject? ix.value) = .ok value → ChainsAll (b.Form m) [key, value] := by
    intro ix key value hix hkey hvalue
    have hinside := @mem_inside_of_shape b m
    have hkey := chains_nested hg hr hbase hm
      (fun t ht => (hinside hkind harray).mpr (.inl (by rw [hix]; exact ht))) hkey
    have hvalue := chains_nested hg hr hbase hm
      (fun t ht => (hinside hkind harray).mpr (.inr (.inl (by rw [hix]; exact ht)))) hvalue
    simp [hkey, hvalue]
  cases shaped_of_shape h with
  | object _ hobj => exact ⟨_, _, rfl, hobject _ hobj⟩
  | record hix _ hkey hvalue => exact ⟨_, _, rfl, hrecord _ _ _ hix hkey hvalue⟩
  | both hix _ hkey hvalue hobj =>
    refine ⟨_, _, rfl, ?_⟩
    have hleft := chains_library_call "object" (hobject _ hobj)
    have hright := chains_library_call "record" (hrecord _ _ _ hix hkey hvalue)
    exact chainsAll_cons.mpr ⟨hleft, chainsAll_cons.mpr ⟨hright, chainsAll_nil⟩⟩

theorem begins_call {name : Text} {args : List Expr} (hargs : ChainsAll (b.Form m) args) :
    b.Begins m (Expr.fromZ [.call name args]) ∧
      ChainsAll (b.Form m) (Expr.fromZ [.call name args]) := by
  refine ⟨.library (by simp [isStep]), ?_⟩
  simpa [fromZ, z] using hargs

theorem chains_tag (hr : b.registry = {}) (hbase : b.Forms base) {prop : Subject}
    {v : Option Value} {e : Expr}
    (h : b.field base prop (some { node := { kind := .string, literal := v } }) = .ok e) :
    e.Chains (b.Form m) := by
  obtain ⟨bs, member, ns, hbs, hmember, rfl⟩ := tag_eq_ok (Registry.silent_of_empty hr) h
  obtain ⟨x, rfl, hx⟩ := hbase.tag v bs hbs
  refine chains_library_parts rfl (by simp [isStep]) ?_ (by simp)
    (fun e he => trails_of_mem_memberParts hmember he) (fun e he => trails_of_mem_describe he)
  simpa [fromZ, z] using hx _

theorem chains_variant (hg : b.graph.Fit) (hr : b.registry = {}) (hbase : b.Forms base)
    (hm : m < b.graph.nodes.size) {d : Option Discriminator} {v : NodeId}
    (hv : ∀ t, (b.graph.node v).type = some t → t ∈ b.inside m) {e : Expr}
    (h : b.variant base d v = .ok e) : e.Chains (b.Form m) := by
  obtain ⟨_, h⟩ | ⟨d, _, _, h⟩ := variant_eq_ok h
  · exact chains_nested hg hr hbase hm hv h
  · obtain ⟨tag, payload, t, ht, hlt, htag, hpayload, rfl⟩ :=
      envelope_eq_ok (Registry.silent_of_empty hr) h
    have htag : tag.Chains (b.Form m) := chains_tag hr hbase htag
    have hpayload : payload.Chains (b.Form m) := by
      refine chains_field hg hr hbase hm (hv t ht) hlt ?_ hpayload
      -- the payload of an envelope adds nothing to its type
      intro _ cs member hcs hmember hne
      rw [memberParts_none _ rfl] at hmember
      cases hmember
      rw [Graph.constraints_bare hcs] at hne
      exact absurd rfl hne
    apply chains_library_call
    simp [htag, hpayload]

/-- One step keeps the forms that the base schemas of the parts keep. -/
theorem begins_baseStep (hg : b.graph.Fit) (hr : b.registry = {}) (hbase : b.Forms base)
    (hm : m < b.graph.nodes.size) (hnot : (b.graph.node m).kind ≠ .modelProperty) {es : List Expr}
    (h : b.baseStep base (b.graph.subject m) = .ok es) :
    b.Begins m es ∧ ChainsAll (b.Form m) es := by
  have hvariants : ∀ d elems, (b.graph.node m).kind = .union →
      (b.graph.node m).variants.mapM (b.variant base d) = .ok elems →
      ChainsAll (b.Form m) elems := by
    intro d elems hkind helems e he
    obtain ⟨v, hv, he⟩ := Result.exists_of_mem_mapM helems he
    refine chains_variant hg hr hbase hm (fun t ht => ?_) he
    simp only [inside, hkind, List.mem_filterMap]
    exact ⟨v, hv, ht⟩
  cases composed_of_baseStep h with
  | stock _ hstock =>
    obtain ⟨rest, rfl, hrest⟩ := hstock.steps
    refine ⟨.library hrest, hstock.forall chains_ident fun name => ?_⟩
    simp [method]
  | literal _ hlit => exact begins_call (by simpa using chains_ofLiteral hlit)
  | member _ => exact begins_call (by simpa using chains_ofMember _ _)
  | @enum elems _ helems =>
    have helems : ChainsAll (b.Form m) elems := by
      intro e he
      obtain ⟨x, _, he⟩ := Result.exists_of_mem_mapM helems he
      rw [enumMember_eq_ok (Registry.silent_of_empty hr) he]
      exact chains_ofMember _ _
    exact begins_call (by simpa using helems)
  | @tuple elems hkind helems =>
    have helems : ChainsAll (b.Form m) elems := by
      intro e he
      obtain ⟨t, ht, he⟩ := Result.exists_of_mem_mapM helems he
      have ht : t ∈ b.inside m := by
        rw [inside, show (b.graph.node m).kind = .tuple from hkind]
        exact ht
      exact chains_nested hg hr hbase hm (o := some t) (by rintro _ ⟨⟩; exact ht) he
    exact begins_call (by simpa using helems)
  | untagged hkind _ helems => exact begins_call (by simpa using hvariants _ _ hkind helems)
  | tagged hkind _ helems => exact begins_call (by simpa using hvariants _ _ hkind helems)
  | array harray helem =>
    have hinside : ∀ t, (b.graph.node m).indexer.bind (·.value) = some t → t ∈ b.inside m := by
      intro t ht
      have harray : (b.graph.node m).isArray = true := harray
      simp [inside, Node.kind_of_isArray harray, harray, ht]
    exact begins_call (by simpa using chains_nested hg hr hbase hm hinside helem)
  | shape hkind harray _ hshape =>
    obtain ⟨name, args, rfl, hargs⟩ := chainsAll_shape hg hr hbase hm hkind harray hshape
    exact begins_call hargs
  | merged hkind harray ha hshape =>
    obtain ⟨name, args, rfl, hargs⟩ := chainsAll_shape hg hr hbase hm hkind harray hshape
    obtain ⟨hbaseOf, hrefers⟩ := (mergeBase?_eq_some hg hm).mp ha
    have hlt := (hg.fits_of_lt hm).lt _ (Node.mem_mentions_of_base hbaseOf)
    have hdecl := (refersTo_iff hg hr hlt).mp hrefers
    refine ⟨.merged ⟨hkind, harray, hbaseOf, hdecl, base, _, hshape, rfl⟩, ?_⟩
    simpa using chains_library_call name hargs
  | property hkind _ _ => exact absurd hkind hnot

end Forms

/-- Base schemas have these forms, however deep they are built. -/
theorem forms_baseSchema (hg : b.graph.Fit) (hr : b.registry = {}) (fuel : Nat)
    (expanding : List NodeId) : b.Forms (b.baseSchema fuel expanding) := by
  apply baseSchema_induction
  intro base' hbase'
  constructor
  · intro n hn hkind es h
    obtain ⟨base, hbase, hstep⟩ := hbase' _ es h
    exact begins_baseStep hg hr hbase hn hkind hstep
  · intro v es h
    obtain ⟨base, _, hstep⟩ := hbase' _ es h
    obtain ⟨x, hx, rfl⟩ := literal_of_tag hstep
    exact ⟨x, rfl, fun C => chains_ofLiteral hx⟩

/-- Every chain inside the declaration of a node has one of the forms. -/
theorem chains_declare (hg : b.graph.Fit) (hr : b.registry = {}) {m : NodeId}
    (hm : m ∈ b.graph.declarations) {e : Expr} (h : b.declare (b.graph.subject m) = .ok e) :
    e.Chains (b.Form m) := by
  have hkind := hg.kind_declared hm
  rw [declare_eq hr] at h
  obtain ⟨bs, cs, hbs, hcs, rfl⟩ := inline_eq_ok hkind h
  obtain ⟨hbegins, hchains⟩ := (forms_baseSchema hg hr _ _).node m (hg.kept m hm) hkind bs hbs
  cases hbegins with
  | library hes =>
    exact chains_library_parts rfl hes hchains
      (fun e he => (narrows_of_mem_constraints hcs he).trails) (by simp)
      (fun e he => trails_of_mem_describe he)
  | @merged a arg hmerges =>
    -- a model that is merged is no array, so nothing narrows it
    have hcs : b.graph.constraints m none true = .ok cs := hcs
    rw [Graph.constraints_of_shape hmerges.kind hmerges.array] at hcs
    cases hcs
    have hdescribe : ∀ e ∈ describe (b.describedBy (b.graph.subject m)), e.Trails :=
      fun e he => trails_of_mem_describe he
    refine chains_ofParts_start (.ref a)
      (.call "merge" [arg] :: describe (b.describedBy (b.graph.subject m)))
      rfl rfl (by simp) ?_ ?_ ?_
    · intro e he
      rcases List.mem_cons.mp he with rfl | he
      · rfl
      · exact isStep_of_isCall (hdescribe e he).isCall
    · intro e he
      simp only [List.mem_cons] at he
      rcases he with rfl | rfl | he
      · simp
      · exact hchains _ (by simp)
      · exact (hdescribe e he).chains _
    · exact fun _ => .merged hmerges fun e he => mem_describe he

end Builder

/-! ### Plans -/

section Plans
variable {g : Graph} {ds : List Planned}

theorem exists_planned (hg : g.Linked) (hplan : plan g {} = .ok ds) {n : NodeId}
    (hn : n ∈ g.declarations) : ∃ p ∈ ds, p.node = n := by
  have hmem := (plan_nodes hg hplan).mem_iff.mpr hn
  obtain ⟨p, hp, rfl⟩ := List.mem_map.mp hmem
  exact ⟨p, hp, rfl⟩

theorem declare_of_planned (hg : g.Linked) (hplan : plan g {} = .ok ds) {p : Planned}
    (hp : p ∈ ds) : p.node ∈ g.declarations ∧ ∃ pending,
      ({ graph := g, pending } : Builder).declare (g.subject p.node) = .ok p.expr :=
  ⟨(plan_nodes hg hplan).mem_iff.mp (List.mem_map_of_mem hp),
    (plans_of_plan hg hplan).declare p hp⟩

end Plans

end SchemaLoom

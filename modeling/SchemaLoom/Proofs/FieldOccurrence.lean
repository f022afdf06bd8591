import SchemaLoom.Proofs.CallChains

/-!
# Where fields are written

All that is written out inside a node stands in its expression: the field of every
property, of the node itself and of each part of it, down to the last. So what is said of
a field is said of the declaration that holds it.
-/

namespace SchemaLoom

set_option autoImplicit false

namespace Expr

theorem Occurs.trans {x y e : Expr} (h : x.Occurs y) (hy : y.Occurs e) : x.Occurs e := by
  induction hy with
  | here => exact h
  | call hmem _ ih => exact .call hmem ih
  | chain hmem _ ih => exact .chain hmem ih
  | object hmem _ ih => exact .object hmem ih
  | array hmem _ ih => exact .array hmem ih

/-- Joining parts loses none of them. -/
theorem occurs_ofParts {groups : List (List Expr)} {e : Expr} (he : e ∈ groups.flatten)
    (hparts : e.parts = [e]) : e.Occurs (ofParts groups) := by
  have hmem : e ∈ groups.flatten.flatMap parts := List.mem_flatMap.mpr ⟨e, he, by simp [hparts]⟩
  unfold ofParts
  split
  · rename_i f hf
    rw [hf, List.mem_singleton] at hmem
    subst hmem
    split
    · exact .chain List.mem_cons_self .here
    · exact .here
  · exact .chain hmem .here

theorem occurs_fromZ_call (name : Text) {args : List Expr} {e : Expr} (he : e ∈ args) :
    ∃ f ∈ fromZ [call name args], e.Occurs f :=
  ⟨call name args, by simp [fromZ], .call he .here⟩

theorem occurs_library (name : Text) {args : List Expr} {e : Expr} (he : e ∈ args) :
    e.Occurs (ofParts [fromZ [call name args]]) :=
  (Occurs.call he .here).trans (occurs_ofParts (e := call name args) (by simp [fromZ]) rfl)

end Expr

open SchemaLoom.Expr

namespace Builder
variable {b : Builder}

theorem Begins.parts {n : NodeId} {es : List Expr} (h : b.Begins n es) {e : Expr} (he : e ∈ es) :
    e.parts = [e] := by
  cases h with
  | library hes =>
    rcases List.mem_cons.mp he with rfl | he
    · rfl
    · exact parts_of_isStep (hes e he)
  | merged _ =>
    rcases List.mem_pair.mp he with rfl | rfl
    · rfl
    · rfl

/-- A type whose base schema stands in an expression. -/
def StandsIn (b : Builder) (base : BaseOf) (t : NodeId) (e : Expr) : Prop :=
  ∃ bs, base (b.graph.subject t) = .ok bs ∧ ∀ x ∈ bs, x.Occurs e

section Steps
variable {base : BaseOf} {m : NodeId}

theorem StandsIn.trans {t : NodeId} {e f : Expr} (h : b.StandsIn base t e) (hf : e.Occurs f) :
    b.StandsIn base t f := by
  obtain ⟨bs, hbs, hall⟩ := h
  exact ⟨bs, hbs, fun x hx => (hall x hx).trans hf⟩

theorem standsIn_nested (hg : b.graph.Fit) (hr : b.registry = {}) (hbase : b.Forms base)
    {t : NodeId} (hlt : t < b.graph.nodes.size) (hkind : (b.graph.node t).kind ≠ .modelProperty)
    (hnot : t ∉ b.graph.declarations) {e : Expr}
    (h : b.nested base (b.subject? (some t)) = .ok e) : b.StandsIn base t e := by
  have htype : ∀ u, some t = some u → u ∉ b.graph.declarations →
      (b.graph.node u).kind ≠ .modelProperty := by
    rintro _ ⟨⟩ _
    exact hkind
  obtain ⟨_, ⟨⟩, _, ⟨hdecl, _⟩ | ⟨_, bs, cs, hbs, _, rfl⟩⟩ := nested_cases hg hr htype h
  · exact absurd hdecl hnot
  · refine ⟨bs, hbs, fun x hx => occurs_ofParts (by simp [hx]) ?_⟩
    exact (hbase.node t hlt hkind bs hbs).1.parts hx

theorem standsIn_field (hg : b.graph.Fit) (hr : b.registry = {}) (hbase : b.Forms base)
    {t : NodeId} (hlt : t < b.graph.nodes.size) (hkind : (b.graph.node t).kind ≠ .modelProperty)
    (hnot : t ∉ b.graph.declarations) {prop : Subject} {e : Expr}
    (h : b.field base prop (some (b.graph.subject t)) = .ok e) : b.StandsIn base t e := by
  obtain ⟨cs, member, _, ⟨hdecl, _⟩ | ⟨_, _, bs, hbs, rfl⟩⟩ := field_cases hg hr hlt h
  · exact absurd hdecl hnot
  · refine ⟨bs, hbs, fun x hx => occurs_ofParts (by simp [hx]) ?_⟩
    exact (hbase.node t hlt hkind bs hbs).1.parts hx

theorem occurs_objectOf {ps : List NodeId} {obj : Expr} (h : b.objectOf base ps = .ok obj)
    {f : NodeId} (hf : f ∈ ps) : ∃ x, b.fieldOf base f = .ok x ∧ x.Occurs obj := by
  obtain ⟨fields, rfl, _, hfields⟩ := fields_of_objectOf h
  obtain ⟨x, hx, hfield⟩ := hfields f hf
  exact ⟨x.2, hfield, .object hx .here⟩

/-- What is written for a node stands in expressions: the field of each property, and each
type that is written out. -/
structure Shows (b : Builder) (base : BaseOf) (m : NodeId) (es : List Expr) : Prop where
  fields : ∀ f ∈ b.fields m, ∃ x, b.fieldOf base f = .ok x ∧ ∃ e ∈ es, x.Occurs e
  inside : ∀ t ∈ b.inside m, t ∉ b.graph.declarations → ∃ e ∈ es, b.StandsIn base t e

theorem Shows.trans {es fs : List Expr} (h : b.Shows base m es)
    (hes : ∀ e ∈ es, ∃ f ∈ fs, e.Occurs f) : b.Shows base m fs := by
  constructor
  · intro f hf
    obtain ⟨x, hx, e, he, hoccurs⟩ := h.fields f hf
    obtain ⟨y, hy, hey⟩ := hes e he
    exact ⟨x, hx, y, hy, hoccurs.trans hey⟩
  · intro t ht hnot
    obtain ⟨e, he, hstands⟩ := h.inside t ht hnot
    obtain ⟨y, hy, hey⟩ := hes e he
    exact ⟨y, hy, hstands.trans hey⟩

/-- A node with no fields of its own shows what its arguments are built from. -/
theorem Shows.of_args (hfields : b.fields m = []) {name : Text} {args : List Expr}
    (h : ∀ t ∈ b.inside m, t ∉ b.graph.declarations → ∃ e ∈ args, b.StandsIn base t e) :
    b.Shows base m (Expr.fromZ [.call name args]) := by
  constructor
  · simp [hfields]
  · intro t ht hnot
    obtain ⟨e, he, hstands⟩ := h t ht hnot
    obtain ⟨f, hf, hef⟩ := occurs_fromZ_call name he
    exact ⟨f, hf, hstands.trans hef⟩

theorem standsIn_record (hg : b.graph.Fit) (hr : b.registry = {}) (hbase : b.Forms base)
    (hm : m < b.graph.nodes.size) {ix : Indexer} {key value : Expr}
    (hkey : b.nested base (b.subject? ix.key) = .ok key)
    (hvalue : b.nested base (b.subject? ix.value) = .ok value) {t : NodeId}
    (ht : t ∈ b.inside m) (hnot : t ∉ b.graph.declarations)
    (hix : ix.key = some t ∨ ix.value = some t) : ∃ e ∈ [key, value], b.StandsIn base t e := by
  obtain ⟨hlt, hkind, _⟩ := inside_below hg hm ht hnot
  rcases hix with hix | hix
  · rw [hix] at hkey
    exact ⟨key, by simp, standsIn_nested hg hr hbase hlt hkind hnot hkey⟩
  · rw [hix] at hvalue
    exact ⟨value, by simp, standsIn_nested hg hr hbase hlt hkind hnot hvalue⟩

theorem standsIn_fieldOf (hg : b.graph.Fit) (hr : b.registry = {}) (hbase : b.Forms base)
    (hm : m < b.graph.nodes.size) {f t : NodeId} (hf : f < b.graph.nodes.size)
    (htype : (b.graph.node f).type = some t) (ht : t ∈ b.inside m)
    (hnot : t ∉ b.graph.declarations) {x : Expr} (hx : b.fieldOf base f = .ok x) :
    b.StandsIn base t x := by
  obtain ⟨hlt, hkind, _⟩ := inside_below hg hm ht hnot
  rw [fieldOf_of_type hf htype hlt] at hx
  exact standsIn_field hg hr hbase hlt hkind hnot hx

/-- The types of the fields stand in the fields, so only those of the map are left to show. -/
theorem Shows.of_fields (hg : b.graph.Fit) (hr : b.registry = {}) (hbase : b.Forms base)
    (hm : m < b.graph.nodes.size) (hkind : (b.graph.node m).kind = .model)
    (harray : (b.graph.node m).isArray = false) {es : List Expr}
    (hfields : ∀ f ∈ b.fields m, ∃ x, b.fieldOf base f = .ok x ∧ ∃ e ∈ es, x.Occurs e)
    (hmap : ∀ ix, b.shapeIndexer? (b.graph.subject m) = some ix → ∀ t ∈ b.inside m,
      t ∉ b.graph.declarations → ix.key = some t ∨ ix.value = some t →
      ∃ e ∈ es, b.StandsIn base t e) : b.Shows base m es := by
  refine ⟨hfields, ?_⟩
  intro t ht hnot
  rcases (mem_inside_of_shape hkind harray).mp ht with hkey | hvalue | ⟨f, hf, htype⟩
  · obtain ⟨ix, hix, hkey⟩ := Option.bind_eq_some_iff.mp hkey
    exact hmap ix hix t ht hnot (.inl hkey)
  · obtain ⟨ix, hix, hvalue⟩ := Option.bind_eq_some_iff.mp hvalue
    exact hmap ix hix t ht hnot (.inr hvalue)
  · obtain ⟨x, hx, e, he, hoccurs⟩ := hfields f hf
    rw [fields_of_shape hkind harray] at hf
    have hflt := (mem_shapeProperties hg hm hf).1
    exact ⟨e, he, (standsIn_fieldOf hg hr hbase hm hflt htype ht hnot hx).trans hoccurs⟩

theorem shows_shape (hg : b.graph.Fit) (hr : b.registry = {}) (hbase : b.Forms base)
    (hm : m < b.graph.nodes.size) (hkind : (b.graph.node m).kind = .model)
    (harray : (b.graph.node m).isArray = false) {es : List Expr}
    (h : b.shape base (b.graph.subject m) = .ok es) : b.Shows base m es := by
  have hproperties := fields_of_shape hkind harray
  have hfields : ∀ obj, b.objectOf base (b.shapeProperties (b.graph.subject m)) = .ok obj →
      ∀ f ∈ b.fields m, ∃ x, b.fieldOf base f = .ok x ∧ x.Occurs obj := by
    intro obj hobj f hf
    rw [hproperties] at hf
    exact occurs_objectOf hobj hf
  have hmap : ∀ {ix : Indexer} {key value : Expr},
      b.shapeIndexer? (b.graph.subject m) = some ix →
      b.nested base (b.subject? ix.key) = .ok key →
      b.nested base (b.subject? ix.value) = .ok value →
      ∀ ix', b.shapeIndexer? (b.graph.subject m) = some ix' → ∀ t ∈ b.inside m,
        t ∉ b.graph.declarations → ix'.key = some t ∨ ix'.value = some t →
        ∃ e ∈ [key, value], b.StandsIn base t e := by
    intro ix key value hix hkey hvalue ix' hix' t ht hnot hslot
    cases hix.symm.trans hix'
    exact standsIn_record hg hr hbase hm hkey hvalue ht hnot hslot
  cases shaped_of_shape h with
  | @object obj hix hobj =>
    have hshows : b.Shows base m [obj] := by
      apply Shows.of_fields hg hr hbase hm hkind harray
      · simpa using hfields obj hobj
      · simp [hix]
    exact hshows.trans fun e he => occurs_fromZ_call "object" he
  | @record ix key value hix hempty hkey hvalue =>
    have hshows : b.Shows base m [key, value] := by
      apply Shows.of_fields hg hr hbase hm hkind harray
      · simp [hproperties, hempty]
      · exact hmap hix hkey hvalue
    exact hshows.trans fun e he => occurs_fromZ_call "record" he
  | @both ix key value obj hix _ hkey hvalue hobj =>
    have hshows : b.Shows base m (obj :: [key, value]) := by
      apply Shows.of_fields hg hr hbase hm hkind harray
      · intro f hf
        obtain ⟨x, hx, hoccurs⟩ := hfields obj hobj f hf
        exact ⟨x, hx, obj, List.mem_cons_self, hoccurs⟩
      · intro ix' hix' t ht hnot hslot
        obtain ⟨e, he, hstands⟩ := hmap hix hkey hvalue ix' hix' t ht hnot hslot
        exact ⟨e, List.mem_cons_of_mem obj he, hstands⟩
    refine hshows.trans ?_
    intro e he
    rcases List.mem_cons.mp he with rfl | he
    · obtain ⟨f, hf, hoccurs⟩ := occurs_fromZ_call "intersection" List.mem_cons_self
      exact ⟨f, hf, (occurs_library "object" (List.mem_singleton_self e)).trans hoccurs⟩
    · obtain ⟨f, hf, hoccurs⟩ := occurs_fromZ_call "intersection"
        (List.mem_cons_of_mem _ List.mem_cons_self)
      exact ⟨f, hf, (occurs_library "record" he).trans hoccurs⟩

theorem standsIn_variant (hg : b.graph.Fit) (hr : b.registry = {}) (hbase : b.Forms base)
    {d : Option Discriminator} {v t : NodeId} (htype : (b.graph.node v).type = some t)
    (hlt : t < b.graph.nodes.size) (hkind : (b.graph.node t).kind ≠ .modelProperty)
    (hnot : t ∉ b.graph.declarations) {e : Expr} (h : b.variant base d v = .ok e) :
    b.StandsIn base t e := by
  obtain ⟨_, h⟩ | ⟨d, _, _, h⟩ := variant_eq_ok h
  · rw [htype] at h
    exact standsIn_nested hg hr hbase hlt hkind hnot h
  · obtain ⟨tag, payload, u, hu, _, _, hpayload, rfl⟩ :=
      envelope_eq_ok (Registry.silent_of_empty hr) h
    obtain rfl : t = u := Option.some.inj (htype.symm.trans hu)
    have hobject : payload.Occurs (.object [(d.property, tag), (d.envelopeProperty, payload)]) :=
      .object (List.mem_cons_of_mem _ List.mem_cons_self) .here
    have hstands := standsIn_field hg hr hbase hlt hkind hnot hpayload
    exact hstands.trans (hobject.trans (occurs_library "object" List.mem_cons_self))

/-- One step shows the fields of a node and the types written out inside it. -/
theorem shows_baseStep (hg : b.graph.Fit) (hr : b.registry = {}) (hbase : b.Forms base)
    (hm : m < b.graph.nodes.size) {es : List Expr}
    (h : b.baseStep base (b.graph.subject m) = .ok es) : b.Shows base m es := by
  -- nothing stands inside a node that is no model, union or tuple
  have hbare : ∀ es, (b.graph.node m).kind ∉ [Kind.model, .union, .tuple] → b.Shows base m es := by
    intro es hkind
    constructor
    · rw [fields_of_not_shape (.inl fun hmodel => hkind (by simp [hmodel]))]
      simp
    · rw [inside_of_bare hkind]
      simp
  have hvariants : ∀ d elems, (b.graph.node m).kind = .union →
      (b.graph.node m).variants.mapM (b.variant base d) = .ok elems →
      ∀ t ∈ b.inside m, t ∉ b.graph.declarations → b.StandsIn base t (.array elems) := by
    intro d elems hkind helems t ht hnot
    obtain ⟨hlt, htkind, _⟩ := inside_below hg hm ht hnot
    obtain ⟨v, hv, htype⟩ : ∃ v ∈ (b.graph.node m).variants, (b.graph.node v).type = some t := by
      simpa [inside, hkind] using ht
    obtain ⟨e, he, hvariant⟩ := Result.exists_mem_of_mapM helems hv
    exact (standsIn_variant hg hr hbase htype hlt htkind hnot hvariant).trans (.array he .here)
  cases composed_of_baseStep h with
  | stock hkind _ => exact hbare _ hkind
  | literal hkind _ => exact hbare _ hkind
  | member hkind => exact hbare _ (by simp [show (b.graph.node m).kind = _ from hkind])
  | enum hkind _ => exact hbare _ (by simp [show (b.graph.node m).kind = _ from hkind])
  | property hkind _ _ => exact hbare _ (by simp [show (b.graph.node m).kind = _ from hkind])
  | tuple hkind helems =>
    have hkind : (b.graph.node m).kind = .tuple := hkind
    apply Shows.of_args (fields_of_not_shape (.inl (by simp [hkind])))
    intro t ht hnot
    obtain ⟨hlt, htkind, _⟩ := inside_below hg hm ht hnot
    have ht : t ∈ (b.graph.node m).elements := by simpa [inside, hkind] using ht
    obtain ⟨e, he, hnested⟩ := Result.exists_mem_of_mapM helems ht
    have hstands := standsIn_nested hg hr hbase hlt htkind hnot hnested
    exact ⟨_, List.mem_cons_self, hstands.trans (.array he .here)⟩
  | untagged hkind _ helems =>
    have hkind : (b.graph.node m).kind = .union := hkind
    exact .of_args (fields_of_not_shape (.inl (by simp [hkind]))) fun t ht hnot =>
      ⟨_, by simp, hvariants _ _ hkind helems t ht hnot⟩
  | tagged hkind _ helems =>
    have hkind : (b.graph.node m).kind = .union := hkind
    exact .of_args (fields_of_not_shape (.inl (by simp [hkind]))) fun t ht hnot =>
      ⟨_, by simp, hvariants _ _ hkind helems t ht hnot⟩
  | @array elem harray helem =>
    have harray : (b.graph.node m).isArray = true := harray
    have helem : b.nested base (b.subject? ((b.graph.node m).indexer.bind (·.value))) = .ok elem :=
      helem
    apply Shows.of_args (fields_of_not_shape (.inr harray))
    intro t ht hnot
    have hvalue : (b.graph.node m).indexer.bind (·.value) = some t := by
      simpa [inside, Node.kind_of_isArray harray, harray] using ht
    rw [hvalue] at helem
    obtain ⟨hlt, htkind, _⟩ := inside_below hg hm ht hnot
    exact ⟨elem, List.mem_cons_self, standsIn_nested hg hr hbase hlt htkind hnot helem⟩
  | shape hkind harray _ hshape => exact shows_shape hg hr hbase hm hkind harray hshape
  | @merged a shape hkind harray _ hshape =>
    refine (shows_shape hg hr hbase hm hkind harray hshape).trans ?_
    intro e he
    have hparts : e.parts = [e] := by
      obtain ⟨name, args, rfl⟩ := (shaped_of_shape hshape).call
      rcases List.mem_pair.mp he with rfl | rfl
      · rfl
      · rfl
    refine ⟨.call "merge" [.ofParts [shape]], by simp, .call List.mem_cons_self ?_⟩
    exact occurs_ofParts (by simpa using he) hparts

end Steps

/-- Every field of every part of a node stands in its base schema. The induction is along the
parts: each stands in the one that holds it. -/
theorem occurs_baseSchema (hg : b.graph.Fit) (hr : b.registry = {}) {m n : NodeId}
    (hpart : b.Part m n) (hm : m < b.graph.nodes.size) {fuel : Nat} {expanding : List NodeId}
    {es : List Expr} (h : b.baseSchema fuel expanding (b.graph.subject m) = .ok es) {f : NodeId}
    (hf : f ∈ b.fields n) :
    ∃ fuel' expanding' x, b.fieldOf (b.baseSchema fuel' expanding') f = .ok x ∧
      ∃ e ∈ es, x.Occurs e := by
  induction hpart generalizing fuel expanding es with
  | self m =>
    obtain ⟨fuel, expanding, hstep⟩ := baseStep_of_baseSchema h
    obtain ⟨x, hx, hoccurs⟩ :=
      (shows_baseStep hg hr (forms_baseSchema hg hr _ _) hm hstep).fields f hf
    exact ⟨_, _, x, hx, hoccurs⟩
  | @step m t n ht hnot _ ih =>
    obtain ⟨fuel, expanding, hstep⟩ := baseStep_of_baseSchema h
    obtain ⟨e, he, bs, hbs, hall⟩ :=
      (shows_baseStep hg hr (forms_baseSchema hg hr _ _) hm hstep).inside t ht hnot
    obtain ⟨_, _, x, hx, y, hy, hoccurs⟩ := ih (inside_below hg hm ht hnot).1 hbs hf
    exact ⟨_, _, x, hx, e, he, hoccurs.trans (hall y hy)⟩

/-- Every field of every part of a declared node stands in its declaration. -/
theorem occurs_declare (hg : b.graph.Fit) (hr : b.registry = {}) {m n : NodeId}
    (hm : m ∈ b.graph.declarations) {e : Expr} (h : b.declare (b.graph.subject m) = .ok e)
    (hpart : b.Part m n) {f : NodeId} (hf : f ∈ b.fields n) :
    ∃ fuel expanding x, b.fieldOf (b.baseSchema fuel expanding) f = .ok x ∧ x.Occurs e := by
  have hkind := hg.kind_declared hm
  have hlt := hg.kept m hm
  rw [declare_eq hr] at h
  obtain ⟨bs, cs, hbs, _, rfl⟩ := inline_eq_ok hkind h
  obtain ⟨fuel, expanding, x, hx, y, hy, hoccurs⟩ := occurs_baseSchema hg hr hpart hlt hbs hf
  have hbegins := ((forms_baseSchema hg hr _ _).node m hlt hkind bs hbs).1
  refine ⟨fuel, expanding, x, hx, hoccurs.trans ?_⟩
  exact occurs_ofParts (by simp [hy]) (hbegins.parts hy)

end Builder

end SchemaLoom

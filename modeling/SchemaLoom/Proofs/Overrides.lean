import SchemaLoom.Proofs.Inheritance

/-!
# Where overrides are asked

Overrides are asked at five kinds of sites. The function found at a site, or the default
where there is none, decides what is written there. So two registries that declare the
same nodes and have the same written at every site give the same plan. Functions that
return the default are an instance: they are as good as none.
-/

namespace SchemaLoom

set_option autoImplicit false

/-- A place where an override is asked for what to write. -/
inductive Site where
  /-- The declaration of a node. -/
  | declaration (s : Subject)
  /-- A node inside another expression. -/
  | use (s : Subject)
  /-- A field, asked of its property. -/
  | property (prop : Subject) (type : Option Subject)
  /-- A field, asked of its type. -/
  | type (prop t : Subject)
  /-- A member of an enum. -/
  | member (s : Subject)

namespace Site

/-- The function that is called at a site, if there is one. -/
def emit? (b : Builder) : Site → Option Emit
  | declaration s => (b.override? s).bind (·.declare)
  | use s => (b.override? s).bind (·.reference)
  | property prop _ => (b.override? prop).bind (·.declare)
  | type _ t => (b.override? t).bind (·.reference)
  | member s => (b.override? s).bind (·.declare)

def context (b : Builder) (base : BaseOf) : Site → Context
  | declaration s =>
    { node := s.node
      default := fun _ => b.inline base s
      parts := fun _ => b.inlineParts base s }
  | use s =>
    { node := s.node
      default := fun _ => match b.target? s with
        | some n => .ok (b.refer n)
        | none => b.inline base s
      parts := fun _ => b.inlineParts base s }
  | property prop t =>
    { node := prop.node, member := some prop.node
      default := fun _ => (b.fieldParts base prop.node t).map Parts.expr
      parts := fun _ => b.fieldParts base prop.node t }
  | type prop t =>
    { node := t.node, member := some prop.node
      default := fun _ => (b.fieldParts base prop.node (some t)).map Parts.expr
      parts := fun _ => b.fieldParts base prop.node (some t) }
  | member s =>
    { node := s.node
      default := fun _ => .ok (Expr.ofMember s.node.name s.node.literal)
      parts := fun _ => b.inlineParts base s }

def written (b : Builder) (base : BaseOf) (site : Site) : Result Expr :=
  match site.emit? b with
  | some emit => emit (site.context b base)
  | none => (site.context b base).default ()

end Site

namespace Builder
variable {b : Builder} {base : BaseOf}

/-! ### What the builders write at their sites -/

theorem declare_eq_written (s : Subject) :
    b.declare s = (Site.declaration s).written b b.base := rfl

theorem nested_eq_written (s : Subject) :
    b.nested base (some s) = (Site.use s).written b base := rfl

theorem enumMember_eq_written {m : NodeId} {s : Subject} (h : b.graph.subject? m = some s) :
    b.enumMember base m = (Site.member s).written b base := by
  rw [enumMember, h]
  rfl

/-- A field without a type is asked of its property only. -/
theorem field_none_eq_written (prop : Subject) :
    b.field base prop none = (Site.property prop none).written b base := rfl

theorem field_of_property {prop : Subject} {emit : Emit} (type : Option Subject)
    (h : (Site.property prop type).emit? b = some emit) :
    b.field base prop type = (Site.property prop type).written b base := by
  have hfound : (b.override? prop).bind (·.declare) = some emit := h
  simp only [field, hfound, Site.written, h]
  rfl

/-- A field that is not asked of its property is asked of its type. -/
theorem field_of_type {prop t : Subject} (h : (Site.property prop (some t)).emit? b = none) :
    b.field base prop (some t) = (Site.type prop t).written b base := by
  have hfound : (b.override? prop).bind (·.declare) = none := h
  simp only [field, hfound]
  rfl

/-! ### Other base schemas and other overrides -/

/-- What an enum enumerates are enum members. -/
def Enumerates (b : Builder) (s : Subject) : Prop :=
  ∀ m ∈ s.node.members, (b.graph.node m).kind = .enumMember

theorem enumerates_subject (hg : b.graph.Fit) (n : NodeId) : b.Enumerates (b.graph.subject n) := by
  intro m hm
  by_cases hn : n < b.graph.nodes.size
  · exact (hg.fits_of_lt hn).members m hm
  · have hnode := Graph.node_of_size_le (Nat.le_of_not_lt hn)
    rw [Graph.subject, hnode] at hm
    cases hm

theorem enumerates_of_subject? (hg : b.graph.Fit) {o : Option NodeId} {s : Subject}
    (h : b.subject? o = some s) : b.Enumerates s := by
  obtain ⟨n, _, _, rfl⟩ := subject?_eq_some h
  exact enumerates_subject hg n

/-- The sites that come up in a graph as linking makes it. -/
def Meets (b : Builder) : Site → Prop
  | .declaration s | .use s | .type _ s => b.Enumerates s
  | .property _ type => ∀ s ∈ type, b.Enumerates s
  | .member s => b.Enumerates s ∧ s.node.kind = .enumMember

/-- Two ways to get at the same base schemas. -/
def SameBase (b : Builder) (base' base : BaseOf) : Prop := ∀ s, b.Enumerates s → base' s = base s

section SameBase
variable {base' : BaseOf}

theorem fieldParts_of_sameBase (hbase : b.SameBase base' base) (prop : Node)
    {type : Option Subject} (htype : ∀ s ∈ type, b.Enumerates s) :
    b.fieldParts base' prop type = b.fieldParts base prop type := by
  cases type with
  | none => rfl
  | some t => rw [fieldParts, fieldParts, hbase t (htype t rfl)]

theorem inlineParts_of_sameBase (hg : b.graph.Fit) (hbase : b.SameBase base' base) {s : Subject}
    (hs : b.Enumerates s) : b.inlineParts base' s = b.inlineParts base s := by
  have hfield : b.fieldParts base' s.node (b.subject? s.node.type) =
      b.fieldParts base s.node (b.subject? s.node.type) :=
    fieldParts_of_sameBase hbase s.node fun t ht => enumerates_of_subject? hg ht
  rw [inlineParts, inlineParts, hfield, hbase s hs]

theorem written_of_sameBase (hg : b.graph.Fit) (hbase : b.SameBase base' base) {site : Site}
    (hsite : b.Meets site) : site.written b base' = site.written b base := by
  have hcontext : site.context b base' = site.context b base := by
    cases site with
    | declaration s => simp only [Site.context, inline, inlineParts_of_sameBase hg hbase hsite]
    | use s => simp only [Site.context, inline, inlineParts_of_sameBase hg hbase hsite]
    | property prop type => simp only [Site.context, fieldParts_of_sameBase hbase prop.node hsite]
    | type prop t =>
      have ht : ∀ s ∈ some t, b.Enumerates s := by
        intro s hs
        cases hs
        exact hsite
      simp only [Site.context, fieldParts_of_sameBase hbase prop.node ht]
    | member s => simp only [Site.context, inlineParts_of_sameBase hg hbase hsite.1]
  rw [Site.written, Site.written, hcontext]

theorem field_of_sameBase (hbase : b.SameBase base' base) (prop : Subject) {type : Option Subject}
    (htype : ∀ s ∈ type, b.Enumerates s) : b.field base' prop type = b.field base prop type := by
  simp only [field, fieldParts_of_sameBase hbase prop.node htype]

end SameBase

def under (b : Builder) (r : Registry) : Builder := { b with registry := r }

@[simp] theorem under_graph (r : Registry) : (b.under r).graph = b.graph := rfl

@[simp] theorem under_pending (r : Registry) : (b.under r).pending = b.pending := rfl

@[simp] theorem under_subject? (r : Registry) : (b.under r).subject? = b.subject? := rfl

theorem meets_under (r : Registry) (site : Site) : (b.under r).Meets site ↔ b.Meets site := by
  cases site <;> rfl

/-- The base schemas a builder gets to know. -/
def Known (b : Builder) (base : BaseOf) : Prop :=
  ∃ fuel expanding, base = b.baseSchema fuel expanding

theorem known_base : b.Known b.base := ⟨_, _, rfl⟩

/-- Other overrides refer to the same declarations and have the same written everywhere. -/
structure SameWritten (b : Builder) (r : Registry) : Prop where
  referenced : ∀ s, (b.under r).isReferenced s = b.isReferenced s
  written : ∀ base, b.Known base → ∀ site, b.Meets site →
    site.written (b.under r) base = site.written b base
  field : ∀ base, b.Known base → ∀ prop type, (∀ s ∈ type, b.Enumerates s) →
    (b.under r).field base prop type = b.field base prop type

section Under
variable {r : Registry}

theorem target?_under (h : ∀ s, (b.under r).isReferenced s = b.isReferenced s) :
    (b.under r).target? = b.target? := by
  funext s
  rw [target?, target?, h]

theorem fieldParts_under (h : ∀ s, (b.under r).isReferenced s = b.isReferenced s) :
    (b.under r).fieldParts = b.fieldParts := by
  funext base prop type
  cases type with
  | none => rfl
  | some t =>
    rw [fieldParts, fieldParts, target?_under h]
    rfl

theorem inlineParts_under (h : ∀ s, (b.under r).isReferenced s = b.isReferenced s) :
    (b.under r).inlineParts = b.inlineParts := by
  funext base s
  rw [inlineParts, inlineParts, fieldParts_under h]
  rfl

/-- What is offered at a site depends on overrides only in which declarations are referred to. -/
theorem context_under (h : ∀ s, (b.under r).isReferenced s = b.isReferenced s) (site : Site) :
    site.context (b.under r) base = site.context b base := by
  cases site <;>
    simp only [Site.context, inline, inlineParts_under h, fieldParts_under h, target?_under h]
  rfl

namespace SameWritten
variable {base' : BaseOf}

theorem anywhere (hg : b.graph.Fit) (h : b.SameWritten r) (hknown : b.Known base)
    (hbase : b.SameBase base' base) {site : Site} (hsite : b.Meets site) :
    site.written (b.under r) base' = site.written b base := by
  rw [written_of_sameBase (b := b.under r) hg hbase ((meets_under r site).mpr hsite),
    h.written base hknown site hsite]

theorem nested (hg : b.graph.Fit) (h : b.SameWritten r) (hknown : b.Known base)
    (hbase : b.SameBase base' base) (o : Option NodeId) :
    (b.under r).nested base' (b.subject? o) = b.nested base (b.subject? o) := by
  cases ho : b.subject? o with
  | none => rfl
  | some s =>
    have hsite : b.Meets (.use s) := enumerates_of_subject? hg ho
    rw [nested_eq_written, nested_eq_written, h.anywhere hg hknown hbase hsite]

theorem enumMember (hg : b.graph.Fit) (h : b.SameWritten r) (hknown : b.Known base)
    (hbase : b.SameBase base' base) {m : NodeId} (hm : (b.graph.node m).kind = .enumMember) :
    (b.under r).enumMember base' m = b.enumMember base m := by
  cases hs : b.graph.subject? m with
  | none => simp [Builder.enumMember, hs]
  | some s =>
    have hunder : (b.under r).graph.subject? m = some s := hs
    obtain ⟨_, rfl⟩ := Graph.subject?_eq_some hs
    have hsite : b.Meets (.member (b.graph.subject m)) := ⟨enumerates_subject hg m, hm⟩
    rw [enumMember_eq_written hunder, enumMember_eq_written hs, h.anywhere hg hknown hbase hsite]

theorem anyField (h : b.SameWritten r) (hknown : b.Known base) (hbase : b.SameBase base' base)
    (prop : Subject) {type : Option Subject} (htype : ∀ s ∈ type, b.Enumerates s) :
    (b.under r).field base' prop type = b.field base prop type := by
  rw [field_of_sameBase (b := b.under r) hbase prop htype, h.field base hknown prop type htype]

theorem fieldOf (hg : b.graph.Fit) (h : b.SameWritten r) (hknown : b.Known base)
    (hbase : b.SameBase base' base) (p : NodeId) :
    (b.under r).fieldOf base' p = b.fieldOf base p := by
  cases hp : b.graph.subject? p with
  | none => simp [Builder.fieldOf, hp]
  | some prop =>
    simp only [Builder.fieldOf, under_graph, under_subject?, hp]
    exact h.anyField hknown hbase prop fun s hs => enumerates_of_subject? hg hs

theorem shape (hg : b.graph.Fit) (h : b.SameWritten r) (hknown : b.Known base)
    (hbase : b.SameBase base' base) (m : Subject) : (b.under r).shape base' m = b.shape base m := by
  have hflattened : (b.under r).flattened m = b.flattened m := by
    simp only [flattened, under_graph, h.referenced]
  simp only [Builder.shape, shapeIndexer?, shapeProperties, hflattened, objectOf, recordOf,
    h.fieldOf hg hknown hbase, h.nested hg hknown hbase, under_graph, under_subject?]
  rfl

theorem modelSchema (hg : b.graph.Fit) (h : b.SameWritten r) (hknown : b.Known base)
    (hbase : b.SameBase base' base) (m : Subject) :
    (b.under r).modelSchema base' m = b.modelSchema base m := by
  simp only [Builder.modelSchema, mergeBase?, target?_under h.referenced,
    h.nested hg hknown hbase, h.shape hg hknown hbase, under_subject?]

theorem envelope (hg : b.graph.Fit) (h : b.SameWritten r) (hknown : b.Known base)
    (hbase : b.SameBase base' base) (d : Discriminator) (v : Node) :
    (b.under r).envelope base' d v = b.envelope base d v := by
  simp only [Builder.envelope, under_subject?]
  -- the tag is no node of the graph
  rw [h.anyField hknown hbase _ (by simp [Enumerates]),
    h.anyField hknown hbase _ fun s hs => enumerates_of_subject? hg hs]

theorem unionSchema (hg : b.graph.Fit) (h : b.SameWritten r) (hknown : b.Known base)
    (hbase : b.SameBase base' base) (u : Node) :
    (b.under r).unionSchema base' u = b.unionSchema base u := by
  have hvariant : (b.under r).variant base' = b.variant base := by
    funext d v
    simp only [variant, h.envelope hg hknown hbase, h.nested hg hknown hbase, under_graph,
      under_subject?]
  rw [Builder.unionSchema, Builder.unionSchema, hvariant]

theorem baseStep (hg : b.graph.Fit) (h : b.SameWritten r) (hknown : b.Known base)
    (hbase : b.SameBase base' base) {s : Subject} (hs : b.Enumerates s) :
    (b.under r).baseStep base' s = b.baseStep base s := by
  have hmembers : s.node.members.mapM ((b.under r).enumMember base') =
      s.node.members.mapM (b.enumMember base) :=
    Result.mapM_congr fun m hm => h.enumMember hg hknown hbase (hs m hm)
  have helement : ∀ e, (b.under r).nested base' (b.graph.subject? e) =
      b.nested base (b.graph.subject? e) := fun e => h.nested hg hknown hbase (some e)
  simp only [Builder.baseStep, h.modelSchema hg hknown hbase, h.unionSchema hg hknown hbase,
    hmembers, helement, under_graph, under_subject?]
  cases ht : b.subject? s.node.type with
  | none => rfl
  | some t =>
    have htype : base' t = base t := hbase t (enumerates_of_subject? hg ht)
    simp only [htype]

theorem baseSchema (hg : b.graph.Fit) (h : b.SameWritten r) (fuel : Nat)
    (expanding : List NodeId) :
    b.SameBase ((b.under r).baseSchema fuel expanding) (b.baseSchema fuel expanding) := by
  induction fuel generalizing expanding with
  | zero =>
    intro s _
    rfl
  | succ fuel ih =>
    intro s hs
    rw [Builder.baseSchema, Builder.baseSchema, h.baseStep hg ⟨_, _, rfl⟩ (ih _) hs]

theorem declare (hg : b.graph.Fit) (h : b.SameWritten r) {s : Subject} (hs : b.Enumerates s) :
    (b.under r).declare s = b.declare s := by
  have hbase : b.SameBase (b.under r).base b.base := h.baseSchema hg _ _
  have hsite : b.Meets (.declaration s) := hs
  rw [declare_eq_written, declare_eq_written, h.anywhere hg known_base hbase hsite]

end SameWritten

end Under

end Builder

/-! ### Plans -/

section Plans
variable {g : Graph} {r r' : Registry}

namespace Builder

theorem planNode_congr (hg : g.Fit) (h : ∀ pending, (⟨g, r, pending⟩ : Builder).SameWritten r')
    (i : Nat) (cyclic : Bool) (pending : List NodeId) (n : NodeId) :
    (⟨g, r', []⟩ : Builder).planNode i cyclic pending n =
      (⟨g, r, []⟩ : Builder).planNode i cyclic pending n := by
  cases hn : g.subject? n with
  | none => simp only [planNode, hn]
  | some s =>
    obtain ⟨_, rfl⟩ := Graph.subject?_eq_some hn
    have hdeclare : (⟨g, r', pending⟩ : Builder).declare (g.subject n) =
        (⟨g, r, pending⟩ : Builder).declare (g.subject n) :=
      (h pending).declare hg (enumerates_subject (b := ⟨g, r, pending⟩) hg n)
    simp only [planNode, hn, hdeclare]

theorem planGroup_congr (hg : g.Fit) (h : ∀ pending, (⟨g, r, pending⟩ : Builder).SameWritten r')
    (i : Nat) (cyclic : Bool) (ns : List NodeId) :
    (⟨g, r', []⟩ : Builder).planGroup i cyclic ns =
      (⟨g, r, []⟩ : Builder).planGroup i cyclic ns := by
  induction ns with
  | nil => rfl
  | cons n ns ih => rw [planGroup, planGroup, planNode_congr hg h, ih]

theorem planGroups_congr (hg : g.Fit) (h : ∀ pending, (⟨g, r, pending⟩ : Builder).SameWritten r')
    (i : Nat) (cs : List Group) :
    (⟨g, r', []⟩ : Builder).planGroups i cs = (⟨g, r, []⟩ : Builder).planGroups i cs := by
  induction cs generalizing i with
  | nil => rfl
  | cons c cs ih => rw [planGroups, planGroups, planGroup_congr hg h, ih]

end Builder

/-- Registries that have the same written everywhere give the same plan. -/
theorem plan_congr (hg : g.Fit) (h : ∀ pending, (⟨g, r, pending⟩ : Builder).SameWritten r') :
    plan g r' = plan g r := by
  have hdeclared : (⟨g, r', []⟩ : Builder).declared = (⟨g, r, []⟩ : Builder).declared := by
    have href : (⟨g, r', []⟩ : Builder).isReferenced = (⟨g, r, []⟩ : Builder).isReferenced :=
      funext (h []).referenced
    simp only [Builder.declared, href]
  have hgroups : (⟨g, r', []⟩ : Builder).planGroups = (⟨g, r, []⟩ : Builder).planGroups := by
    funext i cs
    exact Builder.planGroups_congr hg h i cs
  simp only [plan, hdeclared, hgroups]

end Plans

/-! ### Functions that return the default -/

/-- An override that hides no declaration and whose functions return the default. -/
structure Override.Transparent (o : Override) : Prop where
  declared : o.noDeclaration = false
  declare : ∀ emit ∈ o.declare, ∀ c, emit c = c.default ()
  reference : ∀ emit ∈ o.reference, ∀ c, emit c = c.default ()

structure Registry.Transparent (r : Registry) : Prop where
  nodes : ∀ e ∈ r.nodes, e.2.Transparent
  kinds : ∀ e ∈ r.kinds, e.2.Transparent

namespace Registry.Transparent
variable {r : Registry}

theorem find? (hr : r.Transparent) {g : Graph} {s : Subject} {o : Override}
    (h : r.find? g s = some o) : o.Transparent :=
  of_find? hr.nodes hr.kinds h

theorem written (hr : r.Transparent) {b : Builder} (hb : b.registry = r) (base : BaseOf)
    (site : Site) : site.written b base = (site.context b base).default () := by
  subst hb
  have hcall : ∀ (s : Subject) (emit : Emit) (c : Context),
      (b.override? s).bind (·.declare) = some emit ∨
        (b.override? s).bind (·.reference) = some emit → emit c = c.default () := by
    intro s emit c hemit
    rcases hemit with hemit | hemit
    · obtain ⟨o, ho, hemit⟩ := Option.bind_eq_some_iff.mp hemit
      exact (hr.find? ho).declare emit hemit c
    · obtain ⟨o, ho, hemit⟩ := Option.bind_eq_some_iff.mp hemit
      exact (hr.find? ho).reference emit hemit c
  unfold Site.written
  split
  · rename_i emit hemit
    cases site with
    | declaration s => exact hcall s emit _ (.inl hemit)
    | use s => exact hcall s emit _ (.inr hemit)
    | property prop type => exact hcall prop emit _ (.inl hemit)
    | type prop t => exact hcall t emit _ (.inr hemit)
    | member s => exact hcall s emit _ (.inl hemit)
  · rfl

/-- A field asks its property or its type; the default is the same. -/
theorem field (hr : r.Transparent) {b : Builder} (hb : b.registry = r) (base : BaseOf)
    (prop : Subject) (type : Option Subject) :
    b.field base prop type = (b.fieldParts base prop.node type).map Parts.expr := by
  cases type with
  | none => rw [Builder.field_none_eq_written, hr.written hb, Site.context]
  | some t =>
    cases hemit : (Site.property prop (some t)).emit? b with
    | some emit => rw [Builder.field_of_property (some t) hemit, hr.written hb, Site.context]
    | none => rw [Builder.field_of_type hemit, hr.written hb, Site.context]

theorem isReferenced (hr : r.Transparent) {b : Builder} (hb : b.registry = r) (s : Subject) :
    b.isReferenced s = s.node.isReferred := by
  subst hb
  unfold Builder.isReferenced
  cases ho : b.override? s with
  | none => simp [Node.isReferred]
  | some o => simp [Node.isReferred, (hr.find? ho).declared]

end Registry.Transparent

theorem Registry.transparent_empty : ({} : Registry).Transparent :=
  ⟨by simp, by simp⟩

/-- Any two registries whose functions return the default have the same written everywhere. -/
theorem Builder.sameWritten_of_transparent {b : Builder} {r : Registry}
    (hb : b.registry.Transparent) (hr : r.Transparent) : b.SameWritten r := by
  have href : ∀ s, (b.under r).isReferenced s = b.isReferenced s := by
    intro s
    rw [hr.isReferenced rfl, hb.isReferenced rfl]
  constructor
  · exact href
  · intro base _ site _
    rw [hr.written rfl, hb.written rfl, context_under href]
  · intro base _ prop type _
    rw [hr.field rfl, hb.field rfl, fieldParts_under href]

/-- Functions that return the default are as good as no overrides: the plan, or the error, is
the same. -/
theorem plan_of_transparent {g : Graph} (hg : g.Linked) {r : Registry} (hr : r.Transparent) :
    plan g r = plan g {} :=
  plan_congr hg.toFit fun _ => Builder.sameWritten_of_transparent Registry.transparent_empty hr

/-- Pets with an id and of a kind, and a shop with many of them. -/
def petShop : Document where
  scalars := [{ name := "Id", base := "string", decorators := { minLength := some 1 } }]
  models :=
    [{ name := "Pet"
       properties := [{ name := "id", type := .named "Id" }, { name := "kind", type := .named "Kind" }] },
     { name := "Shop", properties := [{ name := "pets", type := { array := some (.named "Pet") } }] }]
  enums := [{ name := "Kind", members := [{ name := "cat" }, { name := "dog" }] }]

def Override.passing : Override where
  declare := some fun c => c.default ()
  reference := some fun c => c.default ()

theorem Override.transparent_passing : Override.passing.Transparent := by
  constructor
  · rfl
  · intro emit hemit c
    cases hemit
    rfl
  · intro emit hemit c
    cases hemit
    rfl

-- the scalar stands at 29, the models at 30 and 31, a member at 33 and a property at 35
/-- Passes the default on at every kind of site. -/
def Registry.passing : Registry where
  nodes := [29, 30, 33, 35].map fun n => (n, .passing)
  kinds := [(.model, .passing), (.modelProperty, .passing), (.enumMember, .passing)]

set_option maxRecDepth 100000 in
theorem plan_of_transparent_petShop : ∃ g ds, Graph.link petShop = .ok g ∧
    Registry.passing.Transparent ∧ plan g Registry.passing = .ok ds ∧ plan g {} = .ok ds := by
  have hrun : (Graph.link petShop >>= fun g => (plan g {}).map fun ds => ds.length) = .ok 4 := by
    decide +kernel
  obtain ⟨g, hg, hrun⟩ := Result.bind_eq_ok.mp hrun
  obtain ⟨ds, hds, _⟩ := Result.map_eq_ok.mp hrun
  have hr : Registry.passing.Transparent := by
    constructor
    · intro e he
      obtain ⟨n, _, rfl⟩ := List.mem_map.mp he
      exact Override.transparent_passing
    · simp [Registry.passing, Override.transparent_passing]
  refine ⟨g, ds, hg, hr, ?_, hds⟩
  rw [plan_of_transparent (Graph.linked_of_link hg) hr, hds]

/-! ### Calls -/

/-- A call of an override function while a graph is planned. -/
structure Registry.Call (r : Registry) (g : Graph) where
  pending : List NodeId
  base : BaseOf
  known : Builder.Known { graph := g, registry := r, pending } base
  site : Site
  meets : Builder.Meets { graph := g, registry := r, pending } site
  emit : Emit
  found : site.emit? { graph := g, registry := r, pending } = some emit

namespace Registry.Call
variable {r : Registry} {g : Graph}

def builder (c : r.Call g) : Builder := { graph := g, registry := r, pending := c.pending }

def context (c : r.Call g) : Context := c.site.context c.builder c.base

end Registry.Call

def Override.mapEmits (f : Emit → Emit) (o : Override) : Override :=
  { o with declare := o.declare.map f, reference := o.reference.map f }

/-- Every function replaced. -/
def Registry.mapEmits (f : Emit → Emit) (r : Registry) : Registry where
  nodes := r.nodes.map fun e => (e.1, e.2.mapEmits f)
  kinds := r.kinds.map fun e => (e.1, e.2.mapEmits f)

theorem lookup_map_snd {α β γ : Type} [BEq α] (f : β → γ) (k : α) (es : List (α × β)) :
    (es.map fun e => (e.1, f e.2)).lookup k = (es.lookup k).map f := by
  induction es with
  | nil => rfl
  | cons e es ih =>
    rw [List.map_cons, List.lookup_cons, List.lookup_cons, ih]
    split <;> rfl

namespace Registry
variable {r : Registry} {f : Emit → Emit}

theorem find?_mapEmits (g : Graph) (s : Subject) :
    (r.mapEmits f).find? g s = (r.find? g s).map (·.mapEmits f) := by
  have hnode : (r.mapEmits f).atNode? = fun n => (r.atNode? n).map (·.mapEmits f) := by
    funext n
    exact lookup_map_snd _ _ _
  have hkind : (r.mapEmits f).kinds.lookup s.node.kind =
      (r.kinds.lookup s.node.kind).map (·.mapEmits f) := lookup_map_snd _ _ _
  have hown : s.id.bind (r.mapEmits f).atNode? = (s.id.bind r.atNode?).map (·.mapEmits f) := by
    rw [hnode, Option.map_bind]
    rfl
  have hinherited : ∀ ns : List NodeId, ns.findSome? (r.mapEmits f).atNode? =
      (ns.findSome? r.atNode?).map (·.mapEmits f) := by
    intro ns
    rw [hnode, List.map_findSome?]
    rfl
  simp only [find?, hown, hinherited, hkind]
  cases s.id.bind r.atNode? with
  | some o => rfl
  | none =>
    split
    · cases (declaredAncestors g s).findSome? r.atNode? with
      | some o => rfl
      | none => rfl
    · rfl

end Registry

namespace Builder
variable {b : Builder} {f : Emit → Emit}

theorem override?_mapEmits (s : Subject) :
    (b.under (b.registry.mapEmits f)).override? s = (b.override? s).map (·.mapEmits f) :=
  Registry.find?_mapEmits b.graph s

theorem isReferenced_mapEmits (s : Subject) :
    (b.under (b.registry.mapEmits f)).isReferenced s = b.isReferenced s := by
  rw [isReferenced, isReferenced, override?_mapEmits]
  cases b.override? s with
  | none => rfl
  | some o => rfl

theorem emit?_mapEmits (site : Site) :
    site.emit? (b.under (b.registry.mapEmits f)) = (site.emit? b).map f := by
  have hdeclare : ∀ s, ((b.under (b.registry.mapEmits f)).override? s).bind (·.declare) =
      ((b.override? s).bind (·.declare)).map f := by
    intro s
    rw [override?_mapEmits]
    cases b.override? s with
    | none => rfl
    | some o => rfl
  have hreference : ∀ s, ((b.under (b.registry.mapEmits f)).override? s).bind (·.reference) =
      ((b.override? s).bind (·.reference)).map f := by
    intro s
    rw [override?_mapEmits]
    cases b.override? s with
    | none => rfl
    | some o => rfl
  cases site with
  | declaration s => exact hdeclare s
  | use s => exact hreference s
  | property prop type => exact hdeclare prop
  | type prop t => exact hreference t
  | member s => exact hdeclare s

theorem sameWritten_mapEmits
    (h : ∀ emit base site, b.Known base → b.Meets site → Site.emit? b site = some emit →
      f emit (site.context b base) = emit (site.context b base)) :
    b.SameWritten (b.registry.mapEmits f) := by
  have hwritten : ∀ base, b.Known base → ∀ site, b.Meets site →
      site.written (b.under (b.registry.mapEmits f)) base = site.written b base := by
    intro base hbase site hsite
    rw [Site.written, Site.written, emit?_mapEmits, context_under isReferenced_mapEmits]
    cases hemit : site.emit? b with
    | none => rfl
    | some emit => exact h emit base site hbase hsite hemit
  constructor
  · exact isReferenced_mapEmits
  · exact hwritten
  · intro base hbase prop type htype
    cases hemit : (Site.property prop type).emit? b with
    | some emit =>
      have hunder : (Site.property prop type).emit? (b.under (b.registry.mapEmits f)) =
          some (f emit) := by rw [emit?_mapEmits, hemit, Option.map_some]
      rw [field_of_property type hunder, field_of_property type hemit,
        hwritten base hbase (.property prop type) htype]
    | none =>
      have hunder : (Site.property prop type).emit? (b.under (b.registry.mapEmits f)) = none := by
        rw [emit?_mapEmits, hemit, Option.map_none]
      cases type with
      | none =>
        rw [field_none_eq_written, field_none_eq_written,
          hwritten base hbase (.property prop none) htype]
      | some t =>
        rw [field_of_type hunder, field_of_type hemit,
          hwritten base hbase (.type prop t) (htype t rfl)]

end Builder

/-- Override functions are called at sites only: what they do elsewhere does not count. -/
theorem plan_mapEmits {r : Registry} {g : Graph} (hg : g.Linked) {f : Emit → Emit}
    (h : ∀ c : r.Call g, f c.emit c.context = c.emit c.context) :
    plan g (r.mapEmits f) = plan g r := by
  apply plan_congr hg.toFit
  intro pending
  apply Builder.sameWritten_mapEmits
  intro emit base site hknown hmeets hfound
  exact h ⟨pending, base, hknown, site, hmeets, emit, hfound⟩

end SchemaLoom

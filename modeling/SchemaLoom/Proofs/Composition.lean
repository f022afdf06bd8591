import SchemaLoom.Proofs.Linked
import SchemaLoom.Proofs.Occurrence

/-!
# What expressions are put together from

One lemma for each builder: what is known of the parts once it has given an expression, with
a case for each way it takes. A base schema is in stock in the library, or is made of the
expressions of the nodes inside it; those are referred to or written out, and what is written
out comes back to base schemas. What holds of everything that is written is proved along these
cases, and by one induction on how deep base schemas are built.

Overrides may keep a node from being declared, but may not write anything.
-/

namespace SchemaLoom

set_option autoImplicit false

open SchemaLoom.Expr

/-! ### Schemas in stock -/

namespace Expr

/-- The methods of the schemas that take nothing from a document. -/
def stockMethods : List (List String) :=
  [["boolean"], ["string"], ["string", "url"], ["string", "time"], ["string", "datetime"],
    ["string", "duration"], ["number"], ["number", "int"], ["bigint"], ["any"]] ++
    intrinsicNames.map fun name => [name]

/-- A schema that the library has as it is. -/
inductive Stock : List Expr → Prop
  | plain {names : List String} : names ∈ stockMethods → Stock (plain names)
  | date : Stock coercedDate

theorem stock_anything : Stock anything := .plain (by decide)

/-- What is in stock is made of names, and of methods without arguments. -/
theorem Stock.forall {P : Expr → Prop} {es : List Expr} (h : Stock es)
    (hident : ∀ name, P (ident name)) (hmethod : ∀ name, P (method name)) : ∀ e ∈ es, P e := by
  cases h with
  | plain _ =>
    intro e he
    rcases List.mem_cons.mp he with rfl | he
    · exact hident _
    · obtain ⟨name, _, rfl⟩ := List.mem_map.mp he
      exact hmethod _
  | date => simp [coercedDate, fromZ, z, hident, hmethod]

end Expr

theorem Graph.stock_ownScalarSchema (g : Graph) (n : NodeId) : Stock (g.ownScalarSchema n) := by
  unfold ownScalarSchema
  split
  case h_20 => exact .date
  case h_22 | h_23 =>
    split
    · exact .plain (by decide)
    · exact .date
  all_goals exact .plain (by decide)

theorem Graph.stock_scalarSchema {g : Graph} {fuel : Nat} {n : NodeId} {es : List Expr}
    (h : g.scalarSchema fuel n = .ok es) : Stock es := by
  induction fuel generalizing n with
  | zero => simp [scalarSchema] at h
  | succ fuel ih =>
    rw [scalarSchema] at h
    split at h
    · exact ih h
    · cases h
      exact g.stock_ownScalarSchema n

theorem Builder.stock_intrinsicSchema (name : Text) : Stock (intrinsicSchema name) := by
  unfold intrinsicSchema
  split
  · rename_i hname
    obtain ⟨n, hn, heq⟩ := List.any_eq_true.mp hname
    rw [← eq_of_beq heq]
    exact @Stock.plain [n] (List.mem_append_right _ (List.mem_map_of_mem hn))
  · exact stock_anything

/-! ### Calls that narrow a type -/

namespace Graph

/-- The calls that narrow a type, by what decides that it is these. -/
inductive Narrowed (g : Graph) (t : NodeId) (member : Option Decorators) (inlined : Bool) :
    List Expr → Prop
  | nothing : Narrowed g t member inlined []
  | carried {c : NodeId} {range : Range} {big : Bool} {cs : List Expr} :
      (g.node t).kind = .scalar → g.carrier? t = some c → inlined = true →
      g.derives c "numeric" = true → g.builtInRange c = .ok range →
      g.isBig (g.nodes.size + 1) (some c) = .ok big → numberCalls [] range big = .ok cs →
      Narrowed g t member inlined cs
  | number {range : Range} {big : Bool} {cs : List Expr} : (g.node t).kind = .scalar →
      g.carrier? t = none → g.derives t "numeric" = true →
      (if inlined then g.builtInRange t else .ok {}) = .ok range →
      g.isBig (g.nodes.size + 1) (some t) = .ok big →
      numberCalls (g.sources t member inlined) range big = .ok cs → Narrowed g t member inlined cs
  | text : (g.node t).kind = .scalar → g.carrier? t = none → g.derives t "string" = true →
      Narrowed g t member inlined (stringCalls (g.sources t member inlined))
  | items : (g.node t).isArray = true →
      Narrowed g t member inlined (arrayCalls (g.sources t member inlined))

theorem narrowed_of_constraints {g : Graph} {t : NodeId} {member : Option Decorators}
    {inlined : Bool} {es : List Expr} (h : g.constraints t member inlined = .ok es) :
    g.Narrowed t member inlined es := by
  unfold constraints at h
  simp only at h
  split at h
  · rename_i hkind
    have hkind : (g.node t).kind = .scalar := by simpa using hkind
    split at h
    · rename_i c hcarrier
      split at h
      · cases h
        exact .nothing
      · rename_i hboth
        have hboth : inlined = true ∧ g.derives c "numeric" = true := by simpa using hboth
        obtain ⟨range, hrange, h⟩ := Result.bind_eq_ok.mp h
        obtain ⟨big, hbig, h⟩ := Result.bind_eq_ok.mp h
        exact .carried hkind hcarrier hboth.1 hboth.2 hrange hbig h
    · rename_i hcarrier
      split at h
      · rename_i hnumeric
        split at h
        all_goals
          rename_i hinlined
          obtain ⟨range, hrange, h⟩ := Result.bind_eq_ok.mp h
          obtain ⟨big, hbig, h⟩ := Result.bind_eq_ok.mp h
          exact .number hkind hcarrier hnumeric (by simpa [hinlined] using hrange) hbig h
      · split at h
        · rename_i hstring
          cases h
          exact .text hkind hcarrier hstring
        · cases h
          exact .nothing
  · split at h
    · rename_i harray
      cases h
      exact .items harray
    · cases h
      exact .nothing

theorem constraints_of_shape {g : Graph} {t : NodeId} (hkind : (g.node t).kind = .model)
    (harray : (g.node t).isArray = false) (member : Option Decorators) (inlined : Bool) :
    g.constraints t member inlined = .ok [] := by
  simp [constraints, hkind, harray]

/-- The node at a position, as the subject of an expression. -/
def subject (g : Graph) (n : NodeId) : Subject := { id := some n, node := g.node n }

theorem subject?_of_lt {g : Graph} {n : NodeId} (h : n < g.nodes.size) :
    g.subject? n = some (g.subject n) := by
  rw [subject?, node?_of_lt h]
  rfl

theorem subject?_eq_some {g : Graph} {n : NodeId} {s : Subject} (h : g.subject? n = some s) :
    n < g.nodes.size ∧ s = g.subject n := by
  obtain ⟨node, hnode, rfl⟩ := Option.map_eq_some_iff.mp h
  exact ⟨lt_of_node? hnode, by rw [subject, node_of_node? hnode]⟩

end Graph

theorem Node.kind_of_isArray {n : Node} (h : n.isArray = true) : n.kind = .model := by
  simp only [Node.isArray, Bool.and_eq_true, beq_iff_eq] at h
  exact h.1

/-! ### Overrides that write nothing -/

/-- The overrides of a registry decide what is declared and write nothing themselves. -/
structure Registry.Silent (r : Registry) : Prop where
  nodes : ∀ e ∈ r.nodes, e.2.declare = none ∧ e.2.reference = none
  kinds : ∀ e ∈ r.kinds, e.2.declare = none ∧ e.2.reference = none

/-- What holds of every entry holds of the override that is found. -/
theorem Registry.of_find? {r : Registry} {P : Override → Prop} (hnodes : ∀ e ∈ r.nodes, P e.2)
    (hkinds : ∀ e ∈ r.kinds, P e.2) {g : Graph} {s : Subject} {o : Override}
    (h : r.find? g s = some o) : P o := by
  have hnode : ∀ n, r.atNode? n = some o → P o := fun n hn => hnodes _ (Graph.mem_of_lookup hn)
  simp only [Registry.find?, Option.or_eq_some_iff] at h
  rcases h with hown | ⟨_, hinherited | ⟨_, hkind⟩⟩
  · obtain ⟨n, _, hn⟩ := Option.bind_eq_some_iff.mp hown
    exact hnode n hn
  · split at hinherited
    · obtain ⟨n, _, hn⟩ := List.exists_of_findSome?_eq_some hinherited
      exact hnode n hn
    · cases hinherited
  · exact hkinds _ (Graph.mem_of_lookup hkind)

namespace Registry
variable {r : Registry}

theorem silent_of_empty (hr : r = {}) : r.Silent := by
  subst hr
  constructor <;> simp

theorem Silent.find? (hr : r.Silent) {g : Graph} {s : Subject} {o : Override}
    (h : r.find? g s = some o) : o.declare = none ∧ o.reference = none :=
  of_find? (P := fun o => o.declare = none ∧ o.reference = none) hr.nodes hr.kinds h

end Registry

namespace Builder
variable {b : Builder} {base : BaseOf}

theorem subject?_eq_some {o : Option NodeId} {s : Subject} (h : b.subject? o = some s) :
    ∃ t, o = some t ∧ t < b.graph.nodes.size ∧ s = b.graph.subject t := by
  obtain ⟨t, rfl, hs⟩ := Option.bind_eq_some_iff.mp h
  exact ⟨t, rfl, Graph.subject?_eq_some hs⟩

theorem subject?_of_lt {t : NodeId} (h : t < b.graph.nodes.size) :
    b.subject? (some t) = some (b.graph.subject t) := Graph.subject?_of_lt h

theorem silent_override (hr : b.registry.Silent) (s : Subject) :
    (b.override? s).bind (·.declare) = none ∧ (b.override? s).bind (·.reference) = none := by
  cases ho : b.override? s with
  | none => exact ⟨rfl, rfl⟩
  | some o => exact hr.find? ho

theorem declare_of_silent (hr : b.registry.Silent) (s : Subject) :
    b.declare s = b.inline b.base s := by
  simp [declare, (silent_override hr s).1]

theorem field_of_silent (hr : b.registry.Silent) (base : BaseOf) (prop : Subject)
    (type : Option Subject) :
    b.field base prop type = (b.fieldParts base prop.node type).map Parts.expr := by
  cases type <;> simp [field, (silent_override hr _).1, (silent_override hr _).2]

theorem nested_of_silent (hr : b.registry.Silent) (base : BaseOf) (s : Subject) :
    b.nested base (some s) =
      match b.target? s with
      | some n => .ok (b.refer n)
      | none => b.inline base s := by
  unfold nested atUse
  cases htarget : b.target? s <;> simp only [(silent_override hr s).2, htarget]

theorem enumMember_of_silent (hr : b.registry.Silent) (base : BaseOf) {m : NodeId}
    (hm : m < b.graph.nodes.size) : b.enumMember base m =
      .ok (Expr.ofMember (b.graph.node m).name (b.graph.node m).literal) := by
  simp [enumMember, Graph.subject?_of_lt hm, (silent_override hr _).1, Graph.subject]

/-! ### Declarations that are referred to -/

/-- Uses of the node at a position refer to its declaration. -/
def refersTo (b : Builder) (n : NodeId) : Bool := b.isReferenced (b.graph.subject n)

theorem target?_eq_some {t n : NodeId} :
    b.target? (b.graph.subject t) = some n ↔ b.refersTo t = true ∧ t = n := by
  change (if b.refersTo t = true then some t else none) = some n ↔ _
  split <;> simp_all

theorem target?_eq_none {t : NodeId} :
    b.target? (b.graph.subject t) = none ↔ b.refersTo t = false := by
  change (if b.refersTo t = true then some t else none) = none ↔ _
  split <;> simp_all

theorem override?_eq_none (hr : b.registry = {}) (s : Subject) : b.override? s = none := by
  simp [override?, hr, Registry.find?, Registry.atNode?]

theorem isReferenced_eq (hr : b.registry = {}) (s : Subject) :
    b.isReferenced s = s.node.isReferred := by
  simp [isReferenced, override?_eq_none hr, Node.isReferred]

theorem refersTo_iff (hg : b.graph.Fit) (hr : b.registry = {}) {a : NodeId}
    (ha : a < b.graph.nodes.size) : b.refersTo a = true ↔ a ∈ b.graph.declarations := by
  rw [refersTo, isReferenced_eq hr]
  exact (hg.fits_of_lt ha).declared_iff

/-! ### Fields -/

/-- The calls of a property without a default. -/
def optionalParts (prop : Node) : List Expr :=
  if prop.optional then [Expr.method "optional"] else []

theorem memberParts_none {prop : Node} (type : Option Subject) (h : prop.default = none) :
    b.memberParts prop type = .ok (optionalParts prop) := by
  simp [memberParts, h, optionalParts, bind, Except.bind]

theorem memberParts_some {prop : Node} (type : Option Subject) {v : Value}
    (h : prop.default = some v) :
    b.memberParts prop type = (do
      let big ← b.graph.isBig (b.graph.nodes.size + 1) (type.bind (·.id))
      let x ← Expr.ofValue big v
      .ok (optionalParts prop ++ [Expr.call "default" [x]])) := by
  simp [memberParts, h, optionalParts, bind, Except.bind]

theorem mem_memberParts {prop : Node} {type : Option Subject} {es : List Expr}
    (h : b.memberParts prop type = .ok es) {e : Expr} (he : e ∈ es) :
    e = Expr.method "optional" ∨ ∃ big v x, prop.default = some v ∧ ofValue big v = .ok x ∧
      e = .call "default" [x] := by
  have hoptional : ∀ e ∈ optionalParts prop, e = Expr.method "optional" := by
    intro e he
    unfold optionalParts at he
    split at he
    · exact List.mem_singleton.mp he
    · cases he
  cases hdefault : prop.default with
  | none =>
    rw [memberParts_none type hdefault] at h
    cases h
    exact .inl (hoptional e he)
  | some v =>
    rw [memberParts_some type hdefault] at h
    obtain ⟨big, _, h⟩ := Result.bind_eq_ok.mp h
    obtain ⟨x, hx, h⟩ := Result.bind_eq_ok.mp h
    cases h
    rcases List.mem_append.mp he with he | he
    · exact .inl (hoptional e he)
    · exact .inr ⟨big, v, x, rfl, hx, List.mem_singleton.mp he⟩

theorem fieldParts_refer (base : BaseOf) (prop : Node) {s : Subject} {n : NodeId}
    (h : b.target? s = some n) :
    b.fieldParts base prop (some s) = (do
      let cs ← b.constraints s (some prop) false
      let member ← b.memberParts prop (some s)
      .ok { base := [b.refer n], constraints := cs, member, description := describe [prop] }) := by
  simp [fieldParts, h, bind, Except.bind]

theorem fieldParts_inline (base : BaseOf) (prop : Node) {s : Subject} (h : b.target? s = none) :
    b.fieldParts base prop (some s) = (do
      let bs ← base s
      let cs ← b.constraints s (some prop) true
      let member ← b.memberParts prop (some s)
      .ok { base := bs, constraints := cs, member
            description := describe (prop :: b.describedBy s) }) := by
  simp [fieldParts, h, bind, Except.bind]

/-- A field is a reference to its type or the type written out, with what the property adds. -/
theorem field_eq_ok (hr : b.registry.Silent) {prop t : Subject} {e : Expr}
    (h : b.field base prop (some t) = .ok e) :
    ∃ cs member, b.memberParts prop.node (some t) = .ok member ∧
      ((∃ n, b.target? t = some n ∧ b.constraints t (some prop.node) false = .ok cs ∧
          e = Parts.expr { base := [b.refer n], constraints := cs, member
                           description := describe [prop.node] }) ∨
        (b.target? t = none ∧ b.constraints t (some prop.node) true = .ok cs ∧
          ∃ bs, base t = .ok bs ∧
            e = Parts.expr { base := bs, constraints := cs, member
                             description := describe (prop.node :: b.describedBy t) })) := by
  rw [field_of_silent hr] at h
  obtain ⟨p, hp, rfl⟩ := Result.map_eq_ok.mp h
  cases htarget : b.target? t with
  | some n =>
    rw [fieldParts_refer base prop.node htarget] at hp
    obtain ⟨cs, hcs, hp⟩ := Result.bind_eq_ok.mp hp
    obtain ⟨member, hmember, hp⟩ := Result.bind_eq_ok.mp hp
    cases hp
    exact ⟨cs, member, hmember, .inl ⟨n, rfl, hcs, rfl⟩⟩
  | none =>
    rw [fieldParts_inline base prop.node htarget] at hp
    obtain ⟨bs, hbs, hp⟩ := Result.bind_eq_ok.mp hp
    obtain ⟨cs, hcs, hp⟩ := Result.bind_eq_ok.mp hp
    obtain ⟨member, hmember, hp⟩ := Result.bind_eq_ok.mp hp
    cases hp
    exact ⟨cs, member, hmember, .inr ⟨rfl, hcs, bs, hbs, rfl⟩⟩

/-- The same of a type in the graph: declared types are referred to. -/
theorem field_cases (hg : b.graph.Fit) (hr : b.registry = {}) {t : NodeId}
    (hlt : t < b.graph.nodes.size) {prop : Subject} {e : Expr}
    (h : b.field base prop (some (b.graph.subject t)) = .ok e) :
    ∃ cs member, b.memberParts prop.node (some (b.graph.subject t)) = .ok member ∧
      ((t ∈ b.graph.declarations ∧
          b.graph.constraints t (some prop.node.decorators) false = .ok cs ∧
          e = Parts.expr { base := [b.refer t], constraints := cs, member
                           description := describe [prop.node] }) ∨
        (t ∉ b.graph.declarations ∧
          b.graph.constraints t (some prop.node.decorators) true = .ok cs ∧
          ∃ bs, base (b.graph.subject t) = .ok bs ∧
            e = Parts.expr { base := bs, constraints := cs, member
                             description :=
                               describe (prop.node :: b.describedBy (b.graph.subject t)) })) := by
  obtain ⟨cs, member, hmember, ⟨n, htarget, hcs, he⟩ | ⟨htarget, hcs, hbs⟩⟩ :=
    field_eq_ok (Registry.silent_of_empty hr) h
  · obtain ⟨hrefers, rfl⟩ := target?_eq_some.mp htarget
    exact ⟨cs, member, hmember, .inl ⟨(refersTo_iff hg hr hlt).mp hrefers, hcs, he⟩⟩
  · have hrefers : ¬ b.refersTo t = true := by simp [target?_eq_none.mp htarget]
    exact ⟨cs, member, hmember, .inr ⟨mt (refersTo_iff hg hr hlt).mpr hrefers, hcs, hbs⟩⟩

/-- The field of a tag is written out; a tag is no node of the graph. -/
theorem tag_eq_ok (hr : b.registry.Silent) {prop : Subject} {v : Option Value} {e : Expr}
    (h : b.field base prop (some { node := { kind := .string, literal := v } }) = .ok e) :
    ∃ bs member ns, base { node := { kind := .string, literal := v } } = .ok bs ∧
      b.memberParts prop.node (some { node := { kind := .string, literal := v } }) = .ok member ∧
      e = Parts.expr { base := bs, member, description := describe ns } := by
  obtain ⟨cs, member, hmember, ⟨n, htarget, _⟩ | ⟨_, hcs, bs, hbs, rfl⟩⟩ := field_eq_ok hr h
  · unfold target? at htarget
    split at htarget <;> cases htarget
  · cases hcs
    exact ⟨bs, member, _, hbs, hmember, rfl⟩

theorem fieldOf_of_type {f t : NodeId} (hf : f < b.graph.nodes.size)
    (htype : (b.graph.node f).type = some t) (hlt : t < b.graph.nodes.size) :
    b.fieldOf base f = b.field base (b.graph.subject f) (some (b.graph.subject t)) := by
  have hsubject : b.subject? (b.graph.subject f).node.type = some (b.graph.subject t) := by
    rw [show (b.graph.subject f).node.type = some t from htype]
    exact Graph.subject?_of_lt hlt
  rw [fieldOf, Graph.subject?_of_lt hf]
  simp only [hsubject]

theorem type_of_field (hr : b.registry.Silent) {prop : Subject} {o : Option NodeId} {e : Expr}
    (h : b.field base prop (b.subject? o) = .ok e) :
    ∃ t, o = some t ∧ t < b.graph.nodes.size ∧
      b.field base prop (some (b.graph.subject t)) = .ok e := by
  cases hs : b.subject? o with
  | none =>
    rw [hs, field_of_silent hr] at h
    simp [fieldParts, Except.map, Result.fail] at h
  | some s =>
    obtain ⟨t, rfl, hlt, rfl⟩ := subject?_eq_some hs
    exact ⟨t, rfl, hlt, hs ▸ h⟩

theorem fieldOf_eq_ok (hr : b.registry.Silent) {p : NodeId} {e : Expr}
    (h : b.fieldOf base p = .ok e) :
    ∃ t, (b.graph.node p).type = some t ∧ t < b.graph.nodes.size ∧
      b.field base (b.graph.subject p) (some (b.graph.subject t)) = .ok e := by
  unfold fieldOf at h
  split at h
  · simp at h
  · rename_i prop hprop
    obtain ⟨_, rfl⟩ := Graph.subject?_eq_some hprop
    exact type_of_field hr h

/-! ### Whole expressions -/

theorem inlineParts_eq_ok {s : Subject} (hkind : s.node.kind ≠ .modelProperty) {p : Parts}
    (hp : b.inlineParts base s = .ok p) : ∃ bs cs, base s = .ok bs ∧
      b.constraints s none true = .ok cs ∧
      p = { base := bs, constraints := cs, description := describe (b.describedBy s) } := by
  rw [inlineParts, if_neg (by simpa using hkind)] at hp
  obtain ⟨bs, hbs, hp⟩ := Result.bind_eq_ok.mp hp
  obtain ⟨cs, hcs, hp⟩ := Result.bind_eq_ok.mp hp
  cases hp
  exact ⟨bs, cs, hbs, hcs, rfl⟩

theorem inline_eq_ok {s : Subject} (hkind : s.node.kind ≠ .modelProperty) {e : Expr}
    (h : b.inline base s = .ok e) : ∃ bs cs, base s = .ok bs ∧
      b.constraints s none true = .ok cs ∧
      e = Parts.expr { base := bs, constraints := cs
                       description := describe (b.describedBy s) } := by
  obtain ⟨p, hp, rfl⟩ := Result.map_eq_ok.mp h
  obtain ⟨bs, cs, hbs, hcs, rfl⟩ := inlineParts_eq_ok hkind hp
  exact ⟨bs, cs, hbs, hcs, rfl⟩

/-- A node used inside another one is referred to or written out. -/
theorem nested_eq_ok (hr : b.registry.Silent) {o : Option NodeId} {e : Expr}
    (h : b.nested base (b.subject? o) = .ok e) :
    ∃ t, o = some t ∧ t < b.graph.nodes.size ∧
      ((b.refersTo t = true ∧ e = b.refer t) ∨
        (b.refersTo t = false ∧ b.inline base (b.graph.subject t) = .ok e)) := by
  cases hs : b.subject? o with
  | none =>
    rw [hs] at h
    simp [nested] at h
  | some s =>
    obtain ⟨t, rfl, hlt, rfl⟩ := subject?_eq_some hs
    rw [hs, nested_of_silent hr] at h
    refine ⟨t, rfl, hlt, ?_⟩
    cases htarget : b.target? (b.graph.subject t) with
    | some n =>
      obtain ⟨hrefers, rfl⟩ := target?_eq_some.mp htarget
      rw [htarget] at h
      cases h
      exact .inl ⟨hrefers, rfl⟩
    | none =>
      rw [htarget] at h
      exact .inr ⟨target?_eq_none.mp htarget, h⟩

/-- The same without overrides: declared nodes are referred to. -/
theorem nested_cases (hg : b.graph.Fit) (hr : b.registry = {}) {o : Option NodeId}
    (hkind : ∀ t, o = some t → t ∉ b.graph.declarations →
      (b.graph.node t).kind ≠ .modelProperty) {e : Expr}
    (h : b.nested base (b.subject? o) = .ok e) :
    ∃ t, o = some t ∧ t < b.graph.nodes.size ∧
      ((t ∈ b.graph.declarations ∧ e = b.refer t) ∨
        (t ∉ b.graph.declarations ∧ ∃ bs cs, base (b.graph.subject t) = .ok bs ∧
          b.graph.constraints t none true = .ok cs ∧
          e = Parts.expr { base := bs, constraints := cs
                           description := describe (b.describedBy (b.graph.subject t)) })) := by
  obtain ⟨t, rfl, hlt, ⟨hrefers, he⟩ | ⟨hrefers, h⟩⟩ :=
    nested_eq_ok (Registry.silent_of_empty hr) h
  · exact ⟨t, rfl, hlt, .inl ⟨(refersTo_iff hg hr hlt).mp hrefers, he⟩⟩
  · have hnot : t ∉ b.graph.declarations := mt (refersTo_iff hg hr hlt).mpr (by simp [hrefers])
    exact ⟨t, rfl, hlt, .inr ⟨hnot, inline_eq_ok (hkind t rfl hnot) h⟩⟩

/-! ### Models -/

/-- An object has the field of each property, and no others. -/
theorem fields_of_objectOf {ps : List NodeId} {e : Expr} (h : b.objectOf base ps = .ok e) :
    ∃ fields, e = .object fields ∧ (∀ x ∈ fields, ∃ p ∈ ps, b.fieldOf base p = .ok x.2) ∧
      ∀ p ∈ ps, ∃ x ∈ fields, b.fieldOf base p = .ok x.2 := by
  obtain ⟨fields, hfields, h⟩ := Result.bind_eq_ok.mp h
  cases h
  refine ⟨fields, rfl, ?_, ?_⟩
  · intro x hx
    obtain ⟨p, hp, hpair⟩ := Result.exists_of_mem_mapM hfields hx
    obtain ⟨y, hy, hpair⟩ := Result.bind_eq_ok.mp hpair
    cases hpair
    exact ⟨p, hp, hy⟩
  · intro p hp
    obtain ⟨x, hx, hpair⟩ := Result.exists_mem_of_mapM hfields hp
    obtain ⟨y, hy, hpair⟩ := Result.bind_eq_ok.mp hpair
    cases hpair
    exact ⟨_, hx, hy⟩

theorem recordOf_eq_ok {ix : Indexer} {es : List Expr} (h : b.recordOf base ix = .ok es) :
    ∃ key value, b.nested base (b.subject? ix.key) = .ok key ∧
      b.nested base (b.subject? ix.value) = .ok value ∧
      es = Expr.fromZ [.call "record" [key, value]] := by
  obtain ⟨key, hkey, h⟩ := Result.bind_eq_ok.mp h
  obtain ⟨value, hvalue, h⟩ := Result.bind_eq_ok.mp h
  cases h
  exact ⟨key, value, hkey, hvalue, rfl⟩

theorem shape_none (base : BaseOf) {m : Subject} (h : b.shapeIndexer? m = none) :
    b.shape base m = (b.objectOf base (b.shapeProperties m)).map fun obj =>
      Expr.fromZ [.call "object" [obj]] := by
  cases hps : b.shapeProperties m with
  | nil => simp [shape, h, hps, objectOf, bind, Except.bind, Except.map, pure, Except.pure]
  | cons p ps =>
    simp only [shape, h, hps, bind, Except.bind]
    cases b.objectOf base (p :: ps) <;> rfl

theorem shape_some (base : BaseOf) {m : Subject} {ix : Indexer}
    (h : b.shapeIndexer? m = some ix) :
    b.shape base m = (do
      let r ← b.recordOf base ix
      if (b.shapeProperties m).isEmpty then .ok r
      else (b.objectOf base (b.shapeProperties m)).map fun obj =>
        Expr.fromZ [.call "intersection"
          [.ofParts [Expr.fromZ [.call "object" [obj]]], .ofParts [r]]]) := by
  simp only [shape, h, bind, Except.bind]
  cases b.recordOf base ix with
  | error e => rfl
  | ok r =>
    cases hps : b.shapeProperties m with
    | nil => rfl
    | cons p ps =>
      simp only [Except.map]
      cases b.objectOf base (p :: ps) <;> rfl

/-- The shape of a model, by the properties and the map it has. -/
inductive Shaped (b : Builder) (base : BaseOf) (m : Subject) : List Expr → Prop
  | object {obj : Expr} : b.shapeIndexer? m = none →
      b.objectOf base (b.shapeProperties m) = .ok obj →
      Shaped b base m (Expr.fromZ [.call "object" [obj]])
  | record {ix : Indexer} {key value : Expr} : b.shapeIndexer? m = some ix →
      b.shapeProperties m = [] → b.nested base (b.subject? ix.key) = .ok key →
      b.nested base (b.subject? ix.value) = .ok value →
      Shaped b base m (Expr.fromZ [.call "record" [key, value]])
  | both {ix : Indexer} {key value obj : Expr} : b.shapeIndexer? m = some ix →
      b.shapeProperties m ≠ [] → b.nested base (b.subject? ix.key) = .ok key →
      b.nested base (b.subject? ix.value) = .ok value →
      b.objectOf base (b.shapeProperties m) = .ok obj →
      Shaped b base m (Expr.fromZ [.call "intersection"
        [.ofParts [Expr.fromZ [.call "object" [obj]]],
          .ofParts [Expr.fromZ [.call "record" [key, value]]]]])

theorem shaped_of_shape {m : Subject} {es : List Expr} (h : b.shape base m = .ok es) :
    b.Shaped base m es := by
  cases hix : b.shapeIndexer? m with
  | none =>
    rw [shape_none base hix] at h
    obtain ⟨obj, hobj, rfl⟩ := Result.map_eq_ok.mp h
    exact .object hix hobj
  | some ix =>
    rw [shape_some base hix] at h
    obtain ⟨r, hrecord, h⟩ := Result.bind_eq_ok.mp h
    obtain ⟨key, value, hkey, hvalue, rfl⟩ := recordOf_eq_ok hrecord
    split at h
    · rename_i hempty
      cases h
      exact .record hix (List.isEmpty_iff.mp hempty) hkey hvalue
    · rename_i hsome
      obtain ⟨obj, hobj, rfl⟩ := Result.map_eq_ok.mp h
      exact .both hix (by simpa using hsome) hkey hvalue hobj

theorem Shaped.call {m : Subject} {es : List Expr} (h : b.Shaped base m es) :
    ∃ name args, es = Expr.fromZ [.call name args] := by
  cases h <;> exact ⟨_, _, rfl⟩

/-! ### Unions and enums -/

/-- A variant is its type, or the type in an envelope where the discriminator has one. -/
theorem variant_eq_ok {d : Option Discriminator} {v : NodeId} {e : Expr}
    (h : b.variant base d v = .ok e) :
    ((∀ d' ∈ d, d'.envelope = Discriminator.noEnvelope) ∧
        b.nested base (b.subject? (b.graph.node v).type) = .ok e) ∨
      ∃ d' ∈ d, d'.envelope ≠ Discriminator.noEnvelope ∧
        b.envelope base d' (b.graph.node v) = .ok e := by
  unfold variant at h
  split at h
  · simp at h
  · rename_i node hnode
    rw [Graph.node_of_node? hnode]
    split at h
    · exact .inl ⟨by simp, h⟩
    · rename_i d
      split at h
      · rename_i henvelope
        exact .inl ⟨by simpa using henvelope, h⟩
      · rename_i henvelope
        exact .inr ⟨d, rfl, by simpa using henvelope, h⟩

/-- An envelope has the field of its tag and that of its payload, which adds nothing to the type. -/
theorem envelope_eq_ok (hr : b.registry.Silent) {d : Discriminator} {v : Node} {e : Expr}
    (h : b.envelope base d v = .ok e) :
    ∃ tag payload t, v.type = some t ∧ t < b.graph.nodes.size ∧
      b.field base { node := { kind := .modelProperty, name := d.property } }
        (some { node := { kind := .string, literal := some (.string v.name.toDisplay) } }) =
          .ok tag ∧
      b.field base
        { node := { kind := .modelProperty, name := d.envelopeProperty, type := v.type } } (some (b.graph.subject t)) = .ok payload ∧
      e = .ofParts [Expr.fromZ
        [.call "object" [.object [(d.property, tag), (d.envelopeProperty, payload)]]]] := by
  obtain ⟨tag, htag, h⟩ := Result.bind_eq_ok.mp h
  obtain ⟨payload, hpayload, h⟩ := Result.bind_eq_ok.mp h
  cases h
  obtain ⟨t, htype, hlt, hpayload⟩ := type_of_field hr hpayload
  exact ⟨tag, payload, t, htype, hlt, htag, hpayload, rfl⟩

theorem enumMember_eq_ok (hr : b.registry.Silent) {m : NodeId} {e : Expr}
    (h : b.enumMember base m = .ok e) :
    e = .ofMember (b.graph.node m).name (b.graph.node m).literal := by
  by_cases hm : m < b.graph.nodes.size
  · rw [enumMember_of_silent hr base hm] at h
    cases h
    rfl
  · have hnone : b.graph.subject? m = none := by
      cases hs : b.graph.subject? m with
      | none => rfl
      | some s => exact absurd (Graph.subject?_eq_some hs).1 hm
    simp [enumMember, hnone] at h

/-! ### Base schemas -/

/-- The base schema of a node, by what it is put together from. -/
inductive Composed (b : Builder) (base : BaseOf) (s : Subject) : List Expr → Prop
  | stock {es : List Expr} : s.node.kind ∉ [Kind.model, .union, .tuple] → Stock es →
      Composed b base s es
  | literal {x : Expr} : s.node.kind ∉ [Kind.model, .union, .tuple] →
      Expr.ofLiteral s.node.literal = .ok x → Composed b base s (Expr.fromZ [.call "literal" [x]])
  | member : s.node.kind = .enumMember →
      Composed b base s
        (Expr.fromZ [.call "literal" [Expr.ofMember s.node.name s.node.literal]])
  | enum {elems : List Expr} : s.node.kind = .enum →
      s.node.members.mapM (b.enumMember base) = .ok elems →
      Composed b base s (Expr.fromZ [.call "enum" [.array elems]])
  | tuple {elems : List Expr} : s.node.kind = .tuple →
      s.node.elements.mapM (fun e => b.nested base (b.graph.subject? e)) = .ok elems →
      Composed b base s (Expr.fromZ [.call "tuple" [.array elems]])
  | untagged {elems : List Expr} : s.node.kind = .union → s.node.discriminator = none →
      s.node.variants.mapM (b.variant base s.node.discriminator) = .ok elems →
      Composed b base s (Expr.fromZ [.call "union" [.array elems]])
  | tagged {d : Discriminator} {elems : List Expr} : s.node.kind = .union →
      s.node.discriminator = some d →
      s.node.variants.mapM (b.variant base s.node.discriminator) = .ok elems →
      Composed b base s
        (Expr.fromZ [.call "discriminatedUnion" [.raw d.property.quoteLiteral, .array elems]])
  | array {elem : Expr} : s.node.isArray = true →
      b.nested base (b.subject? (s.node.indexer.bind (·.value))) = .ok elem →
      Composed b base s (Expr.fromZ [.call "array" [elem]])
  | shape {es : List Expr} : s.node.kind = .model → s.node.isArray = false →
      b.mergeBase? s = none → b.shape base s = .ok es → Composed b base s es
  | merged {a : NodeId} {es : List Expr} : s.node.kind = .model → s.node.isArray = false →
      b.mergeBase? s = some a → b.shape base s = .ok es →
      Composed b base s [.ref a, .call "merge" [.ofParts [es]]]
  | property {t : Subject} {es : List Expr} : s.node.kind = .modelProperty →
      b.subject? s.node.type = some t → base t = .ok es → Composed b base s es

theorem composed_of_modelSchema {m : Subject} (hkind : m.node.kind = .model) {es : List Expr}
    (h : b.modelSchema base m = .ok es) : b.Composed base m es := by
  unfold modelSchema at h
  split at h
  · rename_i harray
    obtain ⟨elem, helem, h⟩ := Result.bind_eq_ok.mp h
    cases h
    exact .array harray helem
  · rename_i harray
    have harray : m.node.isArray = false := by simpa using harray
    obtain ⟨shape, hshape, h⟩ := Result.bind_eq_ok.mp h
    split at h
    · rename_i a ha
      cases h
      exact .merged hkind harray ha hshape
    · rename_i hnone
      cases h
      exact .shape hkind harray hnone hshape

theorem composed_of_unionSchema {u : Subject} (hkind : u.node.kind = .union) {es : List Expr}
    (h : b.unionSchema base u.node = .ok es) : b.Composed base u es := by
  obtain ⟨elems, helems, h⟩ := Result.bind_eq_ok.mp h
  split at h
  · rename_i hnone
    cases h
    exact .untagged hkind hnone helems
  · rename_i d hd
    cases h
    exact .tagged hkind hd helems

theorem composed_of_baseStep {s : Subject} {es : List Expr} (h : b.baseStep base s = .ok es) :
    b.Composed base s es := by
  have hliteral : s.node.kind ∉ [Kind.model, .union, .tuple] → (do
      let lit ← Expr.ofLiteral s.node.literal
      .ok (Expr.fromZ [.call "literal" [lit]]) : Result (List Expr)) = .ok es →
      b.Composed base s es := by
    intro hkind h
    obtain ⟨lit, hlit, h⟩ := Result.bind_eq_ok.mp h
    cases h
    exact .literal hkind hlit
  unfold baseStep at h
  cases hkind : s.node.kind with
  | intrinsic =>
    rw [hkind] at h
    cases h
    exact .stock (by simp [hkind]) (stock_intrinsicSchema _)
  | string =>
    rw [hkind] at h
    exact hliteral (by simp [hkind]) h
  | number =>
    rw [hkind] at h
    exact hliteral (by simp [hkind]) h
  | boolean =>
    rw [hkind] at h
    exact hliteral (by simp [hkind]) h
  | scalar =>
    rw [hkind] at h
    refine .stock (by simp [hkind]) ?_
    dsimp only at h
    split at h
    · exact Graph.stock_scalarSchema h
    · cases h
      exact stock_anything
  | model =>
    rw [hkind] at h
    exact composed_of_modelSchema hkind h
  | union =>
    rw [hkind] at h
    exact composed_of_unionSchema hkind h
  | enum =>
    rw [hkind] at h
    obtain ⟨elems, helems, h⟩ := Result.bind_eq_ok.mp h
    cases h
    exact .enum hkind helems
  | enumMember =>
    rw [hkind] at h
    cases h
    exact .member hkind
  | tuple =>
    rw [hkind] at h
    obtain ⟨elems, helems, h⟩ := Result.bind_eq_ok.mp h
    cases h
    exact .tuple hkind helems
  | modelProperty =>
    rw [hkind] at h
    dsimp only at h
    split at h
    · rename_i t ht
      exact .property hkind ht h
    · simp at h
  | _ =>
    rw [hkind] at h
    cases h
    exact .stock (by simp [hkind]) stock_anything

/-- The base schema of a model that is no array is its shape, merged into the base that uses refer
to. -/
theorem Composed.of_shape {m : Subject} {es : List Expr} (h : b.Composed base m es)
    (hkind : m.node.kind = .model) (harray : m.node.isArray = false) :
    ∃ shape, b.shape base m = .ok shape ∧
      ((b.mergeBase? m = none ∧ es = shape) ∨
        ∃ a, b.mergeBase? m = some a ∧ es = [.ref a, .call "merge" [.ofParts [shape]]]) := by
  cases h with
  | shape _ _ hnone hshape => exact ⟨_, hshape, .inl ⟨hnone, rfl⟩⟩
  | merged _ _ ha hshape => exact ⟨_, hshape, .inr ⟨_, ha, rfl⟩⟩
  | array h =>
    rw [harray] at h
    cases h
  | _ => simp_all

/-- The base schema of an array is a call for it, with what is written for the element. -/
theorem Composed.of_array {m : Subject} {es : List Expr} (h : b.Composed base m es)
    (harray : m.node.isArray = true) :
    ∃ elem, b.nested base (b.subject? (m.node.indexer.bind (·.value))) = .ok elem ∧
      es = Expr.fromZ [.call "array" [elem]] := by
  have hkind := Node.kind_of_isArray harray
  cases h with
  | array _ helem => exact ⟨_, helem, rfl⟩
  | _ => simp_all

theorem literal_of_tag {v : Option Value} {es : List Expr}
    (h : b.baseStep base { node := { kind := .string, literal := v } } = .ok es) :
    ∃ x, Expr.ofLiteral v = .ok x ∧ es = Expr.fromZ [.call "literal" [x]] := by
  obtain ⟨x, hx, h⟩ := Result.bind_eq_ok.mp h
  cases h
  exact ⟨x, hx, rfl⟩

/-- What one step makes of base schemas holds of all of them, however deep they are built: at no
depth at all there are none. -/
theorem baseSchema_induction {R : BaseOf → Prop}
    (hstep : ∀ base', (∀ s es, base' s = .ok es → ∃ base, R base ∧ b.baseStep base s = .ok es) →
      R base') (fuel : Nat) (expanding : List NodeId) : R (b.baseSchema fuel expanding) := by
  induction fuel generalizing expanding with
  | zero =>
    apply hstep
    intro s es h
    simp [baseSchema] at h
  | succ fuel ih =>
    apply hstep
    intro s es h
    rw [baseSchema] at h
    split at h
    · simp at h
    · exact ⟨_, ih _, h⟩

theorem baseStep_of_baseSchema {fuel : Nat} {expanding : List NodeId} {s : Subject}
    {es : List Expr} (h : b.baseSchema fuel expanding s = .ok es) :
    ∃ fuel' expanding', b.baseStep (b.baseSchema fuel' expanding') s = .ok es := by
  cases fuel with
  | zero => simp [baseSchema] at h
  | succ fuel =>
    rw [baseSchema] at h
    split at h
    · simp at h
    · exact ⟨_, _, h⟩

/-! ### Without overrides -/

theorem target?_subject (hg : b.graph.Fit) (hr : b.registry = {}) {t : NodeId}
    (ht : t < b.graph.nodes.size) :
    b.target? (b.graph.subject t) = if t ∈ b.graph.declarations then some t else none := by
  by_cases hdecl : t ∈ b.graph.declarations
  · rw [if_pos hdecl]
    exact target?_eq_some.mpr ⟨(refersTo_iff hg hr ht).mpr hdecl, rfl⟩
  · rw [if_neg hdecl]
    exact target?_eq_none.mpr (by simpa using mt (refersTo_iff hg hr ht).mp hdecl)

theorem declare_eq (hr : b.registry = {}) (s : Subject) : b.declare s = b.inline b.base s :=
  declare_of_silent (Registry.silent_of_empty hr) s

end Builder

end SchemaLoom

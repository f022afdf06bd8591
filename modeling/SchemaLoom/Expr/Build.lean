import SchemaLoom.Expr.Constraint
import SchemaLoom.Override

/-!
# Building schema expressions

The expression of a node is its base schema followed by constraints, by the
parts of the field it stands in, and by a description. Declared nodes are
referred to where they are used, all others are written out.

The base schema is the one recursive part; the other builders are given the
base schemas of the nodes they contain. A node that comes up again while its
own base schema is being built cannot be written out.
-/

namespace SchemaLoom

/-- A graph, its overrides, and the declarations that are not initialised yet. -/
structure Builder where
  graph : Graph
  registry : Registry := {}
  pending : List NodeId := []

/-- The base schemas of nodes. -/
abbrev BaseOf := Subject → Result (List Expr)

/-- A node that has a declaration of its own once it is named. -/
def Node.isDeclaration (n : Node) : Bool :=
  match n.kind with
  | .model =>
    !(n.builtIn && (n.name == Text.ofString "Array" || n.name == Text.ofString "Record")) &&
      !n.name.isEmpty
  | .union => !n.name.isEmpty
  | .enum | .scalar => true
  | _ => false

namespace Builder

def override? (b : Builder) (s : Subject) : Option Override := b.registry.find? b.graph s

/-- Uses of the node refer to its declaration. -/
def isReferenced (b : Builder) (s : Subject) : Bool :=
  s.node.isDeclaration && !s.node.builtIn &&
    match b.override? s with
    | some o => !o.noDeclaration
    | none => true

def subject? (b : Builder) (n : Option NodeId) : Option Subject := n.bind b.graph.subject?

/-- A reference; one to a declaration that is not initialised yet is deferred. -/
def refer (b : Builder) (n : NodeId) : Expr :=
  if b.pending.contains n then .lazy n else .ref n

/-- The declaration to refer to, if uses of the node do. -/
def target? (b : Builder) (s : Subject) : Option NodeId :=
  if b.isReferenced s then s.id else none

/-- The nodes whose documentation may describe a node: scalars inherit it. -/
def describedBy (b : Builder) (s : Subject) : List Node :=
  match s.id with
  | some n => if s.node.kind == .scalar then (b.graph.baseChain n).map b.graph.node else [s.node]
  | none => [s.node]

/-- The constraints of a node; one outside the graph has none. -/
def constraints (b : Builder) (s : Subject) (member : Option Node) (inlined : Bool) :
    Result (List Expr) :=
  match s.id with
  | some n => b.graph.constraints n (member.map (·.decorators)) inlined
  | none => .ok []

/-! ### Fields -/

/-- The calls a property adds: optional first, then its default. -/
def memberParts (b : Builder) (prop : Node) (type : Option Subject) : Result (List Expr) := do
  let dflt ← match prop.default with
    | none => .ok []
    | some v => do
      let big ← b.graph.isBig (b.graph.nodes.size + 1) (type.bind (·.id))
      let x ← Expr.ofValue big v
      .ok [Expr.call "default" [x]]
  .ok ((if prop.optional then [Expr.method "optional"] else []) ++ dflt)

def fieldParts (b : Builder) (base : BaseOf) (prop : Node) : Option Subject → Result Parts
  | none => Result.fail .absent
  | some t => do
    let (bs, cs, sources) ← match b.target? t with
      -- the declaration has the limits and the documentation of the type
      | some n => do
        let cs ← b.constraints t (some prop) false
        .ok ([b.refer n], cs, [prop])
      | none => do
        let bs ← base t
        let cs ← b.constraints t (some prop) true
        .ok (bs, cs, prop :: b.describedBy t)
    let member ← b.memberParts prop (some t)
    .ok { base := bs, constraints := cs, member, description := describe sources }

def field (b : Builder) (base : BaseOf) (prop : Subject) (type : Option Subject) : Result Expr :=
  let parts := fun (_ : Unit) => b.fieldParts base prop.node type
  let default := fun (_ : Unit) => (parts ()).map Parts.expr
  -- an override of the property wins over one for uses of its type
  match (b.override? prop).bind (·.declare) with
  | some emit => emit { node := prop.node, member := some prop.node, default, parts }
  | none =>
    match type with
    | none => default ()
    | some t =>
      match (b.override? t).bind (·.reference) with
      | some emit => emit { node := t.node, member := some prop.node, default, parts }
      | none => default ()

def fieldOf (b : Builder) (base : BaseOf) (p : NodeId) : Result Expr :=
  match b.graph.subject? p with
  | none => Result.fail .absent
  | some prop => b.field base prop (b.subject? prop.node.type)

/-! ### Whole expressions -/

def inlineParts (b : Builder) (base : BaseOf) (s : Subject) : Result Parts :=
  if s.node.kind == .modelProperty then b.fieldParts base s.node (b.subject? s.node.type)
  else do
    let bs ← base s
    let cs ← b.constraints s none true
    .ok { base := bs, constraints := cs, description := describe (b.describedBy s) }

def inline (b : Builder) (base : BaseOf) (s : Subject) : Result Expr :=
  (b.inlineParts base s).map Parts.expr

/-- The override for uses of a node, else `default`. -/
def atUse (b : Builder) (base : BaseOf) (s : Subject) (default : Unit → Result Expr) :
    Result Expr :=
  match (b.override? s).bind (·.reference) with
  | some emit => emit { node := s.node, default, parts := fun _ => b.inlineParts base s }
  | none => default ()

/-- A node used inside another expression. -/
def nested (b : Builder) (base : BaseOf) : Option Subject → Result Expr
  | none => Result.fail .absent
  | some s => b.atUse base s fun _ =>
    match b.target? s with
    | some n => .ok (b.refer n)
    | none => b.inline base s

/-! ### Base schemas -/

/-- A model and the ancestors that are written out with it, most derived first. -/
def flattened (b : Builder) (m : Subject) : List Node :=
  m.node :: match m.node.base with
    | none => []
    | some a => ((b.graph.baseChain a).filterMap b.graph.subject?).takeWhile
        (fun s => !b.isReferenced s) |>.map (·.node)

/-- The properties of a model, inherited ones first. -/
def shapeProperties (b : Builder) (m : Subject) : List NodeId :=
  (b.flattened m).reverse.flatMap (·.properties)

/-- The nearest map shape of a model. -/
def shapeIndexer? (b : Builder) (m : Subject) : Option Indexer :=
  (b.flattened m).findSome? fun n => if b.graph.isRecord n then n.indexer else none

def objectOf (b : Builder) (base : BaseOf) (ps : List NodeId) : Result Expr := do
  let fields ← ps.mapM fun p => do
    let x ← b.fieldOf base p
    .ok (b.graph.nameOf p, x)
  .ok (.object fields)

def recordOf (b : Builder) (base : BaseOf) (ix : Indexer) : Result (List Expr) := do
  let key ← b.nested base (b.subject? ix.key)
  let value ← b.nested base (b.subject? ix.value)
  .ok (Expr.fromZ [.call "record" [key, value]])

/-- The own shape of a model: an object, a map, or both. -/
def shape (b : Builder) (base : BaseOf) (m : Subject) : Result (List Expr) := do
  let record ← match b.shapeIndexer? m with
    | none => .ok none
    | some ix => (b.recordOf base ix).map some
  match b.shapeProperties m, record with
  -- an object without fields would add nothing to the map
  | [], some r => .ok r
  | [], none => .ok (Expr.fromZ [.call "object" [.object []]])
  | ps, record => do
    let obj ← b.objectOf base ps
    let shape := Expr.fromZ [.call "object" [obj]]
    match record with
    | none => .ok shape
    | some r => .ok (Expr.fromZ [.call "intersection" [.ofParts [shape], .ofParts [r]]])

/-- The base a model is merged into, if uses of that base refer to it. -/
def mergeBase? (b : Builder) (m : Subject) : Option NodeId :=
  (b.subject? m.node.base).bind b.target?

def modelSchema (b : Builder) (base : BaseOf) (m : Subject) : Result (List Expr) :=
  if m.node.isArray then do
    let elem ← b.nested base (b.subject? (m.node.indexer.bind (·.value)))
    .ok (Expr.fromZ [.call "array" [elem]])
  else do
    let shape ← b.shape base m
    match b.mergeBase? m with
    | some a => .ok [.ref a, .call "merge" [.ofParts [shape]]]
    | none => .ok shape

/-- A variant inside its envelope: an object of the tag and the payload. -/
def envelope (b : Builder) (base : BaseOf) (d : Discriminator) (v : Node) : Result Expr := do
  let tagType : Subject :=
    { node := { kind := .string, literal := some (.string v.name.toDisplay) } }
  let tag ← b.field base { node := { kind := .modelProperty, name := d.property } } (some tagType)
  let payload ← b.field base
    { node := { kind := .modelProperty, name := d.envelopeProperty, type := v.type } }
    (b.subject? v.type)
  .ok (.ofParts [Expr.fromZ
    [.call "object" [.object [(d.property, tag), (d.envelopeProperty, payload)]]]])

def variant (b : Builder) (base : BaseOf) (d : Option Discriminator) (v : NodeId) :
    Result Expr :=
  match b.graph.node? v with
  | none => Result.fail .absent
  | some node =>
    match d with
    | none => b.nested base (b.subject? node.type)
    | some d =>
      if d.envelope == Discriminator.noEnvelope then b.nested base (b.subject? node.type)
      else b.envelope base d node

def unionSchema (b : Builder) (base : BaseOf) (u : Node) : Result (List Expr) := do
  let elems ← u.variants.mapM (b.variant base u.discriminator)
  match u.discriminator with
  | none => .ok (Expr.fromZ [.call "union" [.array elems]])
  | some d => .ok (Expr.fromZ
      [.call "discriminatedUnion" [.raw d.property.quoteLiteral, .array elems]])

/-- One member of an enum; an override of the member replaces it. -/
def enumMember (b : Builder) (base : BaseOf) (m : NodeId) : Result Expr :=
  match b.graph.subject? m with
  | none => Result.fail .absent
  | some s =>
    let default := fun (_ : Unit) => .ok (Expr.ofMember s.node.name s.node.literal)
    match (b.override? s).bind (·.declare) with
    | some emit => emit { node := s.node, default, parts := fun _ => b.inlineParts base s }
    | none => default ()

def intrinsicSchema (name : Text) : List Expr :=
  if intrinsicNames.any (Text.ofString · == name) then Expr.fromZ [.method name]
  else Expr.anything

/-- The base schema of a node from those of the nodes it contains. -/
def baseStep (b : Builder) (base : BaseOf) (s : Subject) : Result (List Expr) :=
  match s.node.kind with
  | .intrinsic => .ok (intrinsicSchema s.node.name)
  | .string | .number | .boolean => do
    let lit ← Expr.ofLiteral s.node.literal
    .ok (Expr.fromZ [.call "literal" [lit]])
  | .scalar =>
    match s.id with
    | some n => b.graph.scalarSchema (b.graph.nodes.size + 1) n
    | none => .ok Expr.anything
  | .model => b.modelSchema base s
  | .union => b.unionSchema base s.node
  | .enum => do
    let elems ← s.node.members.mapM (b.enumMember base)
    .ok (Expr.fromZ [.call "enum" [.array elems]])
  | .enumMember =>
    .ok (Expr.fromZ [.call "literal" [Expr.ofMember s.node.name s.node.literal]])
  | .tuple => do
    let elems ← s.node.elements.mapM fun e => b.nested base (b.graph.subject? e)
    .ok (Expr.fromZ [.call "tuple" [.array elems]])
  | .modelProperty =>
    match b.subject? s.node.type with
    | some t => base t
    | none => Result.fail .absent
  | _ => .ok Expr.anything

def baseSchema (b : Builder) : Nat → List NodeId → Subject → Result (List Expr)
  | 0, _, _ => Result.fail .diverges
  | fuel + 1, expanding, s =>
    -- a node that is built already cannot be written out inside itself
    if s.id.any expanding.contains then
      Result.fail (.recursiveInline (Text.ofString s.node.kind.name) s.node.name)
    else b.baseStep (b.baseSchema fuel (s.id.toList ++ expanding)) s

/-- Deep enough for any graph: each node is expanded once, with one tag below the last. -/
def depth (b : Builder) : Nat := b.graph.nodes.size + 2

/-- The base schema of a node on its own. -/
def base (b : Builder) : BaseOf := b.baseSchema b.depth []

/-! ### Declarations and uses -/

/-- The right-hand side of a declaration. -/
def declare (b : Builder) (s : Subject) : Result Expr :=
  let default := fun (_ : Unit) => b.inline b.base s
  match (b.override? s).bind (·.declare) with
  | some emit => emit { node := s.node, default, parts := fun _ => b.inlineParts b.base s }
  | none => default ()

/-- A node written out even if it has a declaration; overrides of its uses apply. -/
def schema (b : Builder) (s : Subject) : Result Expr :=
  if s.node.kind == .modelProperty then b.field b.base s (b.subject? s.node.type)
  else b.atUse b.base s fun _ => b.inline b.base s

end Builder

end SchemaLoom

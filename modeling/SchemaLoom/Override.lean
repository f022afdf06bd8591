import SchemaLoom.Graph

/-!
# Overrides

An override replaces what would be written for a node: the right-hand side of
its declaration, or the expression where it is used. It is attached to one
node, or to all nodes of a kind, and may take the default rendering apart.
-/

namespace SchemaLoom

/-- The parts of a schema expression, in the order they are chained. -/
structure Parts where
  base : List Expr := []
  constraints : List Expr := []
  member : List Expr := []
  description : List Expr := []
  deriving Inhabited

def Parts.expr (p : Parts) : Expr :=
  .ofParts [p.base, p.constraints, p.member, p.description]

/-- A node, with its place in the graph if it has one. -/
structure Subject where
  id : Option NodeId := none
  node : Node
  deriving Inhabited

def Graph.subject? (g : Graph) (n : NodeId) : Option Subject :=
  (g.node? n).map fun node => { id := some n, node }

/-- What an override is given. The default rendering is made only on demand. -/
structure Context where
  node : Node
  /-- The property, where the override stands for a field. -/
  member : Option Node := none
  /-- What would be written without the override. -/
  default : Unit → Result Expr
  /-- The same in parts. -/
  parts : Unit → Result Parts

/-- Writes an expression in place of the default one. -/
abbrev Emit := Context → Result Expr

/-- The replacements for a node or kind. -/
structure Override where
  declare : Option Emit := none
  reference : Option Emit := none
  /-- Writes the node out wherever it is used. -/
  noDeclaration : Bool := false

structure Registry where
  nodes : List (NodeId × Override) := []
  kinds : List (Kind × Override) := []

namespace Registry

/-- Overrides a node, in place of an earlier override. -/
def forNode (r : Registry) (n : NodeId) (o : Override) : Registry :=
  { r with nodes := (n, o) :: r.nodes }

/-- Overrides a kind, in place of an earlier override. -/
def forKind (r : Registry) (k : Kind) (o : Override) : Registry :=
  { r with kinds := (k, o) :: r.kinds }

def atNode? (r : Registry) (n : NodeId) : Option Override := r.nodes.lookup n

/-- The declared scalars a scalar derives from, nearest first. -/
def declaredAncestors (g : Graph) (s : Subject) : List NodeId :=
  match s.node.base with
  | some b => (g.baseChain b).takeWhile fun a => !(g.node a).builtIn
  | none => []

/-- The override for a node: its own, for a scalar that of its nearest declared ancestor, then
that of its kind. -/
def find? (r : Registry) (g : Graph) (s : Subject) : Option Override :=
  let own := s.id.bind r.atNode?
  let inherited :=
    if s.node.kind == .scalar then (declaredAncestors g s).findSome? r.atNode? else none
  own.or (inherited.or (r.kinds.lookup s.node.kind))

end Registry

end SchemaLoom

import SchemaLoom.Expr.Build
import SchemaLoom.Graph.Group
import SchemaLoom.Module

/-!
# Plans

The declarations of a module in the order they are written: groups with their
dependencies first, inside a group bases before what extends them. While a
group is written, references to its later declarations are deferred.
-/

namespace SchemaLoom

structure Planned where
  node : NodeId
  kind : Kind
  name : Text
  expr : Expr
  /-- The position of its group. -/
  group : Nat
  /-- It takes part in a cycle of references. -/
  cyclic : Bool
  deriving Inhabited

namespace Builder

/-- The declarations that uses refer to. -/
def declared (b : Builder) : List NodeId :=
  b.graph.declarations.filter fun n => (b.graph.subject? n).any b.isReferenced

/-- The declaration of one node, `pending` of its group being left. -/
def planNode (b : Builder) (group : Nat) (cyclic : Bool) (pending : List NodeId) (n : NodeId) :
    Result Planned :=
  match b.graph.subject? n with
  | none => Result.fail .absent
  | some s => do
    let expr ← Result.within (Text.ofString s.node.kind.name ++ " " ++ s.node.name.mentioned)
      ({ b with pending }.declare s)
    .ok { node := n, kind := s.node.kind, name := s.node.name, expr, group, cyclic }

/-- The declarations of one group in order. A node stays pending while it is written. -/
def planGroup (b : Builder) (group : Nat) (cyclic : Bool) : List NodeId → Result (List Planned)
  | [] => .ok []
  | n :: ns => do
    let d ← b.planNode group cyclic (n :: ns) n
    let ds ← b.planGroup group cyclic ns
    .ok (d :: ds)

/-- The declarations of groups, numbered from `i` on. -/
def planGroups (b : Builder) : Nat → List Group → Result (List Planned)
  | _, [] => .ok []
  | i, c :: cs => do
    let ds ← b.planGroup i c.cyclic (b.graph.basesFirst c.nodes)
    let rest ← b.planGroups (i + 1) cs
    .ok (ds ++ rest)

end Builder

/-- Plans a graph. -/
def plan (g : Graph) (r : Registry) : Result (List Planned) := do
  let b : Builder := { graph := g, registry := r }
  let groups ← g.groups b.declared
  b.planGroups 0 groups

def Planned.definition (d : Planned) : Definition :=
  { node := d.node, name := d.name, expr := d.expr }

def renderPlan (g : Graph) (style : NamingStyle) (infer : Bool) (ds : List Planned) :
    Result Text :=
  renderModule style infer g.nameOf (ds.map Planned.definition)

end SchemaLoom

import SchemaLoom.Graph

/-!
# Groups of declarations

Nodes that refer to each other, directly or through others, belong to one group.
Groups are listed with dependencies first. They are found by one depth-first
search: a group is complete when the search leaves the node it was entered at,
and inside a group the node found last comes first.
-/

namespace SchemaLoom

/-- Nodes that reach each other. -/
structure Group where
  nodes : List NodeId
  /-- Its nodes lie on a cycle; a node that refers to itself does. -/
  cyclic : Bool
  deriving DecidableEq, Repr, Inhabited

/-! ### The search -/

/-- What a depth-first search has found so far. -/
structure Search where
  /-- The nodes found, numbered in the order they were found in, newest first. -/
  index : List (NodeId × Nat) := []
  /-- The nodes found that are in no group yet, newest first. -/
  stack : List NodeId := []
  /-- The complete groups, newest first. -/
  groups : List Group := []
  deriving DecidableEq, Repr, Inhabited

namespace Search

/-- The number of a node, once it is found. -/
def index? (s : Search) (v : NodeId) : Option Nat := s.index.lookup v

/-- Numbers a new node and puts it on the stack. -/
def discover (s : Search) (v : NodeId) : Search :=
  { s with index := (v, s.index.length) :: s.index, stack := v :: s.stack }

/-- Takes the nodes down to `v` off the stack. They are a group. -/
def close (s : Search) (v : NodeId) (selfEdge : Bool) : Search :=
  let nodes := s.stack.takeWhile (· != v) ++ [v]
  { s with
    stack := (s.stack.dropWhile (· != v)).drop 1
    groups := { nodes, cyclic := decide (1 < nodes.length) || selfEdge } :: s.groups }

/-- Follows one edge, to `w`. The low link is the least number of a node on the stack that is
known to be reached. -/
def follow (connect : Search → NodeId → Search × Nat) : Search × Nat → NodeId → Search × Nat
  | (s, low), w =>
    match s.index? w with
    | none =>
      let (s, l) := connect s w
      (s, min low l)
    | some i => (s, if s.stack.contains w then min low i else low)

/-- Searches from a new node, no deeper than `fuel`, and gives its low link. -/
def connect (succ : NodeId → List NodeId) : Nat → Search → NodeId → Search × Nat
  | 0, s, _ => (s, 0)
  | fuel + 1, s, v =>
    let (found, low) := (succ v).foldl (follow (connect succ fuel)) (s.discover v, s.index.length)
    -- no older node on the stack is reached, so the group is complete
    if low = s.index.length then (found.close v ((succ v).contains v), low) else (found, low)

/-- Searches from a node unless it is found already. -/
def visit (succ : NodeId → List NodeId) (fuel : Nat) (s : Search) (v : NodeId) : Search :=
  match s.index? v with
  | some _ => s
  | none => (connect succ fuel s v).1

/-- Searches from several nodes in turn. -/
def along (succ : NodeId → List NodeId) (fuel : Nat) (starts : List NodeId) : Search :=
  starts.foldl (visit succ fuel) {}

end Search

namespace Group

/-- The part of a group inside a list, if there is any. -/
def within? (inputs : List NodeId) (c : Group) : Option Group :=
  match c.nodes.filter inputs.contains with
  | [] => none
  | n :: ns => some { c with nodes := n :: ns }

/-- The groups of the inputs; other nodes are passed through and left out. -/
def among (succ : NodeId → List NodeId) (fuel : Nat) (inputs : List NodeId) : List Group :=
  (Search.along succ fuel inputs).groups.reverse.filterMap (within? inputs)

end Group

namespace Graph

def references (g : Graph) (n : NodeId) : List NodeId :=
  let node := g.node n
  match node.kind with
  | .model =>
    node.base.toList ++ (node.indexer.bind (·.key)).toList ++
      (node.indexer.bind (·.value)).toList ++
      node.properties.filterMap fun p => (g.node p).type
  | .union => node.variants.filterMap fun v => (g.node v).type
  | .unionVariant | .modelProperty => node.type.toList
  | .scalar => node.base.toList
  | .tuple => node.elements
  | _ => []

/-- Deeper than a search can get. -/
def searchFuel (g : Graph) : Nat := g.nodes.size + 2

/-- A model or union lists a part that does not exist. -/
def isBroken (g : Graph) (n : NodeId) : Bool :=
  let node := g.node n
  match node.kind with
  | .model => node.properties.any fun p => (g.node? p).isNone
  | .union => node.variants.any fun v => (g.node? v).isNone
  | _ => false

/-- The groups of some nodes, dependencies first. -/
def groups (g : Graph) (inputs : List NodeId) : Result (List Group) :=
  let found := (Search.along g.references g.searchFuel inputs).index
  if found.any fun v => g.isBroken v.1 then Result.fail .absent
  else .ok (Group.among g.references g.searchFuel inputs)

structure Placement where
  placed : List NodeId := []
  order : List NodeId := []
  deriving DecidableEq, Repr, Inhabited

/-- Places a node after its base. -/
def place (g : Graph) (group : List NodeId) : Nat → Placement → NodeId → Placement
  | 0, p, _ => p
  | fuel + 1, p, n =>
    if p.placed.contains n then p
    else
      -- counts as placed before its base is, so that a cycle of bases ends
      let p := { p with placed := n :: p.placed }
      let p := match (g.node n).base with
        | some b => if group.contains b then place g group fuel p b else p
        | none => p
      { p with order := p.order ++ [n] }

/-- Bases come before what is derived from them; the order stays otherwise. -/
def basesFirst (g : Graph) (group : List NodeId) : List NodeId :=
  (group.foldl (place g group (group.length + 1)) {}).order

end Graph

end SchemaLoom

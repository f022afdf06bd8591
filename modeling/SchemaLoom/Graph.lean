import SchemaLoom.Document
import SchemaLoom.Expr

/-!
# Schema graphs

A graph is a store of nodes that refer to each other by position, so sharing
and cycles need nothing special. The store begins with the built-in types; a
declaration is a node the graph lists by name.

A reference past the end of the store denotes nothing. Linked graphs have
none, but a graph put together by hand may.
-/

namespace SchemaLoom

inductive Kind where
  | intrinsic
  | string
  | number
  | boolean
  | scalar
  | model
  | union
  | enum
  | enumMember
  | tuple
  | modelProperty
  | unionVariant
  | scope
  | interface
  | operation
  | unknown
  deriving DecidableEq, Repr, Inhabited

namespace Kind

def name : Kind → String
  | intrinsic => "Intrinsic"
  | string => "String"
  | number => "Number"
  | boolean => "Boolean"
  | scalar => "Scalar"
  | model => "Model"
  | union => "Union"
  | enum => "Enum"
  | enumMember => "EnumMember"
  | tuple => "Tuple"
  | modelProperty => "ModelProperty"
  | unionVariant => "UnionVariant"
  | scope => "Namespace"
  | interface => "Interface"
  | operation => "Operation"
  | unknown => "Unknown"

def all : List Kind :=
  [intrinsic, string, number, boolean, scalar, model, union, enum, enumMember, tuple,
   modelProperty, unionVariant, scope, interface, operation]

def ofName (s : String) : Kind := (all.find? (·.name == s)).getD unknown

end Kind

/-- The element shape of a model: an array without a key, else a map. -/
structure Indexer where
  key : Option NodeId := none
  value : Option NodeId := none
  deriving DecidableEq, Repr, Inhabited

/-- The wire encoding of a scalar. -/
structure Encoding where
  name : Text := []
  type : Option NodeId := none
  deriving DecidableEq, Repr, Inhabited

/-- How the variants of a union are told apart. -/
structure Discriminator where
  property : Text := Text.ofString "kind"
  envelope : Text := Text.ofString "object"
  envelopeProperty : Text := Text.ofString "value"
  deriving DecidableEq, Repr, Inhabited

namespace Discriminator

def objectEnvelope : Text := Text.ofString "object"

def noEnvelope : Text := Text.ofString "none"

end Discriminator

/-- A node. Which fields mean something depends on the kind. -/
structure Node where
  kind : Kind := .intrinsic
  name : Text := []
  builtIn : Bool := false
  /-- The scalar or model it derives from. -/
  base : Option NodeId := none
  properties : List NodeId := []
  indexer : Option Indexer := none
  variants : List NodeId := []
  discriminator : Option Discriminator := none
  members : List NodeId := []
  /-- The enum of a member. -/
  parent : Option NodeId := none
  elements : List NodeId := []
  /-- The type of a property or variant. -/
  type : Option NodeId := none
  optional : Bool := false
  default : Option Value := none
  /-- The value of a literal type or enum member. -/
  literal : Option Value := none
  decorators : Decorators := {}
  encoding : Option Encoding := none
  deriving Inhabited

/-- A store of nodes and the declarations among them, in order. -/
structure Graph where
  nodes : Array Node
  declarations : List NodeId := []
  deriving Inhabited

/-! ### The built-in types -/

/-- The built-in scalars, each with the position of its base. -/
def builtInScalars : List (String × Option NodeId) :=
  [("boolean", none), ("string", none), ("url", some 1), ("bytes", none), ("numeric", none),
   ("integer", some 4), ("int64", some 5), ("int32", some 6), ("int16", some 7),
   ("int8", some 8), ("safeint", some 6), ("uint64", some 5), ("uint32", some 11),
   ("uint16", some 12), ("uint8", some 13), ("float", some 4), ("float64", some 15),
   ("float32", some 16), ("decimal", some 4), ("decimal128", some 18), ("plainDate", none),
   ("plainTime", none), ("utcDateTime", none), ("offsetDateTime", none), ("duration", none)]

def intrinsicNames : List String := ["null", "never", "unknown", "void"]

def builtInNodes : List Node :=
  builtInScalars.map (fun (name, base) => { kind := .scalar, name, builtIn := true, base }) ++
    intrinsicNames.map fun name => { kind := .intrinsic, name, builtIn := true }

/-- The names no declaration may take. -/
def builtInNames : List Text := builtInNodes.map (·.name)

namespace Graph

/-- The graph of the built-in types. -/
def empty : Graph := { nodes := builtInNodes.toArray }

def node? (g : Graph) (n : NodeId) : Option Node := g.nodes[n]?

/-- The node at a position; one of no kind past the end. -/
def node (g : Graph) (n : NodeId) : Node := (g.node? n).getD { kind := .unknown }

def nameOf (g : Graph) (n : NodeId) : Text := (g.node n).name

def builtin? (name : Text) : Option NodeId := builtInNames.findIdx? (· == name)

/-- The built-in string scalar. -/
def stringType : NodeId := 1

def declaration? (g : Graph) (name : Text) : Option NodeId :=
  g.declarations.find? fun n => g.nameOf n == name

/-- What a name denotes: a declaration, else a built-in type. -/
def lookup? (g : Graph) (name : Text) : Option NodeId :=
  (g.declaration? name).or (builtin? name)

/-- Appends a node to the store. -/
def push (g : Graph) (n : Node) : NodeId × Graph :=
  (g.nodes.size, { g with nodes := g.nodes.push n })

def modify (g : Graph) (n : NodeId) (f : Node → Node) : Graph :=
  { g with nodes := g.nodes.modify n f }

/-- Lists a node as a declaration. Its name must be new. -/
def declare (g : Graph) (n : NodeId) : Result Graph :=
  let name := g.nameOf n
  if name.isEmpty then Result.fail .unnamed
  else if (g.declaration? name).isSome then Result.fail (.duplicateName name)
  else if (builtin? name).isSome then Result.fail (.builtInName name)
  else .ok { g with declarations := g.declarations ++ [n] }

/-! ### Base chains -/

/-- A node and its ancestors, most derived first, at most `fuel` of them. -/
def ancestors (g : Graph) : Nat → NodeId → List NodeId
  | 0, _ => []
  | fuel + 1, n =>
    match g.node? n with
    | none => []
    | some node =>
      n :: match node.base with
        | none => []
        | some b => g.ancestors fuel b

/-- A node and its ancestors, most derived first. A chain that does not end is cut. -/
def baseChain (g : Graph) (n : NodeId) : List NodeId := g.ancestors g.nodes.size n

/-- The chain comes back to a node it has passed: one node more than there are is too many. -/
def baseLoops (g : Graph) (n : NodeId) : Bool :=
  decide (g.nodes.size < (g.ancestors (g.nodes.size + 1) n).length)

/-- The first declaration whose base chain does not end. -/
def checkBases (g : Graph) : Result Unit :=
  match g.declarations.find? g.baseLoops with
  | some n => Result.within (g.nameOf n).mentioned (Result.fail .baseCycle)
  | none => .ok ()

/-- The nearest built-in scalar of a chain that has only scalars up to it. -/
def builtInBase? (g : Graph) (n : NodeId) : Option NodeId :=
  match (g.baseChain n).dropWhile fun a => (g.node a).kind == .scalar && !(g.node a).builtIn with
  | a :: _ => if (g.node a).kind == .scalar then some a else none
  | [] => none

/-- The name of the nearest built-in scalar. -/
def builtInBaseName? (g : Graph) (n : NodeId) : Option Text :=
  (g.builtInBase? n).map g.nameOf

/-- The built-in type `name` is on the chain. -/
def derives (g : Graph) (n : NodeId) (name : Text) : Bool :=
  (g.baseChain n).any fun a => (g.node a).builtIn && (g.node a).name == name

/-- The nearest encoding on the chain. -/
def encoding? (g : Graph) (n : NodeId) : Option Encoding :=
  (g.baseChain n).findSome? fun a => (g.node a).encoding

end Graph

/-! ### Shapes -/

namespace Node

/-- A model with elements and no keys. -/
def isArray (n : Node) : Bool :=
  n.kind == .model &&
    match n.indexer with
    | some ix => ix.key.isNone
    | none => false

end Node

/-- A model with string keys. -/
def Graph.isRecord (g : Graph) (n : Node) : Bool :=
  n.kind == .model &&
    match n.indexer.bind (·.key) with
    | some k =>
      let key := g.node k
      key.builtIn && key.kind == .scalar && key.name == Text.ofString "string"
    | none => false

end SchemaLoom

import SchemaLoom.Text

/-!
# Schema expressions

The expressions of a generated module, before they are laid out as text.
Declarations are referred to by node; which identifier a node gets is decided
by the printer's caller.
-/

namespace SchemaLoom

/-- The identity of a node of a schema graph. -/
abbrev NodeId := Nat

/-- An expression of the generated module. -/
inductive Expr where
  /-- A bare identifier. -/
  | ident (name : Text)
  /-- A call; inside a chain, a method call. -/
  | call (name : Text) (args : List Expr)
  /-- Parts joined by dots. -/
  | chain (parts : List Expr)
  /-- The declaration of a node. -/
  | ref (node : NodeId)
  /-- The declaration of a node, looked up when the schema is used. -/
  | lazy (node : NodeId)
  | object (props : List (Text × Expr))
  | array (elems : List Expr)
  /-- Finished source text. -/
  | raw (text : Text)
  | nothing
  deriving Repr, Inhabited

namespace Expr

/-- The name the schema library is imported under. -/
def z : Expr := ident "z"

/-- Parts of a chain that starts at the schema library. -/
def fromZ (parts : List Expr) : List Expr := z :: parts

def method (name : Text) : Expr := call name []

def isCall : Expr → Bool
  | call _ _ => true
  | _ => false

/-- The parts an expression contributes to a chain: a chain is spliced in. -/
def parts : Expr → List Expr
  | chain ps => ps
  | e => [e]

/-- One expression from groups of parts. A single part that is no call stands alone. -/
def ofParts (groups : List (List Expr)) : Expr :=
  match groups.flatten.flatMap parts with
  | [e] => if e.isCall then chain [e] else e
  | ps => chain ps

mutual
/-- The nodes an expression mentions, in order, deferred or not. -/
def targets : Expr → List NodeId
  | ident _ => []
  | call _ args => targetsOf args
  | chain ps => targetsOf ps
  | ref n => [n]
  | lazy n => [n]
  | object props => targetsOfProps props
  | array elems => targetsOf elems
  | raw _ => []
  | nothing => []

def targetsOf : List Expr → List NodeId
  | [] => []
  | e :: es => e.targets ++ targetsOf es

def targetsOfProps : List (Text × Expr) → List NodeId
  | [] => []
  | p :: ps => targetsOfProp p ++ targetsOfProps ps

def targetsOfProp : Text × Expr → List NodeId
  | (_, e) => e.targets
end

end Expr

end SchemaLoom

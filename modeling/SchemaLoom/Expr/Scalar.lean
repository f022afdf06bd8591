import SchemaLoom.Expr
import SchemaLoom.Graph

/-!
# Scalars

The base schema of a scalar is that of its nearest built-in ancestor. Dates and
durations with an encoding are written as the type that carries them.
-/

namespace SchemaLoom

namespace Expr

/-- `z` with methods that take no arguments. -/
def plain (names : List String) : List Expr := fromZ (names.map fun n => method (Text.ofString n))

def anything : List Expr := plain ["any"]

def coercedDate : List Expr := fromZ [ident "coerce", method "date"]

end Expr

namespace Graph

/-- The type a date or duration is carried by, if its encoding gives one. -/
def carrier? (g : Graph) (n : NodeId) : Option NodeId := do
  let std ← g.builtInBaseName? n
  let enc ← g.encoding? n
  let t ← enc.type
  match std.toDisplay with
  | "utcDateTime" | "offsetDateTime" =>
    if enc.name == Text.ofString "rfc3339" then none else some t
  | "duration" => if enc.name == Text.ofString "ISO8601" then none else some t
  | _ => none

/-- The base schema of a scalar that no carrier stands for. -/
def ownScalarSchema (g : Graph) (n : NodeId) : List Expr :=
  match (g.builtInBaseName? n).map Text.toDisplay with
  | some "boolean" => Expr.plain ["boolean"]
  | some "string" => Expr.plain ["string"]
  | some "url" => Expr.plain ["string", "url"]
  | some "int8" | some "int16" | some "int32" | some "uint8" | some "uint16" | some "uint32"
  | some "safeint" => Expr.plain ["number", "int"]
  | some "int64" | some "uint64" | some "integer" => Expr.plain ["bigint"]
  | some "float32" | some "float64" | some "float" | some "decimal" | some "decimal128"
  | some "numeric" => Expr.plain ["number"]
  | some "plainDate" => Expr.coercedDate
  | some "plainTime" => Expr.plain ["string", "time"]
  | some "utcDateTime" | some "offsetDateTime" =>
    if (g.encoding? n).map (·.name) == some (Text.ofString "rfc3339") then
      Expr.plain ["string", "datetime"]
    else Expr.coercedDate
  | some "duration" => Expr.plain ["string", "duration"]
  | _ => Expr.anything

/-- The base schema of a scalar: carriers are followed to their end. -/
def scalarSchema (g : Graph) : Nat → NodeId → Result (List Expr)
  | 0, _ => Result.fail .diverges
  | fuel + 1, n =>
    match g.carrier? n with
    | some c => g.scalarSchema fuel c
    | none => .ok (g.ownScalarSchema n)

/-- Names of the built-in scalars whose values are big integers. -/
def bigNames : List Text := ["int64", "uint64", "integer"]

/-- A scalar whose values, or those of its carrier, are big integers. -/
def isBigScalar (g : Graph) (n : NodeId) : Bool :=
  match g.builtInBaseName? ((g.carrier? n).getD n) with
  | some name => bigNames.contains name
  | none => false

/-- Values of a type are written as big integers; an array is judged by its elements. -/
def isBig (g : Graph) : Nat → Option NodeId → Result Bool
  | 0, _ => Result.fail .diverges
  | _ + 1, none => .ok false
  | fuel + 1, some n =>
    if (g.node n).isArray then g.isBig fuel ((g.node n).indexer.bind (·.value))
    else .ok (g.isBigScalar n)

end Graph

end SchemaLoom

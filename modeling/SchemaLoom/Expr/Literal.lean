import SchemaLoom.Expr
import SchemaLoom.Value

/-!
# Literal expressions

Values as source text of the generated module.
-/

namespace SchemaLoom

/-- A number by its own text, or as a big integer. -/
def Number.literal (n : Number) (big : Bool) : Text :=
  match big, n.intText? with
  | true, some t => t ++ "n"
  | _, _ => n.text

def boolText (b : Bool) : Text := if b then "true" else "false"

namespace Expr

def quoted (s : String) : Expr := raw (Text.ofString s).quoteLiteral

def integer (n : Int) : Expr := raw (Text.ofInt n)

mutual
/-- The expression of a value; integers are written as big integers on demand. -/
def ofValue (big : Bool) : Value → Result Expr
  | .string s => .ok (quoted s)
  | .numeric n => .ok (raw (n.literal big))
  | .boolean b => .ok (raw (boolText b))
  | .null => .ok (raw "null")
  | .array items => (ofValues big items).map array
  | .scalar _ constructor args =>
    match constructor, args with
    | "fromISO", [.string s] => .ok (quoted s)
    | _, _ =>
      Result.fail (.unsupportedValue
        ("unsupported scalar constructor " ++ (Text.ofString constructor).quoteForMessage))
  | .object => Result.fail (.unsupportedValue "unsupported default value kind")
  | .unknown => Result.fail (.unsupportedValue "unsupported default value kind")

def ofValues (big : Bool) : List Value → Result (List Expr)
  | [] => .ok []
  | v :: vs => do
    let x ← ofValue big v
    let xs ← ofValues big vs
    .ok (x :: xs)
end

def ofLiteral : Option Value → Result Expr
  | none => Result.fail (.unsupportedValue "literal has no value")
  | some v =>
    if v.isPrimitive then ofValue false v
    else Result.fail
      (.unsupportedValue "literal types must be strings, numbers or booleans")

/-- An enum member: its number or string, else its name. -/
def ofMember (name : Text) : Option Value → Expr
  | some (.numeric n) => raw n.text
  | some (.string s) => quoted s
  | _ => raw name.quoteLiteral

end Expr

end SchemaLoom

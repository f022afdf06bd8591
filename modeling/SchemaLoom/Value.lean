import SchemaLoom.Number

/-!
# Values

The literal values of a schema: defaults, literal types and enum members.
-/

namespace SchemaLoom

/-- A literal value. A mapping is a constructor call of a scalar, or an object of which nothing
is kept. -/
inductive Value where
  | string (s : String)
  | numeric (n : Number)
  | boolean (b : Bool)
  | null
  | array (items : List Value)
  | scalar (name constructor : String) (args : List Value)
  | object
  /-- A value of no known form. -/
  | unknown
  deriving Repr, Inhabited

namespace Value

def isString : Value → Bool
  | string _ => true
  | _ => false

def isNumeric : Value → Bool
  | numeric _ => true
  | _ => false

/-- Strings, numbers and booleans can stand as literal types. -/
def isPrimitive : Value → Bool
  | string _ | numeric _ | boolean _ => true
  | _ => false

end Value

end SchemaLoom

import SchemaLoom.Expr.Literal
import SchemaLoom.Expr.Scalar
import SchemaLoom.Naming

/-!
# Constraints

The calls that narrow a base schema. The decorators of a field, of its type and
of the ancestors of the type apply together, so limits of one kind are narrowed
to the tightest; numbers are further limited by the range of the built-in type.
-/

namespace SchemaLoom

/-! ### Numbers -/

structure Range where
  min : Option Number := none
  minExclusive : Option Number := none
  max : Option Number := none
  maxExclusive : Option Number := none
  /-- Only integers that a double can tell apart. -/
  safe : Bool := false
  deriving DecidableEq, Repr, Inhabited

namespace Range

def ofInts (lo hi : Int) : Range :=
  { min := some (Number.ofInt lo), max := some (Number.ofInt hi) }

/-- The largest single-precision number, as it is written. -/
def singleLimit : Number := ⟨(34028235 * tenTo 31 : Nat), Text.ofString "3.4028235e+38"⟩

def singleFloor : Number := ⟨-(34028235 * tenTo 31 : Nat), Text.ofString "-3.4028235e+38"⟩

/-- The range of a built-in number type. -/
def intrinsic (name : String) : Range :=
  match name with
  | "int8" => ofInts (-128) 127
  | "int16" => ofInts (-32768) 32767
  | "int32" => ofInts (-2147483648) 2147483647
  | "int64" => ofInts (-9223372036854775808) 9223372036854775807
  | "uint8" => ofInts 0 255
  | "uint16" => ofInts 0 65535
  | "uint32" => ofInts 0 4294967295
  | "uint64" => ofInts 0 18446744073709551615
  | "float32" => { min := some singleFloor, max := some singleLimit }
  | "safeint" => { safe := true }
  | _ => {}

def narrow (r : Range) (d : Decorators) : Range :=
  { r with
    min := Number.max? r.min d.minValue
    minExclusive := Number.max? r.minExclusive d.minValueExclusive
    max := Number.min? r.max d.maxValue
    maxExclusive := Number.min? r.maxExclusive d.maxValueExclusive }

/-- The limits all decorators set together. -/
def ofDecorators (ds : List Decorators) : Range := ds.foldl narrow {}

/-- Keeps one lower limit. -/
def settleLower (r : Range) : Range :=
  -- at the same number the inclusive one stays
  match r.min, r.minExclusive with
  | some lo, some ex => if lo.lt ex then { r with min := none } else { r with minExclusive := none }
  | _, _ => r

/-- Keeps one upper limit. -/
def settleUpper (r : Range) : Range :=
  match r.max, r.maxExclusive with
  | some hi, some ex => if ex.lt hi then { r with max := none } else { r with maxExclusive := none }
  | _, _ => r

/-- The lower limits of settled decorators against the least value of the type. -/
def mergeLower (floor min minExclusive : Option Number) : Option Number × Option Number :=
  match floor, min, minExclusive with
  | none, lo, ex => (lo, ex)
  | some fl, some lo, ex => (some (if lo.lt fl then fl else lo), ex)
  | some fl, none, some ex => if ex.lt fl then (some fl, none) else (none, some ex)
  | some fl, none, none => (some fl, none)

/-- The upper limits of settled decorators against the greatest value of the type. -/
def mergeUpper (ceiling max maxExclusive : Option Number) : Option Number × Option Number :=
  match ceiling, max, maxExclusive with
  | none, hi, ex => (hi, ex)
  | some ce, some hi, ex => (some (if ce.lt hi then ce else hi), ex)
  | some ce, none, some ex => if ce.lt ex then (some ce, none) else (none, some ex)
  | some ce, none, none => (some ce, none)

/-- The limits of a type and of decorators, the tighter one on each side. -/
def reconcile (type decorators : Range) : Range :=
  let d := decorators.settleLower.settleUpper
  let lower := mergeLower type.min d.min d.minExclusive
  let upper := mergeUpper type.max d.max d.maxExclusive
  { min := lower.1, minExclusive := lower.2, max := upper.1, maxExclusive := upper.2,
    safe := type.safe }

end Range

def limitMethod (name : Text) : Result String :=
  match name.toDisplay with
  | "min" => .ok "gte"
  | "max" => .ok "lte"
  | "minExclusive" => .ok "gt"
  | "maxExclusive" => .ok "lt"
  | _ => Result.fail (.unknownConstraint name)

namespace Range

def limitCall (big : Bool) (name : String) (n : Number) : Result Expr := do
  let method ← limitMethod (Text.ofString name)
  .ok (.call (Text.ofString method) [.raw (n.literal big)])

/-- The call for the lower limit; zero has its own. -/
def minCall (big : Bool) (n : Number) : Result Expr :=
  if n.isZero then .ok (.method "nonnegative") else limitCall big "min" n

def calls (r : Range) (big : Bool) : Result (List Expr) := do
  let lo ← r.min.toList.mapM (minCall big)
  let loEx ← r.minExclusive.toList.mapM (limitCall big "minExclusive")
  let hi ← r.max.toList.mapM (limitCall big "max")
  let hiEx ← r.maxExclusive.toList.mapM (limitCall big "maxExclusive")
  .ok ((if r.safe then [Expr.method "safe"] else []) ++ lo ++ loEx ++ hi ++ hiEx)

end Range

def numberCalls (ds : List Decorators) (type : Range) (big : Bool) : Result (List Expr) :=
  (Range.reconcile type (Range.ofDecorators ds)).calls big

/-! ### Counts -/

/-- The smaller of two optional integers, the first on a tie. -/
def minInt? : Option Int → Option Int → Option Int
  | none, b => b
  | some a, none => some a
  | some a, some b => if b < a then some b else some a

/-- The larger of two optional integers, the first on a tie. -/
def maxInt? : Option Int → Option Int → Option Int
  | none, b => b
  | some a, none => some a
  | some a, some b => if a < b then some b else some a

/-! ### Strings -/

/-- Puts a backslash before each slash that has none. -/
def escapeSlashes : Bool → List Char → List Char
  | _, [] => []
  | true, c :: cs => c :: escapeSlashes false cs
  | false, c :: cs =>
    if c = '\\' then c :: escapeSlashes true cs
    else if c = '/' then '\\' :: c :: escapeSlashes false cs
    else c :: escapeSlashes false cs

def regexLiteral (pattern : List Char) : List Char :=
  '/' :: escapeSlashes false pattern ++ ['/']

def formatMethod? (format : String) : Option String :=
  match format with
  | "date-time" => some "datetime"
  | "uri" => some "url"
  | "ipv4" => some "ip"
  | "ipv6" => some "ip"
  | f => if isIdentifier f.toList then some f else none

def firstText (ts : List String) : String := (ts.find? (! ·.isEmpty)).getD ""

def stringCalls (ds : List Decorators) : List Expr :=
  let lo := ds.foldl (fun m d => maxInt? m d.minLength) none
  let hi := ds.foldl (fun m d => minInt? m d.maxLength) none
  let pattern := firstText (ds.map (·.pattern))
  let format := firstText (ds.map (·.format))
  -- every length is zero or more
  (match lo with
    | some n => if n = 0 then [] else [.call "min" [.integer n]]
    | none => []) ++
  (hi.map fun n => Expr.call "max" [.integer n]).toList ++
  (if pattern.isEmpty then []
    else [.call "regex" [.raw (Text.ofChars (regexLiteral pattern.toList))]]) ++
  ((formatMethod? format).map fun m => Expr.method (Text.ofString m)).toList

/-! ### Arrays -/

/-- A call that limits a count, if it limits anything. -/
def countCall (name : String) : Option Int → List Expr
  | some n => if 0 < n then [.call (Text.ofString name) [.integer n]] else []
  | none => []

def arrayCalls (ds : List Decorators) : List Expr :=
  countCall "min" (ds.foldl (fun m d => maxInt? m d.minItems) none) ++
    countCall "max" (ds.foldl (fun m d => minInt? m d.maxItems) none)

/-! ### Types -/

namespace Graph

/-- The decorators that apply to a type, most specific first. -/
def sources (g : Graph) (t : NodeId) (member : Option Decorators) (inlined : Bool) :
    List Decorators :=
  member.toList ++ if inlined then (g.baseChain t).map fun a => (g.node a).decorators else []

/-- The range of the built-in number type a type derives from. -/
def builtInRange (g : Graph) (t : NodeId) : Result Range :=
  match g.builtInBaseName? t with
  | some name => .ok (Range.intrinsic name.toDisplay)
  | none => Result.fail .absent

/-- The calls that narrow a type, a referenced one in addition to its declaration. -/
def constraints (g : Graph) (t : NodeId) (member : Option Decorators) (inlined : Bool) :
    Result (List Expr) :=
  let ds := g.sources t member inlined
  let node := g.node t
  if node.kind == .scalar then
    match g.carrier? t with
    -- decorators are about the date or duration, and only the range about the carrier
    | some c =>
      if !inlined || !g.derives c "numeric" then .ok []
      else do
        let range ← g.builtInRange c
        let big ← g.isBig (g.nodes.size + 1) (some c)
        numberCalls [] range big
    | none =>
      if g.derives t "numeric" then do
        let range ← if inlined then g.builtInRange t else .ok {}
        let big ← g.isBig (g.nodes.size + 1) (some t)
        numberCalls ds range big
      else if g.derives t "string" then .ok (stringCalls ds)
      else .ok []
  else if node.isArray then .ok (arrayCalls ds)
  else .ok []

end Graph

/-! ### Descriptions -/

/-- White space inside a line or at its end. -/
def isLineBlank (c : Char) : Bool :=
  c == '\t' || c == '\n' || c == '\x0c' || c == '\r' || c == ' '

/-- A run of white space, given backwards: one that holds a line break becomes a space. -/
def foldBlanks (run : List Char) : List Char :=
  if run.contains '\n' then [' '] else run.reverse

/-- Joins lines. `run` is the white space just read, backwards. -/
def joinLines (run : List Char) : List Char → List Char
  | [] => foldBlanks run
  | c :: cs =>
    if isLineBlank c then joinLines (c :: run) cs
    else foldBlanks run ++ c :: joinLines [] cs

def trimBlanks (cs : List Char) : List Char :=
  ((cs.dropWhile isBlank).reverse.dropWhile isBlank).reverse

/-- A documentation text as one line. -/
def docLine (doc : String) : List Char := trimBlanks (joinLines [] doc.toList)

/-- The description by the first node that has one; built-in types describe nothing. -/
def describe (sources : List Node) : List Expr :=
  match sources.findSome? fun n =>
    let line := docLine n.decorators.doc
    if n.builtIn || line.isEmpty then none else some line with
  | some line => [.call "describe" [.raw (Text.ofChars (Text.quoteChars line))]]
  | none => []

end SchemaLoom

import SchemaLoom.Number.Double
import SchemaLoom.Yaml.Timestamp

/-!
# Tags of plain scalars

What a plain scalar denotes: null, a boolean, an integer, a double, a moment or
the string itself. Integers fit 64 bits, signed or unsigned; wider ones read as
doubles.
-/

namespace SchemaLoom.Yaml

inductive Scalar where
  | null
  | bool (b : Bool)
  | int (n : Int)
  /-- A double; `none` stands for infinities and not-a-number. -/
  | float (x : Option Double) (infinite negative : Bool)
  | moment (m : Moment)
  | string (s : String)
  deriving Repr, Inhabited

namespace Scalar

def tag : Scalar → String
  | null => "!!null"
  | bool _ => "!!bool"
  | int _ => "!!int"
  | float .. => "!!float"
  | moment _ => "!!timestamp"
  | string _ => "!!str"

end Scalar

def longTagStart : String := "tag:yaml.org,2002:"

def shortTag (t : String) : String :=
  if t.startsWith longTagStart then "!!" ++ t.drop longTagStart.length else t

/-! ### Integers -/

def digitIn? (base : Nat) (c : Char) : Option Nat :=
  let d := if c.isDigit then some (c.toNat - 48)
    else if c.isLower then some (c.toNat - 87)
    else if c.isUpper then some (c.toNat - 55)
    else none
  d.filter (· < base)

/-- Digits of a base, at least one. -/
def natIn? (base : Nat) (cs : List Char) : Option Nat :=
  if cs.isEmpty then none
  else cs.foldlM (fun n c => (digitIn? base c).map (n * base + ·)) 0

/-- Digits behind a base marker; a leading zero alone marks octal. -/
def natMarked? : List Char → Option Nat
  | ['0'] => some 0
  | '0' :: m :: rest =>
    match m.toLower with
    | 'x' => natIn? 16 rest
    | 'b' => natIn? 2 rest
    | 'o' => natIn? 8 rest
    | _ => natIn? 8 (m :: rest)
  | cs => natIn? 10 cs

def splitSign : List Char → Option Bool × List Char
  | '-' :: rest => (some true, rest)
  | '+' :: rest => (some false, rest)
  | cs => (none, cs)

/-- An integer of 64 bits, signed, or unsigned without a sign. -/
def int? (cs : List Char) : Option Int := do
  let (sign, ds) := splitSign cs
  let n ← natMarked? ds
  match sign with
  | some true => if n ≤ twoTo 63 then some (-(n : Int)) else none
  | some false => if n < twoTo 63 then some n else none
  | none => if n < twoTo 64 then some n else none

/-- Integers that spell a sign behind their base marker. -/
def lateSigned? (cs : List Char) : Option Int :=
  let signed (base : Nat) (outer : Bool) (ds : List Char) : Option Int := do
    let (inner, ds) := splitSign ds
    if outer && inner.isSome then none
    let n ← natIn? base ds
    let neg := outer || inner == some true
    if neg then (if n ≤ twoTo 63 then some (-(n : Int)) else none)
    else if n < twoTo 63 then some (n : Int)
    else if inner.isNone && n < twoTo 64 then some (n : Int)
    else none
  match cs with
  | '0' :: 'b' :: ds => signed 2 false ds
  | '-' :: '0' :: 'b' :: ds => signed 2 true ds
  | '0' :: 'o' :: ds => signed 8 false ds
  | '-' :: '0' :: 'o' :: ds => signed 8 true ds
  | _ => none

/-! ### Doubles -/

/-- The value of a decimal with digits on at least one side of the point. -/
def decimalParts? (cs : List Char) : Option (Bool × Nat × Int) := do
  let (sign, cs) := splitSign cs
  let whole := cs.takeWhile Char.isDigit
  let cs := cs.dropWhile Char.isDigit
  let (frac, cs) := match cs with
    | '.' :: rest => (rest.takeWhile Char.isDigit, rest.dropWhile Char.isDigit)
    | _ => ([], cs)
  if whole.isEmpty && frac.isEmpty then none
  let exp : Int ← match cs with
    | [] => some 0
    | e :: rest =>
      if e != 'e' && e != 'E' then none
      else do
        let (esign, ds) := splitSign rest
        let n ← if ds.all Char.isDigit then natIn? 10 ds else none
        some (if esign == some true then -(n : Int) else n)
  let mant := (whole ++ frac).foldl (fun n c => n * 10 + (c.toNat - 48)) 0
  some (sign == some true, mant, exp - frac.length)

/-- A decimal within the range of doubles. -/
def double? (cs : List Char) : Option Double := do
  let (neg, mant, exp) ← decimalParts? cs
  Double.ofDecimal? neg mant exp

/-- Underscores stand between digits only. -/
def underscoresOk : Bool → List Char → Bool
  | _, [] => true
  | digitBefore, '_' :: rest =>
    digitBefore && (rest.head?.map Char.isDigit).getD false && underscoresOk false rest
  | _, c :: rest => underscoresOk c.isDigit rest

/-! ### Resolution -/

def specialScalars : List (String × Scalar) :=
  [("", .null), ("~", .null), ("null", .null), ("Null", .null), ("NULL", .null),
   ("true", .bool true), ("True", .bool true), ("TRUE", .bool true),
   ("false", .bool false), ("False", .bool false), ("FALSE", .bool false),
   (".nan", .float none false false), (".NaN", .float none false false),
   (".NAN", .float none false false),
   (".inf", .float none true false), (".Inf", .float none true false),
   (".INF", .float none true false),
   ("+.inf", .float none true false), ("+.Inf", .float none true false),
   ("+.INF", .float none true false),
   ("-.inf", .float none true true), ("-.Inf", .float none true true),
   ("-.INF", .float none true true)]

/-- What a scalar denotes when moments are considered or not. -/
def resolveWith (moments : Bool) (text : String) : Scalar :=
  match specialScalars.lookup text with
  | some s => s
  | none =>
    let cs := text.toList
    match cs with
    | [] => .null
    | c :: _ =>
      if c == '.' then
        if underscoresOk false cs then
          match double? (cs.filter (· != '_')) with
          | some x => .float (some x) false false
          | none => .string text
        else .string text
      else if c.isDigit || c == '+' || c == '-' then
        match (if moments then moment? cs else none) with
        | some m => .moment m
        | none =>
          let plain := cs.filter (· != '_')
          match int? plain with
          | some n => .int n
          | none =>
            match double? plain with
            | some x => .float (some x) false false
            | none =>
              match lateSigned? plain with
              | some n => .int n
              | none => .string text
      else .string text

/-- What a plain scalar without a tag denotes. -/
def resolvePlain (text : String) : Scalar := resolveWith true text

/-- What a scalar with a short tag denotes; nothing when the tag does not fit. -/
def resolve? (tag text : String) : Option Scalar :=
  if tag == "!!str" || tag == "!!binary" then some (.string text)
  else
    let s := resolveWith (tag == "!!timestamp") text
    if s.tag == tag then some s
    else match tag, s with
      | "!!float", .int n =>
        if isSigned 64 n then
          some (.float (Double.ofFraction? (n < 0) n.natAbs 1) false false)
        else none
      | _, _ => none

end SchemaLoom.Yaml

import SchemaLoom.Json

/-!
# Reading JSON

The grammar of JSON, without any extension: what the reader accepts is one
value with blanks around it.
-/

namespace SchemaLoom.Json

def isGap (c : Char) : Bool := c == ' ' || c == '\t' || c == '\n' || c == '\r'

def skipGaps (cs : List Char) : List Char := cs.dropWhile isGap

/-- Takes a word off the front. -/
def word? : List Char → List Char → Option (List Char)
  | [], cs => some cs
  | w :: ws, c :: cs => if w = c then word? ws cs else none
  | _ :: _, [] => none

/-! ### Strings -/

def hexValue? (c : Char) : Option Nat :=
  if c.isDigit then some (c.toNat - 48)
  else if 'a' ≤ c && c ≤ 'f' then some (c.toNat - 87)
  else if 'A' ≤ c && c ≤ 'F' then some (c.toNat - 55)
  else none

/-- The character of a one-letter escape. -/
def escaped? (c : Char) : Option Char :=
  match c with
  | '"' => some '"'
  | '\\' => some '\\'
  | '/' => some '/'
  | 'b' => some '\x08'
  | 'f' => some '\x0c'
  | 'n' => some '\n'
  | 'r' => some '\r'
  | 't' => some '\t'
  | _ => none

/-- The code units of a string up to its closing quote, and the rest behind it. -/
def stringBody? : List Char → Option (List Nat × List Char)
  | [] => none
  | '"' :: rest => some ([], rest)
  | '\\' :: 'u' :: a :: b :: c :: d :: rest => do
    let n := (((← hexValue? a) * 16 + (← hexValue? b)) * 16 + (← hexValue? c)) * 16 +
      (← hexValue? d)
    let (units, rest) ← stringBody? rest
    some (n :: units, rest)
  | '\\' :: c :: rest => do
    let e ← escaped? c
    let (units, rest) ← stringBody? rest
    some (e.toNat :: units, rest)
  | c :: rest => do
    if c.toNat < 0x20 then none
    let (units, rest) ← stringBody? rest
    some (c.toNat :: units, rest)

def isHighSurrogate (n : Nat) : Bool := decide (0xD800 ≤ n) && decide (n < 0xDC00)

def isLowSurrogate (n : Nat) : Bool := decide (0xDC00 ≤ n) && decide (n < 0xE000)

/-- Joins surrogate pairs; a surrogate on its own becomes the replacement character. -/
def joinUnits : List Nat → List Char
  | [] => []
  | [n] => [if isHighSurrogate n || isLowSurrogate n then '\uFFFD' else Char.ofNat n]
  | n :: m :: rest =>
    if isHighSurrogate n && isLowSurrogate m then
      Char.ofNat (0x10000 + (n - 0xD800) * 0x400 + (m - 0xDC00)) :: joinUnits rest
    else if isHighSurrogate n || isLowSurrogate n then '\uFFFD' :: joinUnits (m :: rest)
    else Char.ofNat n :: joinUnits (m :: rest)

/-- A string behind its opening quote. -/
def string? (cs : List Char) : Option (String × List Char) := do
  let (units, rest) ← stringBody? cs
  some (String.ofList (joinUnits units), rest)

/-! ### Numbers -/

/-- A digit or more. -/
def digits? (cs : List Char) : Option (List Char × List Char) :=
  match cs.takeWhile Char.isDigit with
  | [] => none
  | ds => some (ds, cs.dropWhile Char.isDigit)

/-- The whole part: no zero before another digit. -/
def whole? : List Char → Option (List Char × List Char)
  | '0' :: rest => some (['0'], rest)
  | cs => digits? cs

def fraction? : List Char → Option (List Char × List Char)
  | '.' :: rest => (digits? rest).map fun (ds, rest) => ('.' :: ds, rest)
  | cs => some ([], cs)

def exponent? : List Char → Option (List Char × List Char)
  | e :: s :: rest =>
    if e != 'e' && e != 'E' then some ([], e :: s :: rest)
    else if s == '+' || s == '-' then (digits? rest).map fun (ds, rest) => (e :: s :: ds, rest)
    else (digits? (s :: rest)).map fun (ds, rest) => (e :: ds, rest)
  | [e] => if e == 'e' || e == 'E' then none else some ([], [e])
  | [] => some ([], [])

/-- A number and the rest behind it. -/
def number? (cs : List Char) : Option (String × List Char) := do
  let (sign, cs) := match cs with
    | '-' :: rest => (['-'], rest)
    | cs => ([], cs)
  let (whole, cs) ← whole? cs
  let (frac, cs) ← fraction? cs
  let (exp, cs) ← exponent? cs
  some (String.ofList (sign ++ whole ++ frac ++ exp), cs)

/-! ### Values -/

/-- What was read of `cs` when `rest` is left. -/
def consumed (cs rest : List Char) : String := String.ofList (cs.take (cs.length - rest.length))

mutual
/-- A value and the rest behind it. -/
def value? : Nat → List Char → Option (Json × List Char)
  | 0, _ => none
  | fuel + 1, cs =>
    match skipGaps cs with
    | '\x7b' :: rest =>
      match skipGaps rest with
      | '\x7d' :: rest => some (.object [], rest)
      | rest => (members? fuel rest).map fun (ms, rest) => (.object ms, rest)
    | '[' :: rest =>
      match skipGaps rest with
      | ']' :: rest => some (.array [], rest)
      | rest => (items? fuel rest).map fun (js, rest) => (.array js, rest)
    | '"' :: rest => (string? rest).map fun (s, rest) => (.string s, rest)
    | 't' :: rest => (word? "rue".toList rest).map (.bool true, ·)
    | 'f' :: rest => (word? "alse".toList rest).map (.bool false, ·)
    | 'n' :: rest => (word? "ull".toList rest).map (.null, ·)
    | cs => (number? cs).map fun (t, rest) => (.number t, rest)

/-- The items of an array up to its bracket. -/
def items? : Nat → List Char → Option (List Json × List Char)
  | 0, _ => none
  | fuel + 1, cs => do
    let (j, rest) ← value? fuel cs
    match skipGaps rest with
    | ',' :: rest =>
      let (js, rest) ← items? fuel rest
      some (j :: js, rest)
    | ']' :: rest => some ([j], rest)
    | _ => none

/-- The members of an object up to its brace. -/
def members? : Nat → List Char → Option (List Member × List Char)
  | 0, _ => none
  | fuel + 1, cs => do
    let (key, rest) ← match skipGaps cs with
      | '"' :: rest => string? rest
      | _ => none
    let start ← match skipGaps rest with
      | ':' :: rest => some (skipGaps rest)
      | _ => none
    let (value, rest) ← value? fuel start
    let m : Member := { key, source := consumed start rest, value }
    match skipGaps rest with
    | ',' :: rest =>
      let (ms, rest) ← members? fuel rest
      some (m :: ms, rest)
    | '\x7d' :: rest => some ([m], rest)
    | _ => none
end

/-- The value a text holds. -/
def parse? (cs : List Char) : Option Json := do
  let (j, rest) ← value? (cs.length + 1) cs
  if (skipGaps rest).isEmpty then some j else none

end SchemaLoom.Json

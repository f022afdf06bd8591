import SchemaLoom.Text.Quoted
import SchemaLoom.Yaml.Decode

/-!
# Writing YAML strings

One entry of a block mapping whose value is a string. The value stands plain
where it reads back as that string, and is quoted where it does not; a value of
several lines is a literal block. Lines are never folded.

A line break at the start of a block ends its header line and is lost.
-/

namespace SchemaLoom.Yaml

/-! ### What a string holds -/

/-- Characters that stand for themselves in every style. -/
def isShown (c : Char) : Bool :=
  let n := c.toNat
  n == 10 || (0x20 ≤ n && n ≤ 0x7E) || (0xA0 ≤ n && n ≤ 0xFFFD && n != 0xFEFF)

/-- Characters other than tabs that only an escape can write. -/
def hasSpecial (cs : List Char) : Bool := cs.any fun c => c != '\t' && !isShown c

/-- Neighbours of which the first satisfies `p` and the second `q`. -/
def hasPair (p q : Char → Bool) (cs : List Char) : Bool :=
  (cs.zip cs.tail).any fun e => p e.1 && q e.2

def spaceThenBreak (cs : List Char) : Bool := hasPair (· == ' ') isBreak cs

def breakThenSpace (cs : List Char) : Bool := hasPair isBreak (· == ' ') cs

/-- Characters that begin something else than a plain scalar. -/
def openingIndicators : List Char :=
  ['#', ',', '[', ']', '\x7b', '\x7d', '&', '*', '!', '|', '>', '\'', '"', '%', '@', '\x60']

/-- A blank or nothing. -/
def endsIndicator : Option Char → Bool
  | none => true
  | some c => isSpace c

/-- The start of the text reads as something else than a plain scalar. -/
def opensOther : List Char → Bool
  | '-' :: '-' :: '-' :: _ => true
  | '.' :: '.' :: '.' :: _ => true
  | c :: rest =>
    openingIndicators.contains c ||
      ((c == '?' || c == ':' || c == '-') && endsIndicator rest.head?)
  | [] => false

/-- A plain scalar would end inside the text, at a key mark or a comment. -/
def endsInside (cs : List Char) : Bool :=
  hasPair (· == ':') isSpace cs || cs.getLast? == some ':' || hasPair isSpace (· == '#') cs

/-! ### Styles -/

def fitsPlain (cs : List Char) : Bool :=
  cs.head? != some ' ' && cs.getLast? != some ' ' && !cs.any isBreak && !cs.contains '\t' &&
    !hasSpecial cs && !opensOther cs && !endsInside cs

def fitsSingle (cs : List Char) : Bool :=
  !spaceThenBreak cs && !breakThenSpace cs && !cs.contains '\t' && !hasSpecial cs

def fitsLiteral (cs : List Char) : Bool :=
  cs.getLast? != some ' ' && !spaceThenBreak cs && !hasSpecial cs

/-- Parts of at most sixty behind colons, and then perhaps a fraction. -/
def isMinutes : List Char → Bool
  | ':' :: a :: b :: rest =>
    if b.isDigit then '0' ≤ a && a ≤ '5' && endsMinutes rest
    else a.isDigit && endsMinutes (b :: rest)
  | [':', a] => a.isDigit
  | _ => false
termination_by cs => 2 * cs.length
where
  /-- Further parts, a fraction or the end. -/
  endsMinutes : List Char → Bool
    | [] => true
    | '.' :: rest => rest.all fun c => c.isDigit || c == '_'
    | cs => isMinutes cs
  termination_by cs => 2 * cs.length + 1

/-- A number to the base sixty, which older readers take for one. -/
def isSexagesimal (cs : List Char) : Bool :=
  match (splitSign cs).2 with
  | d :: rest => d.isDigit && isMinutes (rest.dropWhile fun c => c.isDigit || c == '_')
  | [] => false

/-- The text denotes itself when it stands plain, for older readers too. -/
def denotesItself (s : String) : Bool :=
  Compose.scalarTag .plain s == "!!str" && !isSexagesimal s.toList &&
    !Decode.trueWords.contains s && !Decode.falseWords.contains s

/-! ### Writing -/

def shortEscapes : List (Char × Char) :=
  [('\x00', '0'), ('\x07', 'a'), ('\x08', 'b'), ('\t', 't'), ('\n', 'n'), ('\x0b', 'v'),
   ('\x0c', 'f'), ('\r', 'r'), ('\x1b', 'e'), ('"', '"'), ('\\', '\\'), ('\u0085', 'N'),
   ('\u2028', 'L'), ('\u2029', 'P')]

/-- One character between double quotes. -/
def escapeChar (c : Char) : List Char :=
  if isShown c && !isBreak c && c != '"' && c != '\\' then [c]
  else match shortEscapes.lookup c with
    | some e => ['\\', e]
    | none =>
      let n := c.toNat
      let (mark, width) := if n ≤ 0xFF then ('x', 2) else if n ≤ 0xFFFF then ('u', 4) else ('U', 8)
      '\\' :: mark :: (hexDigits width n).map Char.toUpper

def writeDouble (cs : List Char) : List Char := '"' :: cs.flatMap escapeChar ++ ['"']

/-- Puts two blanks at the start of every line that is not empty. -/
def indentLines : Bool → List Char → List Char
  | _, [] => []
  | lineStart, c :: rest =>
    if isBreak c then c :: indentLines true rest
    else (if lineStart then [' ', ' ', c] else [c]) ++ indentLines false rest

def writeSingle (cs : List Char) : List Char :=
  '\'' :: indentLines false (cs.flatMap fun c => if c == '\'' then ['\'', '\''] else [c]) ++ ['\'']

/-- What becomes of the breaks at the end of a block: none of them, one, or all. -/
def chompMark (cs : List Char) : List Char :=
  match cs.reverse with
  | [] => ['-']
  | [b] => if isBreak b then ['+'] else ['-']
  | b :: a :: _ => if !isBreak b then ['-'] else if isBreak a then ['+'] else []

/-- A literal block; its last line is not ended. -/
def writeLiteral (cs : List Char) : List Char :=
  let first := cs.head?
  let hint := if first == some ' ' || first.any isBreak then ['2'] else []
  let start := if first.any isBreak then [] else ['\n']
  '|' :: hint ++ chompMark cs ++ start ++ indentLines true cs

/-- The value of an entry. -/
def writeString (s : String) : List Char :=
  let cs := s.toList
  if cs.contains '\n' then (if fitsLiteral cs then writeLiteral cs else writeDouble cs)
  else if !denotesItself s then writeDouble cs
  else if fitsPlain cs then cs
  else if fitsSingle cs then writeSingle cs
  else writeDouble cs

/-- Ends a line that is not ended yet. -/
def endLine (cs : List Char) : List Char :=
  if cs.getLast?.any isBreak then cs else cs ++ ['\n']

/-- A line `key: value`, or several for a block. -/
def writeEntry (key : String) (value : String) : List Char :=
  endLine (key.toList ++ [':', ' '] ++ writeString value)

end SchemaLoom.Yaml

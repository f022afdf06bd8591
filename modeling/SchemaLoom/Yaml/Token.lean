/-!
# YAML tokens

The tokens of a YAML stream and the cursor that walks over its characters.
Only the line of a token is kept: nothing later asks for its column.
-/

namespace SchemaLoom.Yaml

inductive Style where
  | plain
  | quoted
  | block
  deriving DecidableEq, Repr, Inhabited

inductive Lexeme where
  | streamEnd
  | version (major minor : Nat)
  | tagHandle (handle expansion : String)
  | documentStart
  | documentEnd
  | blockSequenceStart
  | blockMappingStart
  | blockEnd
  | flowSequenceStart
  | flowSequenceEnd
  | flowMappingStart
  | flowMappingEnd
  | blockEntry
  | flowEntry
  | key
  | value
  | aliasOf (name : String)
  | anchor (name : String)
  | tag (handle suffix : String)
  | scalar (style : Style) (text : String)
  deriving DecidableEq, Repr, Inhabited

/-- A lexeme and the line it starts on, counted from one. -/
structure Token where
  lexeme : Lexeme
  line : Nat
  deriving DecidableEq, Repr, Inhabited

/-! ### Character classes -/

def isSpace (c : Char) : Bool := c == ' ' || c == '\t'

def isBreak (c : Char) : Bool :=
  c == '\n' || c == '\r' || c == '\u0085' || c == '\u2028' || c == '\u2029'

def isGap (c : Char) : Bool := isSpace c || isBreak c

/-- A gap character or the end of the text. -/
def endsWord : Option Char → Bool
  | none => true
  | some c => isGap c

/-- A break or the end of the text. -/
def endsLine : Option Char → Bool
  | none => true
  | some c => isBreak c

def isWordChar (c : Char) : Bool := c.isAlphanum || c == '_' || c == '-'

/-- Characters a stream may hold. -/
def isAllowed (c : Char) : Bool :=
  let n := c.toNat
  n == 9 || n == 10 || n == 13 || (0x20 ≤ n && n ≤ 0x7E) || n == 0x85 ||
    (0xA0 ≤ n && n ≤ 0xD7FF) || (0xE000 ≤ n && n ≤ 0xFFFD) || 0x10000 ≤ n

/-! ### Cursors -/

/-- The characters still to be read, and where they start. -/
structure Cursor where
  rest : List Char
  index : Nat := 0
  line : Nat := 0
  column : Nat := 0
  deriving Repr, Inhabited

namespace Cursor

def peek? (c : Cursor) : Option Char := c.rest.head?

def peekAt? (c : Cursor) (n : Nat) : Option Char := c.rest[n]?

/-- Passes over `n` characters of the current line. -/
def forward (c : Cursor) (n : Nat) : Cursor :=
  { c with rest := c.rest.drop n, index := c.index + n, column := c.column + n }

/-- Passes over the characters of the current line that `p` accepts. -/
def skipWhile (p : Char → Bool) (c : Cursor) : Cursor :=
  c.forward (c.rest.takeWhile p).length

/-- The characters of the current line that `p` accepts, and the cursor behind them. -/
def takeWhile (p : Char → Bool) (c : Cursor) : List Char × Cursor :=
  let taken := c.rest.takeWhile p
  (taken, c.forward taken.length)

/-- Passes over one line break; elsewhere nothing happens. -/
def newline (c : Cursor) : Cursor :=
  match c.rest with
  | '\r' :: '\n' :: rest => { rest, index := c.index + 2, line := c.line + 1, column := 0 }
  | b :: rest =>
    if isBreak b then { rest, index := c.index + 1, line := c.line + 1, column := 0 } else c
  | [] => c

/-- What the line break at the cursor adds to a scalar: the old breaks all read as a line
feed. -/
def breakText (c : Cursor) : List Char :=
  match c.rest with
  | b :: _ =>
    if b == '\u2028' || b == '\u2029' then [b] else if isBreak b then ['\n'] else []
  | [] => []

/-- Passes over the rest of the line. -/
def skipLine (c : Cursor) : Cursor := c.skipWhile (! isBreak ·)

/-- Three times `mark` at the start of a line, and then a gap. -/
def atMarker (c : Cursor) (mark : Char) : Bool :=
  c.column == 0 && c.peekAt? 0 == some mark && c.peekAt? 1 == some mark &&
    c.peekAt? 2 == some mark && endsWord (c.peekAt? 3)

/-- At `---` or `...`. -/
def atDocumentMarker (c : Cursor) : Bool := c.atMarker '-' || c.atMarker '.'

end Cursor

end SchemaLoom.Yaml

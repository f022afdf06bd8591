import SchemaLoom.Yaml.Scalar
import SchemaLoom.Text

/-!
# From characters to YAML tokens

Indentation is turned into block tokens, and a scalar, bracket, anchor or tag
that turns out to be followed by `:` on its line gets a key token in front. Until
that is known the place is kept as a pending key, one for each level of flow
brackets.

Tokens are read on demand. A token is handed out once two more stand behind it and
no pending key is watched at its place, so a fault further on is met only by a reader
that gets there.
-/

namespace SchemaLoom.Yaml

/-- A place where a key token may have to be inserted. -/
structure PendingKey where
  /-- The block context needs a key here. -/
  required : Bool
  /-- The number of tokens before it. -/
  position : Nat
  index : Nat
  line : Nat
  column : Nat
  /-- The token at its place is held back. -/
  watched : Bool := true
  deriving Repr, Inhabited

/-- A key stands on one line, at most 1024 characters before its colon. -/
def PendingKey.isLive (k : PendingKey) (c : Cursor) : Bool :=
  k.line == c.line && decide (c.index ≤ k.index + 1024)

/-- A level of flow brackets; the block context is the outermost. -/
structure Level where
  /-- The position of the latest pending key, at first of the opening bracket. -/
  position : Nat := 0
  key : Option PendingKey := none
  deriving Repr, Inhabited

/-- The state of reading between two tokens. -/
structure Scanner where
  cursor : Cursor
  /-- The number of characters of the whole text, which bounds every walk over it. -/
  length : Nat
  /-- Tokens that have been read and not been taken. -/
  queue : List Token := []
  /-- The number of tokens that have been taken. -/
  taken : Nat := 0
  indent : Int := -1
  indents : List Int := []
  flow : Nat := 0
  keyAllowed : Bool := true
  /-- The levels of flow brackets, innermost first. -/
  levels : List Level := [{}]
  /-- The text starts with a byte order mark, behind the one that told its encoding. -/
  marked : Bool := false
  deriving Inhabited

namespace Scanner

/-- The number of tokens read so far. -/
def size (s : Scanner) : Nat := s.taken + s.queue.length

def push (s : Scanner) (l : Lexeme) (line : Nat) : Scanner :=
  { s with queue := s.queue ++ [⟨l, line + 1⟩] }

/-- Inserts a token at a position; behind all others where that position has been taken. -/
def insertAt (s : Scanner) (position : Nat) (l : Lexeme) (line : Nat) : Scanner :=
  if position < s.taken then s.push l line
  else
    let i := position - s.taken
    { s with queue := s.queue.take i ++ ⟨l, line + 1⟩ :: s.queue.drop i }

def inFlow (s : Scanner) : Bool := s.flow != 0

/-- Closes the block collections that stand right of a column. -/
def unrollList (line : Nat) (column : Int) : List Int → Scanner → Scanner
  | [], s => s
  | outer :: more, s =>
    if s.indent > column then
      unrollList line column more
        { s.push .blockEnd line with indent := outer, indents := more }
    else s

def unroll (s : Scanner) (column : Int) : Scanner :=
  if s.inFlow then s else unrollList s.cursor.line column s.indents s

/-- Block collections may be nested this deep, and flow brackets too. -/
def nestingLimit : Nat := 10000

/-- Opens a block collection at a column right of the current one. -/
def roll (s : Scanner) (column : Nat) (position : Nat) (l : Lexeme) (line : Nat) :
    Option Scanner :=
  if s.inFlow || decide (s.indent ≥ (column : Int)) then some s
  else if nestingLimit ≤ s.indents.length then none
  else some { s.insertAt position l line with
    indents := s.indent :: s.indents, indent := column }

/-- The pending key of the current level. -/
def key? (s : Scanner) : Option PendingKey := s.levels.head?.bind (·.key)

/-- Leaves the current level without pending key. -/
def clearKey (s : Scanner) : Scanner :=
  match s.levels with
  | l :: ls => { s with levels := { l with key := none } :: ls }
  | [] => s

/-- Gives up the pending key of the current level; a required one cannot be given up. -/
def dropKey (s : Scanner) : Option Scanner :=
  match s.key? with
  | some k => if k.required then none else some s.clearKey
  | none => some s

/-- Marks the current place as a possible key. -/
def saveKey (s : Scanner) : Option Scanner :=
  if !s.keyAllowed then some s
  else do
    -- at the column of a block mapping there has to be a key
    let required := !s.inFlow && s.indent == (s.cursor.column : Int)
    let s ← s.dropKey
    let k : PendingKey :=
      { required, position := s.size, index := s.cursor.index, line := s.cursor.line,
        column := s.cursor.column }
    some { s with levels := ⟨s.size, some k⟩ :: s.levels.tail }

/-- Leaves a level. A key that stands at the position of the level is watched no longer. -/
def leaveLevel : List Level → List Level
  | inner :: outer :: more =>
    let unwatch (k : PendingKey) : PendingKey :=
      { k with watched := k.watched && k.position != inner.position }
    { outer with key := outer.key.map unwatch } :: more
  | levels => levels

/-! ### White space and comments -/

/-- Passes over at most `n` blanks and line ends. -/
def skipBlankLines : Nat → Cursor → Cursor
  | 0, c => c
  | n + 1, c =>
    match c.peek? with
    | none => c
    | some ch =>
      if isSpace ch then skipBlankLines n (c.forward 1)
      else if ch == '\n' || ch == '\r' then skipBlankLines n c.newline
      else c

/-- A comment is looked for behind fewer blanks than this. -/
def commentReach : Nat := 512

/-- Passes over comment lines that follow one another, up to the end of the last. -/
def skipComments : Nat → Cursor → Cursor
  | 0, c => c
  | fuel + 1, c =>
    let c := c.skipLine
    let gap := (c.rest.takeWhile fun ch => isSpace ch || ch == '\n' || ch == '\r').length
    if gap < commentReach && c.rest[gap]? == some '#' then
      skipComments fuel (skipBlankLines gap c)
    else c

/-- Where a line starts. In a text that starts with a mark, every line does so one character
late. -/
def skipMark (s : Scanner) : Cursor :=
  if s.marked && s.cursor.column == 0 && !s.cursor.rest.isEmpty then s.cursor.forward 1
  else s.cursor

/-- Passes over everything between two tokens. -/
def skipGap : Nat → Scanner → Scanner
  | 0, s => s
  | fuel + 1, s =>
    -- no tab may indent a key
    let tabs := s.inFlow || !s.keyAllowed
    let c := s.skipMark.skipWhile fun ch => ch == ' ' || (tabs && ch == '\t')
    let c := if c.peek? == some '#' then skipComments (c.rest.length + 1) c else c
    match c.peek? with
    | none => { s with cursor := c }
    | some ch =>
      if isBreak ch then
        -- outside brackets a line may start with a key
        skipGap fuel { s with cursor := c.newline, keyAllowed := s.keyAllowed || !s.inFlow }
      else { s with cursor := c }

/-- Passes over a comment behind a token on the same line. -/
def skipLineComment (s : Scanner) : Scanner :=
  let gap := (s.cursor.rest.takeWhile isSpace).length
  if gap < commentReach && s.cursor.rest[gap]? == some '#' then
    { s with cursor := s.cursor.skipLine }
  else s

/-! ### Names, tags and directives -/

/-- Characters that may follow an anchor or alias. -/
def endsAnchor (c : Option Char) : Bool :=
  endsWord c || match c with
    | some ch => ch == '?' || ch == ':' || ch == ',' || ch == ']' || ch == '\x7d' ||
        ch == '%' || ch == '@' || ch.toNat == 96
    | none => true

def anchorName? (c : Cursor) : Option (String × Cursor) :=
  let (name, c) := (c.forward 1).takeWhile isWordChar
  if name.isEmpty || !endsAnchor c.peek? then none else some (String.ofList name, c)

def isTagChar (c : Char) : Bool :=
  isWordChar c || ";/?:@&=+$,.!~*()[]".toList.contains c || c.toNat == 39

/-- The text of a tag, with `%` escapes decoded. -/
def tagText? : Nat → List UInt8 → Cursor → Option (List UInt8 × Cursor)
  | 0, acc, c => some (acc, c)
  | fuel + 1, acc, c =>
    match c.rest with
    | '%' :: digits => do
      let v ← hexNumber? 2 digits
      tagText? fuel (acc ++ [UInt8.ofNat v]) (c.forward 3)
    | ch :: _ =>
      if isTagChar ch then tagText? fuel (acc ++ [ch.toNat.toUInt8]) (c.forward 1)
      else some (acc, c)
    | [] => some (acc, c)

/-- The text of a tag as characters; it must be UTF-8. -/
def tagString? (c : Cursor) : Option (String × Cursor) := do
  let (bytes, c) ← tagText? (c.rest.length + 1) [] c
  let s ← (Text.ofBytes bytes).toString?
  some (s, c)

/-- A handle such as `!`, `!!` or `!name!`. -/
def tagHandle (c : Cursor) : String × Cursor :=
  let (name, c') := (c.forward 1).takeWhile isWordChar
  if c'.peek? == some '!' then (String.ofList ('!' :: name ++ ['!']), c'.forward 1)
  else (String.ofList ('!' :: name), c')

/-- A tag as handle and suffix, the handle empty for a verbatim one. -/
def tag? (c : Cursor) : Option (String × String × Cursor) := do
  let (handle, suffix, c) ←
    if c.peekAt? 1 == some '<' then do
      let (s, c) ← tagString? (c.forward 2)
      if s.isEmpty || c.peek? != some '>' then none else some ("", s, c.forward 1)
    else
      let (handle, c') := tagHandle c
      if 1 < handle.length && handle.toList.getLast? == some '!' then do
        let (s, c) ← tagString? c'
        if s.isEmpty then none else some (handle, s, c)
      else do
        -- what began like a handle is the start of a suffix
        let (s, c) ← tagString? c'
        let s := String.ofList handle.toList.tail ++ s
        some (if s.isEmpty then ("", "!", c) else ("!", s, c))
  if endsWord c.peek? then some (handle, suffix, c) else none

/-- A decimal number of at most nine digits. -/
def shortNumber? (c : Cursor) : Option (Nat × Cursor) :=
  let (ds, c) := c.takeWhile Char.isDigit
  if ds.isEmpty || decide (9 < ds.length) then none
  else some (ds.foldl (fun n d => n * 10 + (d.toNat - 48)) 0, c)

def directive? (c : Cursor) : Option (Lexeme × Cursor) := do
  let (name, c) := (c.forward 1).takeWhile isWordChar
  if name.isEmpty || !endsWord c.peek? then none
  let c := c.skipWhile isSpace
  let (l, c) ←
    if name == "YAML".toList then do
      let (major, c) ← shortNumber? c
      if c.peek? != some '.' then none
      let (minor, c) ← shortNumber? (c.forward 1)
      some (Lexeme.version major minor, c)
    else if name == "TAG".toList then do
      if c.peek? != some '!' then none
      let (handle, c) := tagHandle c
      if handle != "!" && handle.toList.getLast? != some '!' then none
      if !(c.peek?.map isSpace).getD false then none
      let (s, c) ← tagString? (c.skipWhile isSpace)
      if s.isEmpty || !endsWord c.peek? then none
      some (Lexeme.tagHandle handle s, c)
    else none
  let c := c.skipWhile isSpace
  let c := if c.peek? == some '#' then c.skipLine else c
  if endsLine c.peek? then some (l, c.newline) else none

/-! ### Tokens -/

/-- Reads one token of `n` characters. -/
def single (s : Scanner) (l : Lexeme) (n : Nat) : Scanner :=
  { s.push l s.cursor.line with cursor := s.cursor.forward n }

def openFlow (s : Scanner) (l : Lexeme) : Option Scanner := do
  let s ← s.saveKey
  if nestingLimit ≤ s.flow then none
  some { s.single l 1 with
    flow := s.flow + 1, levels := ⟨s.size, none⟩ :: s.levels, keyAllowed := true }

def closeFlow (s : Scanner) (l : Lexeme) : Option Scanner := do
  let s ← s.dropKey
  let s := if s.inFlow then { s with flow := s.flow - 1, levels := leaveLevel s.levels } else s
  some { s.single l 1 with keyAllowed := false }

def flowEntry (s : Scanner) : Option Scanner := do
  let s ← s.dropKey
  some { s.single .flowEntry 1 with keyAllowed := true }

def blockEntry (s : Scanner) : Option Scanner := do
  if !s.inFlow && !s.keyAllowed then none
  let s ← s.roll s.cursor.column s.size .blockSequenceStart s.cursor.line
  let s ← s.dropKey
  some { s.single .blockEntry 1 with keyAllowed := true }

def explicitKey (s : Scanner) : Option Scanner := do
  if !s.inFlow && !s.keyAllowed then none
  let s ← s.roll s.cursor.column s.size .blockMappingStart s.cursor.line
  let s ← s.dropKey
  some { s.single .key 1 with keyAllowed := !s.inFlow }

/-- A colon behind a key, or without one. -/
def valueMark (s : Scanner) : Option Scanner := do
  let pending := s.key?
  match pending.filter (·.isLive s.cursor) with
  | some k =>
    -- now that its colon is met, the key gets its token and perhaps opens a mapping
    let s := s.insertAt k.position .key k.line
    let s ← s.roll k.column k.position .blockMappingStart k.line
    some { s.clearKey.single .value 1 with keyAllowed := false }
  | none =>
    if (pending.map (·.required)).getD false then none
    let s := s.clearKey
    if !s.inFlow && !s.keyAllowed then none
    let s ← s.roll s.cursor.column s.size .blockMappingStart s.cursor.line
    some { s.single .value 1 with keyAllowed := !s.inFlow }

def anchorOrAlias (s : Scanner) (l : String → Lexeme) : Option Scanner := do
  let s ← s.saveKey
  let (name, c) ← anchorName? s.cursor
  some { s.push (l name) s.cursor.line with cursor := c, keyAllowed := false }

def tagToken (s : Scanner) : Option Scanner := do
  let s ← s.saveKey
  let (handle, suffix, c) ← tag? s.cursor
  some { s.push (.tag handle suffix) s.cursor.line with cursor := c, keyAllowed := false }

def blockScalar (s : Scanner) (literal : Bool) : Option Scanner := do
  let s ← s.dropKey
  let (text, c) ← blockScalar? literal s.indent s.cursor
  some { s.push (.scalar .block text) s.cursor.line with cursor := c, keyAllowed := true }

def quotedScalar (s : Scanner) (single : Bool) : Option Scanner := do
  let s ← s.saveKey
  let (text, c) ← quotedScalar? single s.cursor
  some { s.push (.scalar .quoted text) s.cursor.line with cursor := c, keyAllowed := false }

def plainScalar (s : Scanner) : Option (Scanner × Bool) := do
  let s ← s.saveKey
  let (text, broken, c) ← plainScalar? s.inFlow (s.indent + 1).toNat s.cursor
  -- behind a line break a key is allowed again
  some ({ s.push (.scalar .plain text) s.cursor.line with cursor := c, keyAllowed := broken },
    broken)

/-- Whether a character at the cursor starts a plain scalar. -/
def startsPlain (s : Scanner) (c : Char) : Bool :=
  let next := s.cursor.peekAt? 1
  !(isGap c || "-?:,[]\x7b\x7d#&*!|>\"%@".toList.contains c || c.toNat == 39 || c.toNat == 96) ||
    (c == '-' && !(next.map isSpace).getD false) ||
    (!s.inFlow && (c == '?' || c == ':') && !endsWord next)

/-- Ends everything that is open in front of a directive or document marker. -/
def reset (s : Scanner) : Option Scanner := do
  let s ← (s.unroll (-1)).dropKey
  some { s with keyAllowed := false }

def withComment (s : Option Scanner) : Option Scanner := s.map skipLineComment

/-- Reads the token that starts with `c`. -/
def token (s : Scanner) (c : Char) : Option Scanner :=
  let next := s.cursor.peekAt? 1
  let wordEnds := s.inFlow || endsWord next
  if c == '[' then withComment (s.openFlow .flowSequenceStart)
  else if c == '\x7b' then withComment (s.openFlow .flowMappingStart)
  else if c == ']' then withComment (s.closeFlow .flowSequenceEnd)
  else if c == '\x7d' then withComment (s.closeFlow .flowMappingEnd)
  else if c == ',' then withComment s.flowEntry
  else if c == '-' && endsWord next then s.blockEntry
  else if c == '?' && wordEnds then withComment s.explicitKey
  else if c == ':' && wordEnds then withComment s.valueMark
  else if c == '*' then withComment (s.anchorOrAlias .aliasOf)
  else if c == '&' then withComment (s.anchorOrAlias .anchor)
  else if c == '!' then withComment s.tagToken
  else if c == '|' && !s.inFlow then s.blockScalar true
  else if c == '>' && !s.inFlow then s.blockScalar false
  else if c.toNat == 39 then withComment (s.quotedScalar true)
  else if c == '"' then withComment (s.quotedScalar false)
  else if s.startsPlain c then
    s.plainScalar.map fun (s, broken) => if broken then s else s.skipLineComment
  else none

/-- Reads the next token, at the end of the text the last one. -/
def next (s : Scanner) : Option Scanner :=
  let s := skipGap (s.length + 1) s
  let s := s.unroll s.cursor.column
  let s := { s with marked := s.marked && decide (4 ≤ s.cursor.rest.length) }
  match s.cursor.peek? with
  | none => do
    let s := { s with cursor :=
      if s.cursor.column == 0 then s.cursor
      else { s.cursor with line := s.cursor.line + 1, column := 0 } }
    let s ← s.reset
    some (s.push .streamEnd s.cursor.line)
  | some c =>
    if s.cursor.column == 0 && c == '%' then do
      let s ← s.reset
      let (l, cursor) ← directive? s.cursor
      some { s.push l s.cursor.line with cursor }
    else if s.cursor.atMarker '-' then do
      let s ← s.reset
      some (s.single .documentStart 3)
    else if s.cursor.atMarker '.' then do
      let s ← s.reset
      some (s.single .documentEnd 3)
    else s.token c

/-- The key that is watched at the place of the next token. -/
def headKey? (s : Scanner) : Option PendingKey :=
  (s.levels.filterMap (·.key)).find? fun k => k.watched && k.position == s.taken

def forgetKey (s : Scanner) (position : Nat) : Scanner :=
  let forget (l : Level) : Level := { l with key := l.key.filter (·.position != position) }
  { s with levels := s.levels.map forget }

/-- Reads tokens until the next one can be handed out. -/
def supply : Nat → Scanner → Option Scanner
  | 0, s => some s
  | fuel + 1, s =>
    if s.queue.length < 3 then s.next.bind (supply fuel)
    else match s.headKey? with
    | none => some s
    | some k =>
      -- a colon may still make a key of the next token
      if k.isLive s.cursor then s.next.bind (supply fuel)
      else if k.required then none
      else some (s.forgetKey k.position)

/-- The next token, which stays in the queue. -/
def peek? (s : Scanner) : Option (Token × Scanner) := do
  let s ← s.supply (s.length + 4)
  let t ← s.queue.head?
  some (t, s)

/-- Takes the next token. -/
def take (s : Scanner) : Scanner := { s with queue := s.queue.tail, taken := s.taken + 1 }

/-- Reading starts here. A text with a character that no stream may hold is refused. -/
def start? (cs : List Char) : Option Scanner :=
  if cs.all isAllowed then
    some { cursor := { rest := cs }, length := cs.length, marked := cs.head? == some '\uFEFF' }
  else none

end Scanner

end SchemaLoom.Yaml

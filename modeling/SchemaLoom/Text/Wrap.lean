import SchemaLoom.Text.Atom
import SchemaLoom.Text.Casing
import SchemaLoom.Text.Columns

/-!
# Breaking lines

`Text.wrap` breaks a text into lines of at most `limit` columns: between words where
that is possible, behind a hyphen, and inside a word that is longer than a line.
`Text.breaks` tells in advance how many breaks a line is to get. It takes every
control for a column and every blank for its bytes, so the two may disagree on texts
that hold controls or wide blanks.
-/

namespace SchemaLoom

/-! ### Wrapping

A rendition or a link that is on where a line breaks is ended there and taken up again on
the next line; one that is on at the end is ended too.
-/

/-- Lines written so far, and the word and blanks that wait behind them. -/
structure Wrapping where
  done : Text := []
  column : Nat := 0
  blanks : Nat := 0
  word : Text := []
  wordColumns : Nat := 0
  /-- The rendition behind the word, and that of the lines written. -/
  rendition : Rendition := {}
  doneRendition : Rendition := {}
  /-- The link behind the word, and that of the lines written. -/
  link : Link := {}
  doneLink : Link := {}
  deriving DecidableEq, Repr

namespace Wrapping

def flushBlanks (w : Wrapping) : Wrapping :=
  { w with done := w.done ++ Text.spaces w.blanks, column := w.column + w.blanks, blanks := 0 }

def flushWord (w : Wrapping) : Wrapping :=
  if w.word.isEmpty then w
  else
    let w := w.flushBlanks
    { w with
      done := w.done ++ w.word, column := w.column + w.wordColumns, word := [], wordColumns := 0,
      doneRendition := w.rendition, doneLink := w.link }

/-- Begins a line. Blanks that wait are lost. -/
def newline (w : Wrapping) : Wrapping :=
  let plain := w.doneRendition.isPlain
  let unlinked := w.doneLink.isNone
  let ending :=
    (if plain then [] else Rendition.reset) ++ (if unlinked then [] else Link.write {})
  let again :=
    (if unlinked then [] else w.doneLink.write) ++ (if plain then [] else w.doneRendition.write)
  { w with done := w.done ++ ending ++ [.char '\n'] ++ again, column := 0, blanks := 0 }

/-- Ends a line that has its own break; its last blanks stay if they fit. -/
def settle (limit : Nat) (w : Wrapping) : Wrapping :=
  let w :=
    if w.wordColumns != 0 then w
    else if limit < w.column + w.blanks then { w with column := 0, blanks := 0 }
    else { w with done := w.done ++ Text.spaces w.blanks, blanks := 0 }
  w.flushWord

/-- An atom that takes columns and belongs to the word. -/
def addToWord (limit : Nat) (w : Wrapping) (a : Atom) : Wrapping :=
  let w := if limit < w.wordColumns + a.columns then w.flushWord else w
  let w := { w with word := w.word ++ a.text, wordColumns := w.wordColumns + a.columns }
  if limit < w.column + w.wordColumns + w.blanks then w.newline else w

/-- An atom without columns, other than a line break. -/
def addControl (w : Wrapping) (a : Atom) : Wrapping :=
  let w := { w with word := w.word ++ a.text }
  match a.rendition?, a.link? with
  | some ps, _ => { w with rendition := w.rendition.update ps }
  | none, some l => { w with link := l }
  | none, none => w

def add (limit : Nat) (w : Wrapping) (a : Atom) : Wrapping :=
  if a.columns == 0 then
    if a.text = [.char '\n'] then (w.settle limit).newline else w.addControl a
  else if a.text = [.char ' '] && !w.rendition.showsBlanks then
    let w := w.flushWord
    { w with blanks := w.blanks + 1 }
  else if a.text = [.char '-'] then
    let w := w.flushBlanks
    if w.column + w.wordColumns + 1 ≤ limit then
      let w := w.flushWord
      { w with done := w.done ++ a.text, column := w.column + 1 }
    else w.addToWord limit a
  else w.addToWord limit a

/-- The lines, with everything ended that is still on. -/
def finish (limit : Nat) (w : Wrapping) : Text :=
  let w := w.settle limit
  w.done ++ (if w.doneLink.isNone then [] else Link.write {}) ++
    (if w.doneRendition.isPlain then [] else Rendition.reset)

end Wrapping

/-- A text in lines of at most `limit` columns. -/
def Text.wrap (limit : Nat) (t : Text) : Text :=
  Text.ofBytes ((t.atoms.foldl (Wrapping.add limit) {}).finish limit).bytes

/-! ### Counting breaks -/

/-- The breaks of a line so far, and the measures of what waits behind the last one. -/
structure Tally where
  breaks : Nat := 0
  column : Nat := 0
  blanks : Nat := 0
  wordOpen : Bool := false
  wordColumns : Nat := 0
  deriving DecidableEq, Repr

namespace Tally

def flushBlanks (s : Tally) : Tally := { s with column := s.column + s.blanks, blanks := 0 }

def flushWord (s : Tally) : Tally :=
  if !s.wordOpen then s
  else
    let s := s.flushBlanks
    { s with column := s.column + s.wordColumns, wordOpen := false, wordColumns := 0 }

def newline (s : Tally) : Tally :=
  { s with breaks := s.breaks + 1, column := 0, blanks := 0 }

def breakPast (limit : Nat) (s : Tally) : Tally :=
  if limit < s.column + s.wordColumns + s.blanks then s.newline else s

def addBlank (s : Tally) (size : Nat) : Tally :=
  let s := s.flushWord
  { s with blanks := s.blanks + size }

/-- A sign: a blank other than the one that forbids a break, or a part of a word. -/
def addSign (limit : Nat) (s : Tally) (g : Sign) : Tally :=
  let c := g.first.toChar
  if isBlank c && c != '\u00A0' then s.addBlank c.utf8Size
  else
    let s := if limit < s.wordColumns + g.columns then s.flushWord else s
    breakPast limit { s with wordOpen := true, wordColumns := s.wordColumns + g.columns }

/-- A single byte, read as the character of that number. -/
def addByte (limit : Nat) (s : Tally) (b : UInt8) : Tally :=
  if isBlank (Char.ofNat b.toNat) then s.addBlank 1
  else if b == 0x2D then
    let s := s.flushBlanks
    if limit ≤ s.column + s.wordColumns then
      { s with wordOpen := true, wordColumns := s.wordColumns + 1 }
    else
      let s := s.flushWord
      { s with column := s.column + 1 }
  else
    let s := { s with wordOpen := true, wordColumns := s.wordColumns + 1 }
    breakPast limit (if s.wordColumns == limit then s.flushWord else s)

def add (limit : Nat) (s : Tally) : Piece → Tally
  | .sign g => s.addSign limit g
  | .byte b effect =>
    if effect = .silent then { s with wordOpen := true } else s.addByte limit b

end Tally

/-- The breaks that a line gets when no line may be longer than `limit`. -/
def Text.breaks (limit : Nat) (t : Text) : Nat :=
  (t.terminalPieces.foldl (Tally.add limit) {}).breaks

end SchemaLoom

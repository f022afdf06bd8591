import SchemaLoom.Text.Control
import SchemaLoom.Text.Rendition
import SchemaLoom.Text.Sign

/-!
# Atoms of a text

What no line break may divide: one printable character, one sign, one control, or
a control sequence as a whole. A sequence that breaks off is an atom up to the
place where it does.

Atoms follow the grammar of whole sequences; a terminal that is fed byte by byte
recovers from broken ones differently.
-/

namespace SchemaLoom

/-- An undivided part of a text and its columns. -/
structure Atom where
  text : Text
  columns : Nat := 0
  deriving DecidableEq, Repr

namespace Atom

/-- How far a control sequence has been read. -/
inductive Stage where
  | escape
  | markers
  | parameters
  | intermediates
  | string
  /-- In a string, behind an escape that may begin its end. -/
  | stringEscape
  deriving DecidableEq, Repr

/-- An atom that is not complete. -/
inductive Unfinished where
  | nothing
  | sign (s : Sign) (text : Text)
  | sequence (stage : Stage) (text : Text)
  deriving DecidableEq, Repr

namespace Unfinished

def close : Unfinished → List Atom
  | nothing => []
  | sign s text => [⟨text, s.columns⟩]
  | sequence .stringEscape text => [⟨text, 0⟩, ⟨[.char '\x1B'], 0⟩]
  | sequence _ text => [⟨text, 0⟩]

def start (r : Rune) : List Atom × Unfinished :=
  match r with
  | .char c =>
    if c == '\x1B' then ([], sequence .escape [r])
    else if c.toNat < 0x80 then
      ([⟨[r], if 0x20 ≤ c.toNat && c.toNat < 0x7F then 1 else 0⟩], nothing)
    else ([], sign (.start r) [r])
  | .stray b =>
    let n := b.toNat
    if n == 0x9B || n == 0x90 then ([], sequence .markers [r])
    else if n == 0x98 || n == 0x9D || n == 0x9E || n == 0x9F then ([], sequence .string [r])
    else if n < 0xC0 then ([⟨[r], 0⟩], nothing)
    else ([], sign (.start r) [r])

/-- Ends the atom in front of a rune. -/
def restart (u : Unfinished) (r : Rune) : List Atom × Unfinished :=
  let (as, v) := start r
  (u.close ++ as, v)

/-- Whether a sequence starts with `ESC` and a letter, or with the byte that stands for
both. -/
def opensWith (c : Char) (b : UInt8) : Text → Bool
  | .char '\x1B' :: .char d :: _ => c == d
  | .stray a :: _ => a == b
  | _ => false

def isDeviceControl (text : Text) : Bool := opensWith 'P' 0x90 text

def isCommand (text : Text) : Bool := opensWith ']' 0x9D text

/-- The rune behind an escape. -/
def stepEscape (text : Text) (r : Rune) : List Atom × Unfinished :=
  let u := sequence .escape text
  match r with
  | .stray _ => u.restart r
  | .char c =>
    if c == '[' || c == 'P' then ([], sequence .markers (text ++ [r]))
    else if c == ']' || c == 'X' || c == '^' || c == '_' then
      ([], sequence .string (text ++ [r]))
    else if Control.isIntermediate c.toNat then ([], sequence .escape (text ++ [r]))
    else if 0x30 ≤ c.toNat && c.toNat ≤ 0x7E then ([⟨text ++ [r], 0⟩], nothing)
    else u.restart r

/-- The parts of a sequence stand in one order: markers, parameters, intermediate
characters and a final one. -/
def stepParameters (stage : Stage) (text : Text) (r : Rune) : List Atom × Unfinished :=
  let u := sequence stage text
  match r with
  | .stray _ => u.restart r
  | .char c =>
    if stage == .markers && (0x3C ≤ c.toNat && c.toNat ≤ 0x3F) then
      ([], sequence .markers (text ++ [r]))
    else if stage != .intermediates && (c.isDigit || c == ':' || c == ';') then
      ([], sequence .parameters (text ++ [r]))
    else if Control.isIntermediate c.toNat then ([], sequence .intermediates (text ++ [r]))
    else if Control.isFinal c.toNat then
      if isDeviceControl text then ([], sequence .string (text ++ [r]))
      else ([⟨text ++ [r], 0⟩], nothing)
    else u.restart r

/-- A string ends with a terminator, a command also with a bell; a cancel leaves it. -/
def stepString (text : Text) (r : Rune) : List Atom × Unfinished :=
  let u := sequence .string text
  let last := ([⟨text ++ [r], 0⟩], nothing)
  match r with
  | .stray b => if b == 0x9C then last else ([], sequence .string (text ++ [r]))
  | .char c =>
    if c == '\x07' && isCommand text then last
    else if Control.isCancel c.toNat then u.restart r
    else if c == '\x1B' then ([], sequence .stringEscape text)
    else ([], sequence .string (text ++ [r]))

/-- Takes in one rune: the atoms that are complete, and the one that is not. -/
def step (u : Unfinished) (r : Rune) : List Atom × Unfinished :=
  match u with
  | nothing => start r
  | sign s text =>
    match s.take? r with
    | some s => ([], sign s (text ++ [r]))
    | none => u.restart r
  | sequence .escape text => stepEscape text r
  | sequence .string text => stepString text r
  | sequence .stringEscape text =>
    let escape : Rune := .char '\x1B'
    if r = .char '\\' then ([⟨text ++ [escape, r], 0⟩], nothing)
    else
      let (as, v) := stepEscape [escape] r
      (⟨text, 0⟩ :: as, v)
  | sequence stage text => stepParameters stage text r

/-- The runes of a character in the place where it stands: the byte that ends a string does
so inside a character too, which then falls into bytes. -/
def expand (u : Unfinished) (r : Rune) : Text :=
  match u with
  | sequence .string _ => if r.bytes.contains 0x9C then r.bytes.map .stray else [r]
  | _ => [r]

def stepAll (u : Unfinished) : Text → List Atom × Unfinished
  | [] => ([], u)
  | r :: t =>
    let (as, u) := u.step r
    let (bs, u) := stepAll u t
    (as ++ bs, u)

end Unfinished

/-- The atoms of a text behind an unfinished one. -/
def ofText (u : Unfinished) : Text → List Atom
  | [] => u.close
  | r :: t =>
    let (as, u) := u.stepAll (u.expand r)
    as ++ ofText u t

end Atom

def Text.atoms (t : Text) : List Atom := Atom.ofText .nothing t

namespace Atom

/-- The parameters of an atom that sets the rendition. -/
def rendition? (a : Atom) : Option (List Parameter) :=
  let parameters? (body : Text) : Option (List Parameter) :=
    if body.getLast? = some (.char 'm') then
      (Text.chars? body.dropLast).bind Parameter.all?
    else none
  match a.text with
  | .char '\x1B' :: .char '[' :: body => parameters? body
  | .stray 0x9B :: body => parameters? body
  | _ => none

/-- The command without what ends it. -/
def commandBody (text : Text) : Text :=
  match text.reverse with
  | .char '\x07' :: rest | .stray 0x9C :: rest | .char '\\' :: .char '\x1B' :: rest => rest.reverse
  | _ => text

def link? (a : Atom) : Option Link :=
  match a.text with
  | .char '\x1B' :: .char ']' :: body => Link.ofCommand? (commandBody body)
  | .stray 0x9D :: body => Link.ofCommand? (commandBody body)
  | _ => none

end Atom

end SchemaLoom

import SchemaLoom.Text
import SchemaLoom.Text.Letter

/-!
# Casing of names

Names are cut into words and written again with capitals at the word starts.
`pascalCase` joins runs of letters and digits of any script; `camelize` also
starts a word at every capital and lowers the rest of a word.

Only ASCII letters change case here, together with the few letters whose
capital takes another number of bytes. The first capital is made on the first
*byte*, so a character of several bytes falls apart into stray bytes.
-/

namespace SchemaLoom

/-- White space of any script. -/
def isBlank (c : Char) : Bool :=
  let n := c.toNat
  (9 ≤ n && n ≤ 13) || n == 32 || n == 0x85 || n == 0xA0 || n == 0x1680 ||
    (0x2000 ≤ n && n ≤ 0x200A) || n == 0x2028 || n == 0x2029 || n == 0x202F ||
    n == 0x205F || n == 0x3000

/-- Letters whose capital has another length in bytes, with that capital. -/
def resizedCapitals : List (Nat × Nat) :=
  [(0x131, 0x49), (0x17F, 0x53), (0x19B, 0xA7DC), (0x23F, 0x2C7E), (0x240, 0x2C7F),
   (0x250, 0x2C6F), (0x251, 0x2C6D), (0x252, 0x2C70), (0x25C, 0xA7AB), (0x261, 0xA7AC),
   (0x264, 0xA7CB), (0x265, 0xA78D), (0x266, 0xA7AA), (0x26A, 0xA7AE), (0x26B, 0x2C62),
   (0x26C, 0xA7AD), (0x271, 0x2C6E), (0x27D, 0x2C64), (0x282, 0xA7C5), (0x287, 0xA7B1),
   (0x29D, 0xA7B2), (0x29E, 0xA7B0),
   (0x1C80, 0x412), (0x1C81, 0x414), (0x1C82, 0x41E), (0x1C83, 0x421), (0x1C84, 0x422),
   (0x1C85, 0x422), (0x1C86, 0x42A), (0x1C87, 0x462), (0x1FBE, 0x399), (0x2C65, 0x23A),
   (0x2C66, 0x23E)]

/-- The capital of a character, up to changes among characters of equal length. -/
def capitalOf (c : Char) : Char :=
  if c.toNat < 0x80 then c.toUpper
  else match resizedCapitals.find? (·.1 == c.toNat) with
    | some (_, n) => Char.ofNat n
    | none => c

/-- Capitals whose small letter has another length in bytes, with that small letter. -/
def resizedSmalls : List (Nat × Nat) :=
  [(0x130, 0x69), (0x23A, 0x2C65), (0x23E, 0x2C66), (0x1E9E, 0xDF), (0x2126, 0x3C9),
   (0x212A, 0x6B), (0x212B, 0xE5), (0x2C62, 0x26B), (0x2C64, 0x27D), (0x2C6D, 0x251),
   (0x2C6E, 0x271), (0x2C6F, 0x250), (0x2C70, 0x252), (0x2C7E, 0x23F), (0x2C7F, 0x240),
   (0xA78D, 0x265), (0xA7AA, 0x266), (0xA7AB, 0x25C), (0xA7AC, 0x261), (0xA7AD, 0x26C),
   (0xA7AE, 0x26A), (0xA7B0, 0x29E), (0xA7B1, 0x287), (0xA7B2, 0x29D), (0xA7C5, 0x282),
   (0xA7CB, 0x264), (0xA7DC, 0x19B)]

/-- The small letter of a character, up to changes among characters of equal length. -/
def smallOf (c : Char) : Char :=
  if c.toNat < 0x80 then c.toLower
  else match resizedSmalls.find? (·.1 == c.toNat) with
    | some (_, n) => Char.ofNat n
    | none => c

namespace Text

/-- The text in small letters; stray bytes are replaced. -/
def lower (t : Text) : Text := t.map fun r => .char (smallOf r.toChar)

/-- Splits at every character that `sep` accepts; empty pieces are dropped. -/
def pieces (sep : Rune → Bool) : Text → List Text
  | [] => []
  | r :: rest =>
    if sep r then pieces sep rest
    else match rest with
      | [] => [[r]]
      | r' :: _ =>
        if sep r' then [r] :: pieces sep rest
        else match pieces sep rest with
          | [] => [[r]]
          | w :: ws => (r :: w) :: ws

/-- Rewrites the first byte with `f` when it is a character of its own; the first byte of a
longer character turns into the replacement character and leaves its tail as stray bytes. -/
def onFirstByte (f : Char → Char) : Text → Text
  | [] => []
  | .stray _ :: rest => .char '\uFFFD' :: rest
  | .char c :: rest =>
    if c.toNat < 0x80 then .char (f c) :: rest
    else .char '\uFFFD' :: (Rune.char c).bytes.tail.map Rune.stray ++ rest

/-- Capitalises the first byte. -/
def capitalize (t : Text) : Text := onFirstByte Char.toUpper t

/-- Joins the runs of letters and digits, each with its first byte capitalised. -/
def pascalCase (t : Text) : Text :=
  (pieces (fun r => !isLetterOrDigit r.toChar) t).flatMap capitalize

def isSpacer (c : Char) : Bool := c == '_' || c == ':' || c == '-' || isBlank c

/-- `camelize` with the number of characters already in the current word known to be zero
or not. -/
def camelizeFrom : Bool → List Char → List Char
  | _, [] => []
  | inWord, c :: rest =>
    if isSpacer c then camelizeFrom false rest
    else if inWord && !c.isUpper then
      (if c.toNat < 0x80 then c.toLower else c) :: camelizeFrom true rest
    else capitalOf c :: camelizeFrom true rest

/-- Words are set apart by spacers and capitals; each starts with a capital and goes on in
lower case. -/
def camelize (t : Text) : Text := ofChars (camelizeFrom false t.toChars)

/-- `camelize` with the first byte lowered; a text without words has none. -/
def camelizeDown? (t : Text) : Option Text :=
  match camelize t with
  | [] => none
  | w => some (onFirstByte Char.toLower w)

end Text

end SchemaLoom

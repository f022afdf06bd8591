/-!
# Text

Text as it is read and written: characters, and bytes that belong to no
character. Names cut inside a character and sources that are not UTF-8 both
need the second kind, so a plain `String` does not suffice for them.

No normalisation is supplied: two texts are equal when their runes are.
-/

namespace SchemaLoom

/-- A character, or one byte that is part of no character. -/
inductive Rune where
  | char (c : Char)
  | stray (b : UInt8)
  deriving DecidableEq, Repr, Inhabited

abbrev Text := List Rune

namespace Rune

/-- The number of bytes a rune takes in UTF-8. -/
def size : Rune → Nat
  | char c => c.utf8Size
  | stray _ => 1

/-- The character of a rune; a stray byte reads as the replacement character. -/
def toChar : Rune → Char
  | char c => c
  | stray _ => '\uFFFD'

def bytes : Rune → List UInt8
  | char c => c.toString.toUTF8.toList
  | stray b => [b]

end Rune

namespace Text

def ofChars (cs : List Char) : Text := cs.map Rune.char

def ofString (s : String) : Text := ofChars s.toList

instance : Coe String Text := ⟨ofString⟩

instance : HAppend String Text Text := ⟨fun s t => ofString s ++ t⟩

instance : HAppend Text String Text := ⟨fun t s => t ++ ofString s⟩

/-- The characters, with each stray byte replaced. -/
def toChars (t : Text) : List Char := t.map Rune.toChar

/-- The text as a string, with each stray byte replaced. -/
def toDisplay (t : Text) : String := String.ofList t.toChars

/-- The characters, when there is no stray byte. -/
def chars? (t : Text) : Option (List Char) :=
  t.mapM fun
    | .char c => some c
    | .stray _ => none

/-- The string, when there is no stray byte. -/
def toString? (t : Text) : Option String := t.chars?.map String.ofList

/-- Length in bytes. -/
def size : Text → Nat
  | [] => 0
  | r :: t => r.size + size t

def bytes (t : Text) : List UInt8 := t.flatMap Rune.bytes

/-- Joins texts with a separator between neighbours. -/
def join (sep : Text) : List Text → Text
  | [] => []
  | [t] => t
  | t :: u :: rest => t ++ sep ++ join sep (u :: rest)

def concat (ts : List Text) : Text := ts.flatten

def ofNat (n : Nat) : Text := ofString (toString n)

def ofInt (n : Int) : Text := ofString (toString n)

def spaces (n : Nat) : Text := List.replicate n (.char ' ')

def hasChar (c : Char) (t : Text) : Bool := t.contains (.char c)

/-! ### UTF-8 -/

/-- A byte `10xxxxxx`. -/
def isTail (b : UInt8) : Bool := decide (0x80 ≤ b) && decide (b ≤ 0xBF)

/-- The payload of a tail byte. -/
def tailBits (b : UInt8) : Nat := b.toNat % 64

/-- The character at the head of a byte sequence, and the number of its bytes. Overlong
forms, surrogates and values past the last code point are no characters. -/
def headChar? : List UInt8 → Option (Char × Nat)
  | [] => none
  | a :: rest =>
    if a < 0x80 then some (Char.ofNat a.toNat, 1)
    else match rest with
    | [] => none
    | b :: rest =>
      if !isTail b then none
      else if 0xC2 ≤ a && a ≤ 0xDF then
        some (Char.ofNat ((a.toNat % 32) * 64 + tailBits b), 2)
      else match rest with
      | [] => none
      | c :: rest =>
        if !isTail c then none
        else if 0xE0 ≤ a && a ≤ 0xEF then
          let n := (a.toNat % 16) * 4096 + tailBits b * 64 + tailBits c
          if n < 0x800 || (0xD800 ≤ n && n ≤ 0xDFFF) then none
          else some (Char.ofNat n, 3)
        else match rest with
        | [] => none
        | d :: _ =>
          if !isTail d then none
          else if 0xF0 ≤ a && a ≤ 0xF4 then
            let n := (a.toNat % 8) * 262144 + tailBits b * 4096 + tailBits c * 64 + tailBits d
            if n < 0x10000 || 0x10FFFF < n then none
            else some (Char.ofNat n, 4)
          else none

/-- Reads at most `fuel` runes from a byte sequence. -/
def decode : Nat → List UInt8 → Text
  | 0, _ => []
  | _ + 1, [] => []
  | fuel + 1, b :: rest =>
    match headChar? (b :: rest) with
    | some (c, n) => .char c :: decode fuel ((b :: rest).drop n)
    | none => .stray b :: decode fuel rest

/-- Reads a byte sequence as UTF-8, one stray rune for each byte outside a character. -/
def ofBytes (bs : List UInt8) : Text := decode bs.length bs

end Text

end SchemaLoom

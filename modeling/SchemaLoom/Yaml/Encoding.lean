import SchemaLoom.Text

/-!
# Encodings of YAML streams

A stream is UTF-8 unless it starts with the byte order mark of UTF-16. The mark
in front is not part of the stream.
-/

namespace SchemaLoom.Yaml

/-- Which byte of a unit of sixteen bits comes first. -/
inductive ByteOrder where
  | littleEndian
  | bigEndian
  deriving DecidableEq, Repr

/-- The unit that two bytes form. -/
def ByteOrder.unit (o : ByteOrder) (a b : UInt8) : Nat :=
  match o with
  | littleEndian => a.toNat + 256 * b.toNat
  | bigEndian => 256 * a.toNat + b.toNat

def isHighSurrogate (u : Nat) : Bool := 0xD800 ≤ u && u ≤ 0xDBFF

def isLowSurrogate (u : Nat) : Bool := 0xDC00 ≤ u && u ≤ 0xDFFF

def ofSurrogates (high low : Nat) : Char :=
  Char.ofNat (0x10000 + (high - 0xD800) * 1024 + (low - 0xDC00))

/-- Reads UTF-16. Half a unit and a surrogate without partner are refused. -/
def utf16? (o : ByteOrder) : List UInt8 → Option (List Char)
  | [] => some []
  | [_] => none
  | a :: b :: rest =>
    let u := o.unit a b
    if isLowSurrogate u then none
    else if isHighSurrogate u then
      match rest with
      | c :: d :: rest =>
        let v := o.unit c d
        if isLowSurrogate v then (utf16? o rest).map (ofSurrogates u v :: ·) else none
      | _ => none
    else (utf16? o rest).map (Char.ofNat u :: ·)

def streamChars? (t : Text) : Option (List Char) :=
  match t with
  | .stray 0xFF :: .stray 0xFE :: rest => utf16? .littleEndian (Text.bytes rest)
  | .stray 0xFE :: .stray 0xFF :: rest => utf16? .bigEndian (Text.bytes rest)
  | .char '\uFEFF' :: rest => Text.chars? rest
  | _ => t.chars?

end SchemaLoom.Yaml

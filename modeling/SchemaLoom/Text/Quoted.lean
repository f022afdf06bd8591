import SchemaLoom.Text
import SchemaLoom.Text.Graphic

/-!
# Quoted text

Two ways to write a text between double quotes. `quoteLiteral` writes a string
literal of the generated module: it leaves every character as it is unless the
literal would end or break at it. `quoteForMessage` writes a text inside a
diagnostic, where only graphic characters stand for themselves.
-/

namespace SchemaLoom

def hexDigit (n : Nat) : Char := (n % 16).digitChar

/-- `n` in hexadecimal with exactly `width` digits, high digits cut. -/
def hexDigits : Nat → Nat → List Char
  | 0, _ => []
  | width + 1, n => hexDigits width (n / 16) ++ [hexDigit n]

namespace Text

/-- One character inside a string literal. -/
def quoteChar (c : Char) : List Char :=
  if c = '"' then ['\\', '"']
  else if c = '\\' then ['\\', '\\']
  else if c = '\n' then ['\\', 'n']
  else if c = '\r' then ['\\', 'r']
  else if c = '\t' then ['\\', 't']
  else if c = '\u2028' || c = '\u2029' || decide (c.toNat < 0x20) then
    '\\' :: 'u' :: hexDigits 4 c.toNat
  else [c]

/-- A double-quoted string literal that denotes the given characters. -/
def quoteChars (cs : List Char) : List Char :=
  '"' :: cs.flatMap quoteChar ++ ['"']

/-- A double-quoted string literal; a stray byte is written as the replacement character. -/
def quoteLiteral (t : Text) : Text := ofChars (quoteChars t.toChars)

/-- One rune inside a diagnostic. -/
def quoteRune : Rune → List Char
  | .stray b => '\\' :: 'x' :: hexDigits 2 b.toNat
  | .char c =>
    if c = '"' then ['\\', '"']
    else if c = '\\' then ['\\', '\\']
    else if isGraphic c then [c]
    else match c.toNat with
      | 7 => ['\\', 'a']
      | 8 => ['\\', 'b']
      | 12 => ['\\', 'f']
      | 10 => ['\\', 'n']
      | 13 => ['\\', 'r']
      | 9 => ['\\', 't']
      | 11 => ['\\', 'v']
      | n =>
        if n < 0x20 || n = 0x7F then '\\' :: 'x' :: hexDigits 2 n
        else if n < 0x10000 then '\\' :: 'u' :: hexDigits 4 n
        else '\\' :: 'U' :: hexDigits 8 n

/-- A text between double quotes as diagnostics show it. -/
def quoteForMessage (t : Text) : Text :=
  ofChars ('"' :: t.flatMap quoteRune ++ ['"'])

end Text

end SchemaLoom

import SchemaLoom.Json
import SchemaLoom.Text.Quoted

/-!
# Writing JSON

The compact form with the members of every object in key order. Characters that
mean something in markup are written as escapes.
-/

namespace SchemaLoom.Json

/-- One character inside a string. -/
def writeChar (c : Char) : List Char :=
  if c = '"' then ['\\', '"']
  else if c = '\\' then ['\\', '\\']
  else if c = '\n' then ['\\', 'n']
  else if c = '\r' then ['\\', 'r']
  else if c = '\t' then ['\\', 't']
  else if c = '<' || c = '>' || c = '&' || c = '\u2028' || c = '\u2029' ||
      decide (c.toNat < 0x20) then '\\' :: 'u' :: hexDigits 4 c.toNat
  else [c]

def writeString (s : String) : List Char := '"' :: s.toList.flatMap writeChar ++ ['"']

/-- Parts between an opening and a closing character, with commas. -/
def enclose (opening closing : Char) (parts : List (List Char)) : List Char :=
  opening :: (parts.intersperse [',']).flatten ++ [closing]

/-- Written members in key order. -/
def inKeyOrder (ms : List (String × List Char)) : List (List Char) :=
  (ms.mergeSort fun a b => decide (a.1 ≤ b.1)).map fun (k, v) => writeString k ++ ':' :: v

mutual
def write : Json → List Char
  | null => "null".toList
  | bool b => (if b then "true" else "false").toList
  | number t => t.toList
  | string s => writeString s
  | array items => enclose '[' ']' (writeAll items)
  | object ms => enclose '\x7b' '\x7d' (inKeyOrder (writeMembers ms))

def writeAll : List Json → List (List Char)
  | [] => []
  | j :: js => j.write :: writeAll js

def writeMembers : List Member → List (String × List Char)
  | [] => []
  | m :: ms => writeMember m :: writeMembers ms

def writeMember : Member → String × List Char
  | ⟨key, _, v⟩ => (key, v.write)
end

/-- Members without those a later one of the same key replaces. -/
def lastWins : List Member → List Member
  | [] => []
  | m :: ms => if ms.any (·.key == m.key) then lastWins ms else m :: lastWins ms

mutual
/-- The plain data of a value: numbers are doubles, the last member of a key counts. Nothing if
a number is out of range. -/
def data? : Json → Option Json
  | number t => (double? t).map fun x => number x.text
  | array items => (dataAll? items).map array
  | object ms => (dataMembers? ms).map fun ms => object (lastWins ms)
  | j => some j

def dataAll? : List Json → Option (List Json)
  | [] => some []
  | j :: js => do
    let j ← data? j
    let js ← dataAll? js
    some (j :: js)

def dataMembers? : List Member → Option (List Member)
  | [] => some []
  | m :: ms => do
    let m ← dataMember? m
    let ms ← dataMembers? ms
    some (m :: ms)

def dataMember? : Member → Option Member
  | ⟨key, source, v⟩ => do
    let value ← data? v
    some { key, source, value }
end

end SchemaLoom.Json

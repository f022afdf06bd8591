/-!
# Moments

Dates and times as YAML writes them, read strictly by the calendar, and written
again with a zone.
-/

namespace SchemaLoom.Yaml

/-- A moment on the calendar; `offset` is the zone's distance from the meridian in minutes. -/
structure Moment where
  year : Nat
  month : Nat
  day : Nat
  hour : Nat := 0
  minute : Nat := 0
  second : Nat := 0
  nanos : Nat := 0
  offset : Int := 0
  deriving DecidableEq, Repr, Inhabited

namespace Moment

def isLeap (y : Nat) : Bool := y % 4 == 0 && (y % 100 != 0 || y % 400 == 0)

def daysIn (y m : Nat) : Nat :=
  if m == 2 then (if isLeap y then 29 else 28)
  else if m == 4 || m == 6 || m == 9 || m == 11 then 30
  else 31

def padded (width n : Nat) : String :=
  let s := toString n
  String.ofList (List.replicate (width - s.length) '0') ++ s

/-- The fraction of a second without trailing zeros. -/
def fractionText (nanos : Nat) : String :=
  if nanos == 0 then ""
  else
    let ds := (padded 9 nanos).toList.reverse.dropWhile (· == '0') |>.reverse
    "." ++ String.ofList ds

/-- Date, `T`, time and zone. -/
def text (m : Moment) : String :=
  let zone :=
    if m.offset == 0 then "Z"
    else (if m.offset < 0 then "-" else "+") ++ padded 2 (m.offset.natAbs / 60) ++ ":" ++
      padded 2 (m.offset.natAbs % 60)
  padded 4 m.year ++ "-" ++ padded 2 m.month ++ "-" ++ padded 2 m.day ++ "T" ++
    padded 2 m.hour ++ ":" ++ padded 2 m.minute ++ ":" ++ padded 2 m.second ++
    fractionText m.nanos ++ zone

end Moment

/-- One or two digits. -/
def shortField? (cs : List Char) : Option (Nat × List Char) :=
  match cs with
  | a :: b :: rest =>
    if a.isDigit && b.isDigit then some ((a.toNat - 48) * 10 + (b.toNat - 48), rest)
    else if a.isDigit then some (a.toNat - 48, b :: rest)
    else none
  | [a] => if a.isDigit then some (a.toNat - 48, []) else none
  | [] => none

/-- Exactly two digits. -/
def twoDigits? : List Char → Option (Nat × List Char)
  | a :: b :: rest =>
    if a.isDigit && b.isDigit then some ((a.toNat - 48) * 10 + (b.toNat - 48), rest) else none
  | _ => none

def expect? (c : Char) : List Char → Option (List Char)
  | d :: rest => if c == d then some rest else none
  | [] => none

/-- A fraction of a second, cut to nanoseconds. -/
def fraction? (cs : List Char) : Option (Nat × List Char) :=
  match cs with
  | p :: d :: rest =>
    if (p == '.' || p == ',') && d.isDigit then
      let ds := (d :: rest).takeWhile Char.isDigit
      let kept := (ds ++ List.replicate 9 '0').take 9
      some (kept.foldl (fun n c => n * 10 + (c.toNat - 48)) 0, (d :: rest).drop ds.length)
    else some (0, cs)
  | _ => some (0, cs)

/-- A zone: `Z` or a signed distance. -/
def zone? : List Char → Option (Int × List Char)
  | 'Z' :: rest => some (0, rest)
  | s :: rest => do
    if s != '+' && s != '-' then none
    let (h, rest) ← twoDigits? rest
    let rest ← expect? ':' rest
    let (m, rest) ← twoDigits? rest
    if 24 < h || 60 < m then none
    let total : Int := (h * 60 + m : Nat)
    some (if s == '-' then -total else total, rest)
  | [] => none

def timeOf? (m : Moment) (cs : List Char) : Option (Moment × List Char) := do
  let (hour, cs) ← shortField? cs
  let cs ← expect? ':' cs
  let (minute, cs) ← shortField? cs
  let cs ← expect? ':' cs
  let (second, cs) ← shortField? cs
  let (nanos, cs) ← fraction? cs
  if 24 ≤ hour || 60 ≤ minute || 60 ≤ second then none
  some ({ m with hour, minute, second, nanos }, cs)

/-- A date of a four-digit year, alone, or with a time: behind `T` or `t` with a zone, behind
a space without one. -/
def moment? (cs : List Char) : Option Moment := do
  if (cs.takeWhile Char.isDigit).length != 4 then none
  let year := (cs.take 4).foldl (fun n c => n * 10 + (c.toNat - 48)) 0
  let cs ← expect? '-' (cs.drop 4)
  let (month, cs) ← shortField? cs
  let cs ← expect? '-' cs
  let (day, cs) ← shortField? cs
  if month < 1 || 12 < month || day < 1 || Moment.daysIn year month < day then none
  let date : Moment := { year, month, day }
  match cs with
  | [] => some date
  | ' ' :: rest => do
    let (m, rest) ← timeOf? date (rest.dropWhile (· == ' '))
    if rest.isEmpty then some m else none
  | t :: rest => do
    if t != 'T' && t != 't' then none
    let (m, rest) ← timeOf? date rest
    let (offset, rest) ← zone? rest
    if rest.isEmpty then some { m with offset } else none

end SchemaLoom.Yaml

import SchemaLoom.Text

/-!
# Graphic rendition

How a terminal is told to show text: colours, attributes such as bold, kinds of
underline, and links. A control sequence changes the rendition, and every rendition
can be written as one sequence that brings it about.

A parameter of a sequence may be left out and then reads as zero. Behind a colon it
belongs to the parameter before it.
-/

namespace SchemaLoom

/-- A parameter of a control sequence. -/
structure Parameter where
  value : Nat := 0
  /-- A colon follows. -/
  more : Bool := false
  deriving DecidableEq, Repr, Inhabited

namespace Parameter

/-- The parameters of a sequence behind the digits of an open one; none where a character is
neither a digit nor a separator. -/
def read? (value : Nat) : List Char → Option (List Parameter)
  | [] => some [⟨value, false⟩]
  | c :: cs =>
    if c.isDigit then read? (10 * value + (c.toNat - 48)) cs
    else if c == ':' || c == ';' then (read? 0 cs).map (⟨value, c == ':'⟩ :: ·)
    else none

/-- The parameters of a sequence; an empty list of characters has none. -/
def all? (cs : List Char) : Option (List Parameter) :=
  if cs.isEmpty then some [] else read? 0 cs

end Parameter

/-! ### Colours -/

inductive Color where
  /-- One of eight colours, or of their eight bright forms. -/
  | basic (n : Nat)
  | indexed (n : Nat)
  | direct (red green blue : Nat)
  deriving DecidableEq, Repr

namespace Color

/-- The codes of a colour behind `start`. -/
def codes (start : Nat) : Color → List Nat
  | basic n => [start, 5, n]
  | indexed n => [start, 5, n]
  | direct r g b => [start, 2, r, g, b]

def foregroundCodes : Color → List Nat
  | basic n => [if n < 8 then 30 + n else 82 + n]
  | c => c.codes 38

def backgroundCodes : Color → List Nat
  | basic n => [if n < 8 then 40 + n else 92 + n]
  | c => c.codes 48

/-- A share of light left by an ink and by black, in steps of one byte. -/
def lightOf (ink black : Nat) : Nat :=
  let light := (0xFFFF - ink * 0x101) * (0xFFFF - black * 0x101) / 0xFFFF
  if 0xFF < light then light / 256 else light

/-- The colour that inks leave on white. -/
def ofInks (cyan magenta yellow black : Nat) : Color :=
  direct (lightOf cyan black) (lightOf magenta black) (lightOf yellow black)

/-- The components of a colour and the number of parameters up to the last of them. With
colons a colour space may stand in front of them and further parameters behind. -/
def components? (ps : List Parameter) : Option (List Nat × Nat) :=
  let byte (i : Nat) : Nat := (ps.getD i {}).value % 256
  let more (i : Nat) : Bool := (ps.getD i {}).more
  let colons (n : Nat) : Bool := (List.range n).all more
  if 8 < ps.length && colons 8 then some ([byte 3, byte 4, byte 5, byte 6], 9)
  else if 7 < ps.length && colons 7 then some ([byte 3, byte 4, byte 5, byte 6], 8)
  else if 6 < ps.length && colons 6 then some ([byte 3, byte 4, byte 5, byte 6], 7)
  else if 5 < ps.length && colons 5 && !more 5 then some ([byte 3, byte 4, byte 5], 6)
  else if (ps.getD 1 {}).value == 2 &&
      ((colons 4 && !more 4) || (List.range 5).all fun i => !more i) then
    some ([byte 2, byte 3, byte 4], 5)
  else none

/-- The colour that parameters set, and how many of them it takes. The first parameter tells
what is coloured, the second how the colour is given. -/
def read? (ps : List Parameter) : Option (Option Color × Nat) :=
  match ps with
  | target :: kind :: _ =>
    match kind.value, components? ps with
    | 0, _ => some (none, 2)
    | 1, _ => some (some (direct 0 0 0), 2)
    | 2, some (r :: g :: b :: _, n) =>
      if ps.length < 5 then none else some (some (direct r g b), n)
    | 3, some (c :: m :: y :: _, n) =>
      if ps.length < 5 then none else some (some (ofInks c m y 0), n)
    | 4, some ([c, m, y, k], n) => some (some (ofInks c m y k), n)
    | 5, _ =>
      match ps[2]? with
      | some p =>
        if target.more == kind.more && !p.more then some (some (indexed (p.value % 256)), 3)
        else none
      | none => none
    | 6, some ([r, g, b, _], n) => some (some (direct r g b), n)
    | _, _ => none
  | _ => none

end Color

/-! ### Renditions -/

structure Rendition where
  foreground : Option Color := none
  background : Option Color := none
  underlineColor : Option Color := none
  /-- The codes of the attributes that are set. -/
  attributes : List Nat := []
  /-- The kind of underline, zero for none. -/
  underline : Nat := 0
  deriving DecidableEq, Repr

namespace Rendition

def isPlain (r : Rendition) : Bool := r = {}

/-- Whether blanks show: they do under a background, an underline and reversed colours. -/
def showsBlanks (r : Rendition) : Bool :=
  r.background.isSome || r.underline != 0 || r.attributes.contains 7

/-- The codes of attributes in the order in which they are written. -/
def attributeCodes : List Nat := [1, 2, 3, 5, 6, 7, 8, 9]

def setAttribute (r : Rendition) (code : Nat) : Rendition :=
  { r with attributes := attributeCodes.filter fun a => a == code || r.attributes.contains a }

def clearAttributes (r : Rendition) (codes : List Nat) : Rendition :=
  { r with attributes := r.attributes.filter fun a => !codes.contains a }

/-- Changes a colour as the parameters say, and tells how many more of them that takes. -/
def recolor (r : Rendition) (ps : List Parameter) (set : Option Color → Rendition) :
    Rendition × Nat :=
  match Color.read? ps with
  | some (c, n) => (set c, n - 1)
  | none => (r, 0)

/-- The effect of one parameter, and how many of those behind it belong to it. -/
def apply (r : Rendition) (p : Parameter) (rest : List Parameter) : Rendition × Nat :=
  let n := p.value
  if n == 0 then ({}, 0)
  else if n == 4 then
    match p.more, rest.head? with
    | true, some kind => if kind.value ≤ 5 then ({ r with underline := kind.value }, 1) else (r, 0)
    | _, _ => ({ r with underline := 1 }, 0)
  else if attributeCodes.contains n then (r.setAttribute n, 0)
  else if n == 22 then (r.clearAttributes [1, 2], 0)
  else if n == 24 then ({ r with underline := 0 }, 0)
  else if n == 25 then (r.clearAttributes [5, 6], 0)
  else if n == 23 || n == 27 || n == 28 || n == 29 then (r.clearAttributes [n - 20], 0)
  else if 30 ≤ n && n ≤ 37 then ({ r with foreground := some (.basic (n - 30)) }, 0)
  else if n == 38 then r.recolor (p :: rest) fun c => { r with foreground := c }
  else if n == 39 then ({ r with foreground := none }, 0)
  else if 40 ≤ n && n ≤ 47 then ({ r with background := some (.basic (n - 40)) }, 0)
  else if n == 48 then r.recolor (p :: rest) fun c => { r with background := c }
  else if n == 49 then ({ r with background := none }, 0)
  else if n == 58 then r.recolor (p :: rest) fun c => { r with underlineColor := c }
  else if n == 59 then ({ r with underlineColor := none }, 0)
  else if 90 ≤ n && n ≤ 97 then ({ r with foreground := some (.basic (n - 82)) }, 0)
  else if 100 ≤ n && n ≤ 107 then ({ r with background := some (.basic (n - 92)) }, 0)
  else (r, 0)

/-- The effect of parameters of which the first `skip` have been used. -/
def applyAll (skip : Nat) (r : Rendition) : List Parameter → Rendition
  | [] => r
  | p :: ps =>
    match skip with
    | n + 1 => applyAll n r ps
    | 0 =>
      let (r, n) := r.apply p ps
      applyAll n r ps

/-- The effect of a control sequence that sets the rendition; without parameters it resets
it. -/
def update (r : Rendition) (ps : List Parameter) : Rendition :=
  if ps.isEmpty then {} else applyAll 0 r ps

/-- A control sequence with the given codes. -/
def sequence (codes : List Text) : Text := "\x1B[" ++ Text.join ";" codes ++ "m"

/-- The sequence that resets the rendition. -/
def reset : Text := sequence []

/-- The sequence that brings a rendition about. -/
def write (r : Rendition) : Text :=
  let underline : List Text :=
    if r.underline == 0 then []
    else if r.underline == 1 then ["4"]
    else ["4:" ++ Text.ofNat r.underline]
  let colors :=
    (r.foreground.map Color.foregroundCodes).getD [] ++
    (r.background.map Color.backgroundCodes).getD [] ++
    (r.underlineColor.map (Color.codes 58)).getD []
  sequence (r.attributes.map Text.ofNat ++ underline ++ colors.map Text.ofNat)

end Rendition

/-! ### Links -/

structure Link where
  parameters : Text := []
  target : Text := []
  deriving DecidableEq, Repr

namespace Link

def isNone (l : Link) : Bool := l = {}

/-- The command that begins a link, for no link the one that ends it. -/
def write (l : Link) : Text := "\x1B]8;" ++ l.parameters ++ ";" ++ l.target ++ "\x07"

/-- The parts of a text between semicolons. -/
def fields : Text → List Text
  | [] => [[]]
  | r :: t =>
    match fields t with
    | [] => [[r]]
    | f :: fs => if r = .char ';' then [] :: f :: fs else (r :: f) :: fs

/-- The link a command sets: its number is eight, and it has three fields. -/
def ofCommand? (command : Text) : Option Link :=
  let digits := (command.toChars.takeWhile Char.isDigit).foldl (fun n c => 10 * n + (c.toNat - 48)) 0
  match fields command with
  | [_, parameters, target] => if digits == 8 then some ⟨parameters, target⟩ else none
  | _ => none

end Link

end SchemaLoom

import SchemaLoom.Yaml.Token

/-!
# Text of YAML scalars

Reading of plain, quoted and block scalars. A line break inside a scalar is
folded: one break reads as a space, further breaks stay.
-/

namespace SchemaLoom.Yaml

/-- White space inside a scalar: spaces on one line, or breaks and all around them. -/
structure Gap where
  spaces : List Char := []
  breaks : List (List Char) := []
  /-- A break was met, or escaped. -/
  broken : Bool := false
  deriving Repr, Inhabited

namespace Gap

/-- What a gap between two words reads as. -/
def fold (g : Gap) : List Char :=
  if !g.broken then g.spaces
  else match g.breaks with
    | [] => []
    | first :: more =>
      if first == ['\n'] then (if more.isEmpty then [' '] else more.flatten)
      else first ++ more.flatten

/-- Reads a gap. `limit` is the column that tabs may not stand before once a line is broken;
such a tab refuses the scalar. After an escaped break the first real one is kept as it is. -/
def read (limit : Nat) : Nat → Gap → Cursor → Option (Gap × Cursor)
  | 0, g, c => some (g, c)
  | fuel + 1, g, c =>
    match c.peek? with
    | none => some (g, c)
    | some ch =>
      if isSpace ch then
        if g.broken && ch == '\t' && decide (c.column < limit) then none
        else if g.broken then read limit fuel g (c.forward 1)
        else read limit fuel { g with spaces := g.spaces ++ [ch] } (c.forward 1)
      else if isBreak ch then
        read limit fuel
          { g with spaces := [], breaks := g.breaks ++ [c.breakText], broken := true } c.newline
      else some (g, c)

end Gap

/-! ### Plain scalars -/

/-- Characters that end a plain scalar between flow brackets. -/
def isFlowStop (c : Char) : Bool :=
  c == ',' || c == '?' || c == '[' || c == ']' || c == '\x7b' || c == '\x7d'

/-- The part of a line up to a gap, a `: `, or a bracket in flow context. -/
def plainWord (flow : Bool) : List Char → List Char
  | [] => []
  | c :: rest =>
    if isGap c || (c == ':' && endsWord rest.head?) || (flow && isFlowStop c) then []
    else c :: plainWord flow rest

/-- Reads on a plain scalar after `gap`; `indent` is the least column of its further lines. -/
def readPlain (flow : Bool) (indent : Nat) :
    Nat → List Char → Gap → Cursor → Option (List Char × Bool × Cursor)
  | 0, text, gap, c => some (text, gap.broken, c)
  | fuel + 1, text, gap, c =>
    if c.atDocumentMarker || c.peek? == some '#' then some (text, gap.broken, c)
    else
      let word := plainWord flow c.rest
      let next := c.forward word.length
      let (text, gap) := if word.isEmpty then (text, gap) else (text ++ gap.fold ++ word, {})
      if word.isEmpty || !(next.peek?.map isGap).getD false then some (text, gap.broken, next)
      else do
        let (gap, next) ← Gap.read indent (next.rest.length + 1) {} next
        if !flow && decide (next.column < indent) then some (text, gap.broken, next)
        else readPlain flow indent fuel text gap next

/-- A plain scalar: its text, whether a line break follows it, and the rest. -/
def plainScalar? (flow : Bool) (indent : Nat) (c : Cursor) :
    Option (String × Bool × Cursor) := do
  let (text, broken, c) ← readPlain flow indent (c.rest.length + 1) [] {} c
  some (String.ofList text, broken, c)

/-! ### Quoted scalars -/

def hexValue? (c : Char) : Option Nat :=
  if c.isDigit then some (c.toNat - 48)
  else if 'a' ≤ c && c ≤ 'f' then some (c.toNat - 87)
  else if 'A' ≤ c && c ≤ 'F' then some (c.toNat - 55)
  else none

/-- The number that exactly `n` hexadecimal digits denote. -/
def hexNumber? (n : Nat) (cs : List Char) : Option Nat :=
  if cs.length < n then none
  else (cs.take n).foldlM (fun acc c => (hexValue? c).map (acc * 16 + ·)) 0

/-- What a backslash and a character stand for; for the numeric forms, the number of digits. -/
def escape? (c : Char) : Option (Char ⊕ Nat) :=
  match c with
  | '0' => some (.inl '\x00')
  | 'a' => some (.inl '\x07')
  | 'b' => some (.inl '\x08')
  | 't' => some (.inl '\t')
  | '\t' => some (.inl '\t')
  | 'n' => some (.inl '\n')
  | 'v' => some (.inl '\x0b')
  | 'f' => some (.inl '\x0c')
  | 'r' => some (.inl '\r')
  | 'e' => some (.inl '\x1b')
  | ' ' => some (.inl ' ')
  | '"' => some (.inl '"')
  | '\\' => some (.inl '\\')
  | 'N' => some (.inl '\u0085')
  | '_' => some (.inl '\u00a0')
  | 'L' => some (.inl '\u2028')
  | 'P' => some (.inl '\u2029')
  | 'x' => some (.inr 2)
  | 'u' => some (.inr 4)
  | 'U' => some (.inr 8)
  | _ => if c.toNat == 39 then some (.inl c) else none

/-- The characters up to a gap or the closing quote, and whether an escaped line break ended
them. They are collected in reverse. -/
def quotedWord (single : Bool) : Nat → List Char → Cursor → Option (List Char × Bool × Cursor)
  | 0, acc, c => some (acc.reverse, false, c)
  | fuel + 1, acc, c =>
    match c.rest with
    | [] => some (acc.reverse, false, c)
    | ch :: rest =>
      if isGap ch then some (acc.reverse, false, c)
      else if single then
        if ch.toNat == 39 then
          if (rest.head?.map (·.toNat == 39)).getD false then
            quotedWord single fuel (ch :: acc) (c.forward 2)
          else some (acc.reverse, false, c)
        else quotedWord single fuel (ch :: acc) (c.forward 1)
      else if ch == '"' then some (acc.reverse, false, c)
      else if ch == '\\' then
        match rest with
        | [] => none
        | e :: digits =>
          if isBreak e then some (acc.reverse, true, (c.forward 1).newline)
          else match escape? e with
            | none => none
            | some (.inl x) => quotedWord single fuel (x :: acc) (c.forward 2)
            | some (.inr n) => do
              let v ← hexNumber? n digits
              if (0xD800 ≤ v && v ≤ 0xDFFF) || 0x10FFFF < v then none
              else quotedWord single fuel (Char.ofNat v :: acc) (c.forward (2 + n))
      else quotedWord single fuel (ch :: acc) (c.forward 1)

/-- Reads on a quoted scalar up to its closing quote. -/
def readQuoted (single : Bool) : Nat → List Char → Cursor → Option (List Char × Cursor)
  | 0, _, _ => none
  | fuel + 1, text, c =>
    if c.atDocumentMarker || c.rest.isEmpty then none
    else do
      let (word, escaped, c) ← quotedWord single (c.rest.length + 1) [] c
      let text := text ++ word
      let closes := match c.peek? with
        | some ch => if single then ch.toNat == 39 else ch == '"'
        | none => false
      if closes then some (text, c.forward 1)
      else
        -- an escaped break counts as the first one and adds nothing
        let start : Gap := if escaped then { breaks := [[]], broken := true } else {}
        let (gap, c) ← Gap.read 0 (c.rest.length + 1) start c
        readQuoted single fuel (text ++ gap.fold) c

/-- A quoted scalar, the cursor being at its opening quote. -/
def quotedScalar? (single : Bool) (c : Cursor) : Option (String × Cursor) := do
  let c := c.forward 1
  let (text, c) ← readQuoted single (c.rest.length + 2) [] c
  some (String.ofList text, c)

/-! ### Block scalars -/

/-- What happens to the line breaks at the end of a block scalar. -/
inductive Chomp where
  | strip
  | clip
  | keep
  deriving DecidableEq, Repr

def chompOf? : Char → Option Chomp
  | '+' => some .keep
  | '-' => some .strip
  | _ => none

/-- An indentation indicator; zero is none. -/
def indicator? (c : Char) : Option Nat :=
  if c.isDigit then some (c.toNat - 48) else none

/-- The indicators of a block scalar header, in either order. -/
def blockHeader? (c : Cursor) : Option (Chomp × Nat × Cursor) :=
  match c.peek? with
  | none => some (.clip, 0, c)
  | some a =>
    let second := c.peekAt? 1
    match chompOf? a, indicator? a with
    | some chomp, _ =>
      match second.bind indicator? with
      | some 0 => none
      | some n => some (chomp, n, c.forward 2)
      | none => some (chomp, 0, c.forward 1)
    | none, some 0 => none
    | none, some n =>
      match second.bind chompOf? with
      | some chomp => some (chomp, n, c.forward 2)
      | none => some (.clip, n, c.forward 1)
    | none, none => some (.clip, 0, c)

/-- Eats indentation and empty lines. Without a set indentation every space counts, and the
widest column met is the one. -/
def blockBreaks (indent : Nat) :
    Nat → Nat → List (List Char) → Cursor → Option (List (List Char) × Nat × Cursor)
  | 0, widest, breaks, c => some (breaks, widest, c)
  | fuel + 1, widest, breaks, c =>
    let room := if indent == 0 then c.rest.length else indent - c.column
    let c := c.forward ((c.rest.take room).takeWhile (· == ' ')).length
    let widest := max widest c.column
    match c.peek? with
    | none => some (breaks, widest, c)
    | some ch =>
      if ch == '\t' && (indent == 0 || decide (c.column < indent)) then none
      else if isBreak ch then
        blockBreaks indent fuel widest (breaks ++ [c.breakText]) c.newline
      else some (breaks, widest, c)

/-- The state between two lines of a block scalar. -/
structure BlockText where
  text : List Char := []
  leadingBreak : List Char := []
  trailing : List (List Char) := []
  blank : Bool := false
  deriving Repr, Inhabited

/-- Reads the lines of a block scalar that stand at the indentation. -/
def blockLines (literal : Bool) (indent : Nat) : Nat → BlockText → Cursor →
    Option (BlockText × Cursor)
  | 0, b, c => some (b, c)
  | fuel + 1, b, c =>
    if c.column != indent || c.rest.isEmpty then some (b, c)
    else do
      let blank := (c.peek?.map isSpace).getD false
      -- one break between two lines of text folds into a space
      let joint :=
        if !literal && !b.blank && !blank && b.leadingBreak == ['\n'] then
          (if b.trailing.isEmpty then [' '] else [])
        else b.leadingBreak
      let (line, c) := c.takeWhile (! isBreak ·)
      let text := b.text ++ joint ++ b.trailing.flatten ++ line
      let leadingBreak := c.breakText
      let (trailing, _, c) ← blockBreaks indent (c.rest.length + 1) 0 [] c.newline
      blockLines literal indent fuel { text, leadingBreak, trailing, blank } c

/-- A block scalar below indentation `parent` (negative at the top), the cursor being at its
indicator. -/
def blockScalar? (literal : Bool) (parent : Int) (c : Cursor) : Option (String × Cursor) := do
  let (chomp, increment, c) ← blockHeader? (c.forward 1)
  let c := c.skipWhile isSpace
  let c := if c.peek? == some '#' then c.skipLine else c
  if !endsLine c.peek? then none
  else
    let c := c.newline
    let set := if increment == 0 then 0 else (max parent 0).toNat + increment
    let (trailing, widest, c) ← blockBreaks set (c.rest.length + 1) 0 [] c
    -- without an indicator the first lines tell the indentation
    let indent := if set == 0 then max widest (max (parent + 1).toNat 1) else set
    let (b, c) ← blockLines literal indent (c.rest.length + 1) { trailing } c
    let tail := match chomp with
      | .strip => []
      | .clip => b.leadingBreak
      | .keep => b.leadingBreak ++ b.trailing.flatten
    some (String.ofList (b.text ++ tail), c)

end SchemaLoom.Yaml

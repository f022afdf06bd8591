import SchemaLoom.Yaml.Encoding
import SchemaLoom.Yaml.Scan
import SchemaLoom.Yaml.Tag

/-!
# YAML documents as nodes

The tree of the first document of a stream. An alias is a leaf that names an
anchored node of the document's table; since a node may be anchored before it
is complete, an alias may lie inside the node it names.
-/

namespace SchemaLoom.Yaml

/-- A node with its line and short tag. -/
inductive Node where
  | scalar (line : Nat) (tag : String) (text : String)
  | sequence (line : Nat) (tag : String) (items : List Node)
  | mapping (line : Nat) (tag : String) (entries : List (Node × Node))
  /-- The `occurrence`-th alias of the document, standing for anchored node `target`. -/
  | aliasOf (line : Nat) (name : String) (target occurrence : Nat)
  deriving Repr, Inhabited

namespace Node

def line : Node → Nat
  | scalar l _ _ | sequence l _ _ | mapping l _ _ | aliasOf l _ _ _ => l

/-- The text a node itself carries: that of a scalar, the name of an alias, none else. -/
def text : Node → String
  | scalar _ _ t => t
  | aliasOf _ n _ _ => n
  | _ => ""

def tag : Node → String
  | scalar _ t _ | sequence _ t _ | mapping _ t _ => t
  | aliasOf .. => ""

/-- Whether two nodes are of one form. -/
def sameForm : Node → Node → Bool
  | scalar .., scalar .. => true
  | sequence .., sequence .. => true
  | mapping .., mapping .. => true
  | aliasOf .., aliasOf .. => true
  | _, _ => false

def isMapping : Node → Bool
  | mapping .. => true
  | _ => false

/-- The entries of a mapping, none elsewhere. -/
def entries : Node → List (Node × Node)
  | mapping _ _ es => es
  | _ => []

mutual
/-- The number of nodes of a tree. -/
def size : Node → Nat
  | scalar .. => 1
  | aliasOf .. => 1
  | sequence _ _ items => 1 + sizeAll items
  | mapping _ _ es => 1 + sizeEntries es

def sizeAll : List Node → Nat
  | [] => 0
  | n :: ns => n.size + sizeAll ns

def sizeEntries : List (Node × Node) → Nat
  | [] => 0
  | e :: es => sizeEntry e + sizeEntries es

def sizeEntry : Node × Node → Nat
  | (k, v) => k.size + v.size
end

end Node

/-- The anchored nodes of a document. -/
abbrev Anchors := Array Node

/-- A document: its root, its anchored nodes and the number of its aliases. -/
structure Document where
  root : Node
  anchors : Anchors := #[]
  aliases : Nat := 0
  deriving Repr, Inhabited

/-- Enough depth for every walk that enters no alias twice. -/
def Document.depth (d : Document) : Nat :=
  let total := d.root.size + Node.sizeAll d.anchors.toList
  (d.aliases + 1) * (total + 1)

/-! ### From tokens to nodes -/

/-- The state of reading nodes. -/
structure Composer where
  scanner : Scanner
  handles : List (String × String) := []
  /-- Anchors by name, the latest first. -/
  names : List (String × Nat) := []
  anchors : Anchors := #[]
  aliases : Nat := 0
  deriving Inhabited

abbrev Compose := StateT Composer Option

namespace Compose

/-- The next token; a fault in front of it refuses the stream. -/
def peek : Compose Token := do
  let s ← get
  match s.scanner.peek? with
  | some (t, scanner) =>
    set { s with scanner }
    pure t
  | none => failure

def skip : Compose Unit := modify fun s => { s with scanner := s.scanner.take }

/-- Opens an anchor, to be filled when its node is complete. -/
def declareAnchor (name : Option String) : Compose (Option Nat) := do
  match name with
  | none => pure none
  | some name =>
    let s ← get
    let slot := s.anchors.size
    set { s with names := (name, slot) :: s.names, anchors := s.anchors.push default }
    pure (some slot)

def fillAnchor (slot : Option Nat) (n : Node) : Compose Node := do
  match slot with
  | none => pure n
  | some i =>
    modify fun s => { s with anchors := s.anchors.setIfInBounds i n }
    pure n

/-- The properties in front of a node, in either order: anchor and tag. -/
def properties : Compose (Option String × Option String) := do
  let anchor? : Compose (Option String) := do
    match (← peek).lexeme with
    | .anchor name => skip; pure (some name)
    | _ => pure none
  let tag? : Compose (Option String) := do
    match (← peek).lexeme with
    | .tag handle suffix =>
      skip
      if handle.isEmpty then pure (some suffix)
      else match (← get).handles.lookup handle with
        | some expansion => pure (some (expansion ++ suffix))
        | none => failure
    | _ => pure none
  match ← anchor? with
  | some a => return (some a, ← tag?)
  | none =>
    match ← tag? with
    | some t => return (← anchor?, some t)
    | none => return (none, none)

/-- The short tag of a node: the explicit one, or else `fallback`. -/
def tagOr (explicit : Option String) (fallback : String) : String :=
  match explicit with
  | some t => if t.isEmpty || t == "!" then fallback else shortTag t
  | none => fallback

/-- The tag a scalar has without an explicit one. -/
def scalarTag (style : Style) (text : String) : String :=
  match style with
  | .plain => if text == "<<" then "!!merge" else (resolvePlain text).tag
  | _ => "!!str"

def emptyAt (line : Nat) : Node := .scalar line "!!null" ""

structure Place where
  block : Bool
  /-- Entries of a sequence may stand at the column of the mapping around it. -/
  indentless : Bool := false

def isOneOf (l : Lexeme) (ls : List Lexeme) : Bool := ls.contains l

mutual
def node (fuel : Nat) (place : Place) : Compose Node := do
  match fuel with
  | 0 => failure
  | fuel + 1 =>
    let first ← peek
    match first.lexeme with
    | .aliasOf name =>
      skip
      let s ← get
      match s.names.lookup name with
      | none => failure
      | some target =>
        set { s with aliases := s.aliases + 1 }
        pure (.aliasOf first.line name target s.aliases)
    | _ =>
      let (anchor, tag) ← properties
      let t ← peek
      let line := first.line
      match t.lexeme with
      | .scalar style text =>
        -- the anchor is declared before its node is read, so aliases may stand inside
        skip
        let slot ← declareAnchor anchor
        fillAnchor slot (.scalar line (tagOr tag (scalarTag style text)) text)
      | .flowSequenceStart =>
        skip
        let slot ← declareAnchor anchor
        fillAnchor slot (.sequence line (tagOr tag "!!seq") (← flowItems fuel true))
      | .flowMappingStart =>
        skip
        let slot ← declareAnchor anchor
        fillAnchor slot (.mapping line (tagOr tag "!!map") (← flowEntries fuel true))
      | l =>
        let slot ← declareAnchor anchor
        if l == .blockEntry && place.indentless then
          fillAnchor slot (.sequence line (tagOr tag "!!seq") (← indentlessItems fuel))
        else if l == .blockSequenceStart && place.block then
          skip
          fillAnchor slot (.sequence line (tagOr tag "!!seq") (← blockItems fuel))
        else if l == .blockMappingStart && place.block then
          skip
          fillAnchor slot (.mapping line (tagOr tag "!!map") (← blockEntries fuel))
        else if anchor.isSome || tag.isSome then
          fillAnchor slot (.scalar line (tagOr tag "!!null") "")
        else failure

/-- A node, unless one of the given tokens stands in its place; an empty node is then put on
the line of `mark`, or of that token. -/
def nodeUnless (fuel : Nat) (stops : List Lexeme) (mark : Option Token) (place : Place) :
    Compose Node := do
  match fuel with
  | 0 => failure
  | fuel + 1 =>
    let t ← peek
    if isOneOf t.lexeme stops then pure (emptyAt (mark.getD t).line) else node fuel place

/-- The entries of a block sequence up to its end. -/
def blockItems (fuel : Nat) : Compose (List Node) := do
  match fuel with
  | 0 => failure
  | fuel + 1 =>
    let t ← peek
    match t.lexeme with
    | .blockEntry =>
      skip
      let n ← nodeUnless fuel [.blockEntry, .blockEnd] (some t) { block := true }
      return n :: (← blockItems fuel)
    | .blockEnd => skip; pure []
    | _ => failure

/-- The entries of a sequence that stands at the column of its mapping. -/
def indentlessItems (fuel : Nat) : Compose (List Node) := do
  match fuel with
  | 0 => failure
  | fuel + 1 =>
    let t ← peek
    match t.lexeme with
    | .blockEntry =>
      skip
      let n ← nodeUnless fuel [.blockEntry, .key, .value, .blockEnd] (some t) { block := true }
      return n :: (← indentlessItems fuel)
    | _ => pure []

/-- The entries of a block mapping up to its end. -/
def blockEntries (fuel : Nat) : Compose (List (Node × Node)) := do
  match fuel with
  | 0 => failure
  | fuel + 1 =>
    let place : Place := { block := true, indentless := true }
    let t ← peek
    match t.lexeme with
    | .key =>
      skip
      let k ← nodeUnless fuel [.key, .value, .blockEnd] (some t) place
      let v ← blockValue fuel
      return (k, v) :: (← blockEntries fuel)
    | .blockEnd => skip; pure []
    | _ => failure

/-- The value of a block mapping entry. -/
def blockValue (fuel : Nat) : Compose Node := do
  match fuel with
  | 0 => failure
  | fuel + 1 =>
    let t ← peek
    match t.lexeme with
    | .value =>
      skip
      nodeUnless fuel [.key, .value, .blockEnd] (some t)
        { block := true, indentless := true }
    | _ => pure (emptyAt t.line)

/-- The items of a flow sequence up to its end. -/
def flowItems (fuel : Nat) (first : Bool) : Compose (List Node) := do
  match fuel with
  | 0 => failure
  | fuel + 1 =>
    if (← peek).lexeme == .flowSequenceEnd then
      skip
      pure []
    else
      if !first then
        if (← peek).lexeme != .flowEntry then failure
        skip
      let t ← peek
      match t.lexeme with
      | .flowSequenceEnd => skip; pure []
      | .key =>
        skip
        let k ← flowPairKey fuel
        let v ← flowPairValue fuel
        return .mapping t.line "!!map" [(k, v)] :: (← flowItems fuel false)
      | _ =>
        let n ← node fuel { block := false }
        return n :: (← flowItems fuel false)

/-- The key of a single pair inside a flow sequence; a missing one takes the next token
with it. -/
def flowPairKey (fuel : Nat) : Compose Node := do
  match fuel with
  | 0 => failure
  | fuel + 1 =>
    let t ← peek
    if isOneOf t.lexeme [.value, .flowEntry, .flowSequenceEnd] then
      skip
      pure (emptyAt t.line)
    else node fuel { block := false }

/-- The value of a single pair inside a flow sequence. -/
def flowPairValue (fuel : Nat) : Compose Node := do
  match fuel with
  | 0 => failure
  | fuel + 1 =>
    let t ← peek
    if t.lexeme == .value then
      skip
      nodeUnless fuel [.flowEntry, .flowSequenceEnd] none { block := false }
    else pure (emptyAt t.line)

/-- The entries of a flow mapping up to its end. -/
def flowEntries (fuel : Nat) (first : Bool) : Compose (List (Node × Node)) := do
  match fuel with
  | 0 => failure
  | fuel + 1 =>
    if (← peek).lexeme == .flowMappingEnd then
      skip
      pure []
    else
      if !first then
        if (← peek).lexeme != .flowEntry then failure
        skip
      let t ← peek
      match t.lexeme with
      | .flowMappingEnd => skip; pure []
      | .key =>
        skip
        let k ← nodeUnless fuel [.value, .flowEntry, .flowMappingEnd] none { block := false }
        let v ← flowValue fuel
        return (k, v) :: (← flowEntries fuel false)
      | _ =>
        let k ← node fuel { block := false }
        let v := emptyAt (← peek).line
        return (k, v) :: (← flowEntries fuel false)

/-- The value of a flow mapping entry. -/
def flowValue (fuel : Nat) : Compose Node := do
  match fuel with
  | 0 => failure
  | fuel + 1 =>
    let t ← peek
    if t.lexeme == .value then
      skip
      nodeUnless fuel [.flowEntry, .flowMappingEnd] none { block := false }
    else pure (emptyAt t.line)
end

/-- The directives in front of a document: at most one version, which must be 1.1, and
handles that differ. -/
def directives : Nat → Bool → List (String × String) → Compose (List (String × String))
  | 0, _, _ => failure
  | fuel + 1, versioned, handles => do
    match (← peek).lexeme with
    | .version major minor =>
      if versioned || major != 1 || minor != 1 then failure
      skip
      directives fuel true handles
    | .tagHandle handle expansion =>
      if handles.any (·.1 == handle) then failure
      skip
      directives fuel versioned (handles ++ [(handle, expansion)])
    | _ => pure handles

def defaultHandles : List (String × String) := [("!", "!"), ("!!", longTagStart)]

/-- The first document; nothing for a stream without one. -/
def document (fuel : Nat) : Compose (Option Node) := do
  match (← peek).lexeme with
  | .streamEnd => pure none
  | .version .. | .tagHandle .. | .documentStart =>
    let own ← directives fuel false []
    if (← peek).lexeme != .documentStart then failure
    skip
    modify fun s => { s with handles := own ++ defaultHandles }
    let t ← peek
    let root ← match t.lexeme with
      | .version .. | .tagHandle .. | .documentStart | .documentEnd | .streamEnd =>
        pure (emptyAt t.line)
      | _ => node fuel { block := true }
    let _ ← peek
    pure (some root)
  | _ =>
    modify fun s => { s with handles := defaultHandles }
    let root ← node fuel { block := true }
    let _ ← peek
    pure (some root)

end Compose

/-- The first document of a text. The outer option tells a text that cannot be read, the
inner one a stream without document. -/
def parse? (t : Text) : Option (Option Document) := do
  let cs ← streamChars? t
  let scanner ← Scanner.start? cs
  -- a character leads to four tokens at most, and a token to three steps
  let (root, s) ← (Compose.document (12 * cs.length + 12)).run { scanner }
  some (root.map fun root => { root, anchors := s.anchors, aliases := s.aliases })

end SchemaLoom.Yaml

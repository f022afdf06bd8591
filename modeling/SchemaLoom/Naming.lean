import SchemaLoom.Error
import SchemaLoom.Text.Casing
import SchemaLoom.Expr

/-!
# Identifiers

How the names of a schema become identifiers of the generated module. A style
recases the name, `identifier` makes the result a legal identifier, and a
`Namer` keeps the identifiers of one module apart.
-/

namespace SchemaLoom

/-- How declaration identifiers are derived from names. -/
inductive NamingStyle where
  | plain
  | pascalSchema
  | camel
  deriving DecidableEq, Repr, Inhabited

namespace NamingStyle

def name : NamingStyle → String
  | plain => "default"
  | pascalSchema => "pascal-case-schema"
  | camel => "camel-case"

def all : List NamingStyle := [plain, pascalSchema, camel]

/-- The style a setting selects; the empty setting selects the plain one. -/
def parse (s : Text) : Result NamingStyle :=
  if s.isEmpty then .ok plain
  else match all.find? (fun st => Text.ofString st.name == s) with
    | some st => .ok st
    | none => Result.fail (.unknownNamingStyle s)

/-- The style a setting selects, the plain one if it selects none. -/
def ofSetting (s : Text) : NamingStyle :=
  (all.find? (fun st => Text.ofString st.name == s)).getD plain

end NamingStyle

/-! ### Legal identifiers -/

def isIdentStart (c : Char) : Bool := c.isAlpha || c == '_' || c == '$'

def isIdentPart (c : Char) : Bool := c.isAlphanum || c == '_' || c == '$'

/-- A letter, `_` or `$`, then letters, digits, `_` and `$`. -/
def isIdentifier : List Char → Bool
  | [] => false
  | c :: cs => isIdentStart c && cs.all isIdentPart

/-- Words that no declaration may be named, the schema library's own name included. -/
def reservedWords : List String :=
  ["await", "break", "case", "catch", "class", "const", "continue", "debugger", "default",
   "delete", "do", "else", "enum", "export", "extends", "false", "finally", "for", "function",
   "if", "implements", "import", "in", "instanceof", "interface", "let", "new", "null",
   "package", "private", "protected", "public", "return", "static", "super", "switch", "this",
   "throw", "true", "try", "typeof", "var", "void", "while", "with", "yield", "z"]

/-- Every character an identifier cannot hold turns into an underscore. -/
def identChars (t : Text) : List Char :=
  t.map fun r => if isIdentPart r.toChar then r.toChar else '_'

/-- Puts an underscore in front of nothing and of a digit. -/
def leadIdent : List Char → List Char
  | [] => ['_']
  | c :: cs => if c.isDigit then '_' :: c :: cs else c :: cs

/-- Puts an underscore behind a reserved word. -/
def unreserve (cs : List Char) : List Char :=
  if reservedWords.contains (String.ofList cs) then cs ++ ['_'] else cs

def identifier (t : Text) : String :=
  String.ofList (unreserve (leadIdent (identChars t)))

/-- The identifier for a name in a style; lowering needs a first letter. -/
def NamingStyle.apply (style : NamingStyle) (t : Text) : Result String :=
  match style with
  | plain => .ok (identifier t)
  | pascalSchema => .ok (identifier (Text.camelize t ++ "Schema"))
  | camel =>
    match Text.camelizeDown? t with
    | some w => .ok (identifier w)
    | none => Result.fail .absent

/-! ### Namers -/

/-- The identifiers given out so far. -/
structure Namer where
  style : NamingStyle
  names : List (NodeId × String) := []
  deriving Repr, Inhabited

namespace Namer

def used (nm : Namer) : List String := nm.names.map (·.2)

/-- `base` with the first free number from `i` on. -/
def suffixed (base : String) (used : List String) : Nat → Nat → String
  | 0, i => base ++ toString i
  | fuel + 1, i =>
    if used.contains (base ++ toString i) then suffixed base used fuel (i + 1)
    else base ++ toString i

/-- `base`, or `base` with the first free number from 2 on. -/
def fresh (base : String) (used : List String) : String :=
  if used.contains base then suffixed base used used.length 2 else base

/-- The identifier of a node named `name`, given out now unless it has one. -/
def declare (nm : Namer) (n : NodeId) (name : Text) : Result (String × Namer) :=
  match nm.names.lookup n with
  | some id => .ok (id, nm)
  | none => do
    let base ← nm.style.apply name
    let id := fresh base nm.used
    .ok (id, { nm with names := nm.names ++ [(n, id)] })

/-- The identifier of a node named `name`; one never declared is named by the style alone. -/
def nameOf (nm : Namer) (n : NodeId) (name : Text) : Result String :=
  match nm.names.lookup n with
  | some id => .ok id
  | none => nm.style.apply name

end Namer

end SchemaLoom

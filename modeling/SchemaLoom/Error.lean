import SchemaLoom.Text.Quoted

/-!
# Failures

Everything that can go wrong, as causes, with the wording in one place. A
`Failure` is a cause below the positions it was met at (file, declaration,
property), outermost first, and the marks of the project layer.

Faults of the YAML and JSON readers carry no wording of their own.
-/

namespace SchemaLoom

/-- What went wrong. -/
inductive Cause where
  /-- A text is no well-formed YAML or JSON, or does not fit the reader's limits. -/
  | malformed
  /-- A step was taken on something absent. -/
  | absent
  /-- A recursion does not end. -/
  | diverges
  /-- Fields of a document that hold something else than their type, a line each. -/
  | illTyped (lines : List Text)
  | unknownField (line : Nat) (field : String) (owner : String)
  | invalidNumber (text : Text)
  | expectedNumber (line : Nat)
  | emptyValue
  -- declarations and references of a schema document
  | unnamed
  | duplicateName (name : Text)
  | builtInName (name : Text)
  | unknownType (name : Text)
  | unknownMember (ref : Text)
  | malformedMember (ref : Text)
  | notExtendable (what : Text)
  | baseCycle
  | notAModel (name : Text)
  | unknownEnvelope (envelope : Text)
  | unnamedVariant (index : Nat)
  | emptyTypeRef
  | literalKind
  -- building of schema expressions
  | unsupportedValue (reason : Text)
  | unknownConstraint (name : Text)
  | recursiveInline (kind name : Text)
  /-- An override gives up. -/
  | refused (reason : Text)
  -- JSON Schema
  | unsupportedRef (ref : Text)
  | undefinedRef (ref : Text)
  | untypedSchema
  | severalBases
  | foreignPart
  | circularFile (path : Text)
  | unsupportedExtension (path : Text)
  /-- Files: the operation, the path and what the system says. -/
  | file (op path reason : Text)
  /-- Nobody has looked yet what stands at a path. -/
  | unseen (path : Text)
  -- settings
  | unknownNamingStyle (style : Text)
  | unsupportedVersion (version : Int)
  | missingSetting (name : Text) (hint : Text)
  | unknownInputFormat (format : Text)
  -- projects and commands
  | notInitialized
  | alreadyInitialized (file : Text)
  | inputFlagRequired
  | watchNeedsFile
  | noTerminal
  | usage (text : Text)
  deriving DecidableEq, Repr, Inhabited

/-- Stages of loading a project, attached to whatever failed in them. -/
inductive Mark where
  | invalidConfig
  | inputNotFound
  | invalidInput
  deriving DecidableEq, Repr

/-- A cause, the positions above it and its marks. -/
structure Failure where
  context : List Text := []
  marks : List Mark := []
  cause : Cause
  deriving DecidableEq, Repr, Inhabited

/-- The outcome of an operation that can fail. -/
abbrev Result (α : Type) := Except Failure α

/-- The quotation marks `‹` and `›` show as `?` in diagnostics. -/
def Text.shown (t : Text) : Text :=
  t.map fun r => if r = .char '‹' || r = .char '›' then .char '?' else r

/-- A name or path inside a diagnostic: spaces and line feeds at its end are left out, and a
stray byte there is followed by `?`. -/
def Text.mentioned (t : Text) : Text :=
  let t := (t.reverse.dropWhile fun r => r = .char ' ' || r = .char '\n').reverse
  match t.getLast? with
  | some (.stray _) => t ++ "?"
  | _ => t

/-- Words below the name they are about; an empty name adds nothing. -/
def Text.about (name words : Text) : Text :=
  if name.mentioned.isEmpty then words else name.mentioned ++ ": " ++ words

namespace Cause

def message : Cause → Text
  | malformed => "<library error>"
  | absent => ""
  | diverges => ""
  | illTyped lines => "yaml: unmarshal errors:" ++ lines.flatMap fun l => "\n  " ++ l
  | unknownField line field owner =>
    "line " ++ Text.ofNat line ++ ": field " ++ (Text.ofString field).mentioned ++
      " not found in type " ++ Text.ofString owner
  | invalidNumber t => "invalid number " ++ t.quoteForMessage
  | expectedNumber line => "line " ++ Text.ofNat line ++ ": expected a number"
  | emptyValue => "empty value"
  | unnamed => "declaration has no name"
  | duplicateName name => name.about "duplicate declaration"
  | builtInName name => name.about "duplicate declaration"
  | unknownType name => name.quoteForMessage ++ ": unknown type"
  | unknownMember ref => ref.quoteForMessage ++ ": unknown type"
  | malformedMember ref => "member reference " ++ ref.quoteForMessage ++ " must be Enum.Member"
  | notExtendable what => "cannot extend " ++ what
  | baseCycle => "cyclic base chain"
  | notAModel name => "is: " ++ name.mentioned ++ " is not a model"
  | unknownEnvelope e => "unknown envelope " ++ e.quoteForMessage
  | unnamedVariant i => "variant " ++ Text.ofNat i ++ " has no name"
  | emptyTypeRef => "empty type reference"
  | literalKind => "literal types must be strings, numbers or booleans"
  | unsupportedValue reason => reason ++ ": unsupported value"
  | unknownConstraint name => name.quoteForMessage ++ ": unknown constraint name"
  | recursiveInline kind name => kind ++ " " ++ name.mentioned ++ ": recursive type cannot be inlined"
  | refused reason => reason
  | unsupportedRef ref => ref.quoteForMessage ++ ": unsupported $ref"
  | undefinedRef ref => ref.quoteForMessage ++ " names no definition: unsupported $ref"
  | untypedSchema => "no type: unsupported schema"
  | severalBases => "allOf with more than one $ref: unsupported schema"
  | foreignPart => "allOf member is neither a $ref nor an object: unsupported schema"
  | circularFile path => path.mentioned ++ ": circular file reference"
  | unsupportedExtension path => path.mentioned ++ ": format not supported"
  | file op path reason => op ++ " " ++ path ++ ": " ++ reason
  | unseen path => path ++ ": not looked at"
  | unknownNamingStyle s => "unknown naming style " ++ s.quoteForMessage
  | unsupportedVersion v => "unsupported config version " ++ Text.ofInt v
  | missingSetting name _ => name ++ " is required"
  | unknownInputFormat f => "unknown input format " ++ f.quoteForMessage
  | notInitialized => "not in a zodgen project (zodgen.yaml not found)"
  | alreadyInitialized name => name ++ " already exists; project already initialized"
  | inputFlagRequired => "non-interactive mode requires --input"
  | watchNeedsFile => "--watch needs an output file"
  | noTerminal => "<library error>"
  | usage text => text

def hints : Cause → List Text
  | builtInName _ => ["the name is taken by a built-in type"]
  | unknownType _ =>
    ["declare it under scalars, models, enums or unions, or use a built-in type name"]
  | unknownEnvelope _ => ["use \"object\" or \"none\""]
  | unnamedVariant _ => ["discriminated unions tag each variant with its name"]
  | recursiveInline _ _ =>
    ["recursive types need a declaration; drop the NoDeclaration override"]
  | unsupportedRef _ => ["only #/$defs/... and #/definitions/... refs are supported"]
  | untypedSchema => ["give the definition a type, an enum or a $ref"]
  | severalBases => ["a model extends at most one base"]
  | circularFile _ =>
    ["move the shared schema under $defs and reference it with #/$defs/..."]
  | unsupportedExtension _ => ["graph documents must be .yaml, .yml or .json files"]
  | unknownNamingStyle _ => ["use one of default, pascal-case-schema, camel-case"]
  | missingSetting _ hint => if hint.isEmpty then [] else [hint]
  | unknownInputFormat _ => ["use \"graph\" or \"jsonschema\", or leave it empty to detect"]
  | notInitialized => ["run 'zodgen init' to create one"]
  | watchNeedsFile => ["drop --output - or pass a file path"]
  | _ => []

/-- Wording that comes from outside is shown as it is. -/
def isForeign : Cause → Bool
  | illTyped _ => true
  | file _ _ _ => true
  | usage _ => true
  | _ => false

end Cause

namespace Failure

/-- A cause met at no particular position. -/
def of (c : Cause) : Failure := { cause := c }

instance : Coe Cause Failure := ⟨of⟩

def within (f : Failure) (position : Text) : Failure :=
  { f with context := position :: f.context }

def marked (f : Failure) (m : Mark) : Failure := { f with marks := m :: f.marks }

/-- The positions, outermost first, then the cause; an empty position adds nothing. -/
def message (f : Failure) : Text :=
  let own := if f.cause.isForeign then f.cause.message else f.cause.message.shown
  Text.join ": " ((f.context.filter (! ·.isEmpty)).map Text.shown ++ [own])

def hints (f : Failure) : List Text := f.cause.hints

/-- The step on something absent, which has no wording. -/
def isAbsent (f : Failure) : Bool := f.cause == .absent

end Failure

namespace Result

def fail {α : Type} (c : Cause) : Result α := .error (Failure.of c)

/-- Marks whatever fails inside. -/
def marked {α : Type} (m : Mark) : Result α → Result α
  | .ok a => .ok a
  | .error f => .error (f.marked m)

/-- Adds a position to whatever fails inside. -/
def within {α : Type} (position : Text) : Result α → Result α
  | .ok a => .ok a
  | .error f => .error (f.within position)

end Result

end SchemaLoom

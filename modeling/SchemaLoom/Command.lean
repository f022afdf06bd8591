import SchemaLoom.Command.Flag
import SchemaLoom.Text.Casing

/-!
# Commands

The commands of the program with what their help says about them, and which of
them a list of arguments names. The completion scripts of shells are described
but not supplied.
-/

namespace SchemaLoom

/-- Shells that completion is described for. -/
inductive Shell where
  | bash
  | zsh
  | fish
  | powershell
  deriving DecidableEq, Repr

def Shell.name : Shell → String
  | bash => "bash"
  | zsh => "zsh"
  | fish => "fish"
  | powershell => "powershell"

inductive Command where
  | root
  | init
  | generate
  | plan
  | version
  | help
  | completion
  | script (shell : Shell)
  deriving DecidableEq, Repr

namespace Command

def name : Command → String
  | root => "zodgen"
  | init => "init"
  | generate => "generate"
  | plan => "plan"
  | version => "version"
  | help => "help"
  | completion => "completion"
  | script s => s.name

/-- The commands below a command, in the order they were added. -/
def children : Command → List Command
  | root => [init, generate, plan, version, help, completion]
  | completion => [script .bash, script .zsh, script .fish, script .powershell]
  | _ => []

/-- The words that call a command. -/
def path : Command → String
  | root => root.name
  | script s => root.name ++ " " ++ completion.name ++ " " ++ s.name
  | c => root.name ++ " " ++ c.name

/-- Whether the command does something of its own; the others show their help. -/
def isRunnable : Command → Bool
  | root | completion => false
  | _ => true

def refusesArgs : Command → Bool
  | version | completion | script _ => true
  | _ => false

/-! ### Flags -/

def sharedFlags : List Flag :=
  [{ name := "verbose", letter := some 'v', default := .count 0,
     usage := "Increase log verbosity (-v, -vv)" },
   { name := "log-json", usage := "Write logs as JSON lines" }]

def styleUsage : String := "Declaration naming style (default, pascal-case-schema, camel-case)"

def ownFlags : Command → List Flag
  | init =>
    [{ name := "input", letter := some 'i', default := .text [], usage := "Input schema file" },
     { name := "input-format", default := .text [],
       usage := "Input format (graph or jsonschema, detected when empty)" },
     { name := "output", letter := some 'o', default := .text "schemas.ts",
       usage := "Generated TypeScript file" },
     { name := "naming-style", default := .text "default", usage := styleUsage },
     { name := "emit-infer", usage := "Emit z.infer type aliases" },
     { name := "non-interactive", usage := "Run without prompts (requires --input)" }]
  | generate =>
    [{ name := "output", letter := some 'o', default := .text [],
       usage := "Output file, - for stdout" },
     { name := "naming-style", default := .text [], usage := styleUsage },
     { name := "emit-infer", usage := "Emit z.infer type aliases" },
     { name := "watch", letter := some 'w', usage := "Regenerate when the input changes" },
     { name := "debounce", default := .span 200000000,
       usage := "Quiet period before regenerating in watch mode" }]
  | plan => [{ name := "json", usage := "Print the plan as JSON" }]
  | script _ => [{ name := "no-descriptions", usage := "disable completion descriptions" }]
  | _ => []

/-- The flags by which commands are told from values of flags. -/
def knownFlags (c : Command) : List Flag := c.ownFlags ++ sharedFlags

/-- The flags for help and, at the root, for the version. -/
def helpFlags (c : Command) : List Flag :=
  { name := "help", letter := some 'h', usage := "help for " ++ c.name } ::
    (if c = root then [{ name := "version", usage := "version for " ++ c.name }] else [])

def flags (c : Command) : List Flag := c.knownFlags ++ c.helpFlags

/-! ### Finding the command -/

/-- Follows arguments down from a command, at most `depth` levels, to the command they name
and the arguments without its words. -/
def find : Nat → Command → List Text → Command × List Text
  | 0, c, args => (c, args)
  | depth + 1, c, args =>
    match Flag.positional c.knownFlags args with
    | [] => (c, args)
    | x :: _ =>
      match c.children.find? fun d => Text.ofString d.name == x with
      | some d => find depth d (Flag.without c.knownFlags x args)
      | none => (c, args)

/-- One row of the table of edit distances. `diag` heads the row above, `left` is the entry
before. -/
def distanceRow (a : UInt8) : Nat → List UInt8 → List Nat → List Nat
  | left, b :: bs, diag :: up :: above =>
    let d := if a == b then diag else min (min left up) diag + 1
    d :: distanceRow a d bs (up :: above)
  | _, _, _ => []

/-- The least number of bytes to insert, remove or replace between two words. -/
def distance (s t : List UInt8) : Nat :=
  let rows := s.foldl (fun (row : List Nat) a =>
    let first := row.headD 0 + 1
    first :: distanceRow a first t row) (List.range (t.length + 1))
  rows.getLast?.getD 0

/-- Commands a wrong word may have meant: two edits away at most, or beginning with it. -/
def suggestions (word : Text) : List Command :=
  (root.children.filter (· ≠ help)).filter fun c =>
    let name := Text.ofString c.name
    decide (distance word.lower.bytes name.bytes ≤ 2) || word.lower.isPrefixOf name

def unknownCommand (word : Text) (c : Command) : Text :=
  "unknown command " ++ word.quoteForMessage ++ " for " ++
    (Text.ofString c.path).quoteForMessage

/-- The refusal of a word that names no command, with suggestions. -/
def unknownWord (word : Text) : Text :=
  let meant := suggestions word
  unknownCommand word root ++
    (if meant.isEmpty then []
     else "\n\nDid you mean this?\n" ++
       meant.flatMap fun c => "\t" ++ Text.ofString c.name ++ "\n")

/-- The command that arguments name, and the arguments left for it. -/
def locate (args : List Text) : Result (Command × List Text) :=
  let (c, rest) := find 3 root args
  match c, Flag.positional c.knownFlags rest with
  | root, x :: _ => Result.fail (.usage (unknownWord x))
  | _, _ => .ok (c, rest)

end Command

end SchemaLoom

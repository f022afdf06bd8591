import SchemaLoom.Command

/-!
# Help texts

What the help of a command says: its description, how it is called, examples,
the commands below it and its flags.
-/

namespace SchemaLoom

def unlines (ls : List String) : String := "\n".intercalate ls

namespace Command

def short : Command → String
  | root => "Generate zod schemas from a typed schema graph"
  | init => "Initialize a new zodgen project"
  | generate => "Generate the zod schema file"
  | plan => "Show the declaration order"
  | version => "Print version information"
  | help => "Help about any command"
  | completion => "Generate the autocompletion script for the specified shell"
  | script s => "Generate the autocompletion script for " ++ s.name

/-- How the completion of a shell is set up. -/
def scriptSetup : Shell → List String
  | .bash =>
    ["Generate the autocompletion script for the bash shell.",
     "",
     "This script depends on the 'bash-completion' package.",
     "If it is not installed already, you can install it via your OS's package manager.",
     "",
     "To load completions in your current shell session:",
     "",
     "\tsource <(zodgen completion bash)",
     "",
     "To load completions for every new session, execute once:",
     "",
     "#### Linux:",
     "",
     "\tzodgen completion bash > /etc/bash_completion.d/zodgen",
     "",
     "#### macOS:",
     "",
     "\tzodgen completion bash > $(brew --prefix)/etc/bash_completion.d/zodgen",
     "",
     "You will need to start a new shell for this setup to take effect."]
  | .zsh =>
    ["Generate the autocompletion script for the zsh shell.",
     "",
     "If shell completion is not already enabled in your environment you will need",
     "to enable it.  You can execute the following once:",
     "",
     "\techo \"autoload -U compinit; compinit\" >> ~/.zshrc",
     "",
     "To load completions in your current shell session:",
     "",
     "\tsource <(zodgen completion zsh)",
     "",
     "To load completions for every new session, execute once:",
     "",
     "#### Linux:",
     "",
     "\tzodgen completion zsh > \"$\x7bfpath[1]\x7d/_zodgen\"",
     "",
     "#### macOS:",
     "",
     "\tzodgen completion zsh > $(brew --prefix)/share/zsh/site-functions/_zodgen",
     "",
     "You will need to start a new shell for this setup to take effect."]
  | .fish =>
    ["Generate the autocompletion script for the fish shell.",
     "",
     "To load completions in your current shell session:",
     "",
     "\tzodgen completion fish | source",
     "",
     "To load completions for every new session, execute once:",
     "",
     "\tzodgen completion fish > ~/.config/fish/completions/zodgen.fish",
     "",
     "You will need to start a new shell for this setup to take effect."]
  | .powershell =>
    ["Generate the autocompletion script for powershell.",
     "",
     "To load completions in your current shell session:",
     "",
     "\tzodgen completion powershell | Out-String | Invoke-Expression",
     "",
     "To load completions for every new session, add the output of the above command",
     "to your powershell profile."]

def description : Command → String
  | root => unlines
    ["zodgen translates a schema graph (models, scalars, enums, unions) or a",
     "JSON Schema file into TypeScript source built on zod."]
  | init => "Initialize a new zodgen project with a zodgen.yaml configuration file."
  | generate => unlines
    ["Generate TypeScript zod schemas for every declaration in the input.",
     "",
     "Flags override the values in zodgen.yaml. Use --output - to print to stdout."]
  | plan => unlines
    ["Show the declarations that generate would emit, in order.",
     "",
     "Declarations are grouped by reference cycle. Cyclic groups are flagged."]
  | version => version.short
  | help => unlines
    ["Help provides help for any command in the application.",
     "Simply type zodgen help [path to command] for full details."]
  | completion => unlines
    ["Generate the autocompletion script for zodgen for the specified shell.",
     "See each sub-command's help for details on how to use the generated script."]
  | script s => unlines (scriptSetup s)

def examples : Command → List String
  | init =>
    ["  # Interactive mode",
     "  zodgen init",
     "",
     "  # Non-interactive",
     "  zodgen init --input schemas/graph.yaml --output src/schemas.ts --non-interactive",
     "  zodgen init --input api.schema.json --naming-style pascal-case-schema --emit-infer " ++
       "--non-interactive"]
  | generate =>
    ["  # Generate using zodgen.yaml",
     "  zodgen generate",
     "",
     "  # Override output and naming",
     "  zodgen generate --output src/models.ts --naming-style pascal-case-schema --emit-infer",
     "",
     "  # Regenerate on every input change",
     "  zodgen generate --watch"]
  | plan => ["  zodgen plan", "  zodgen plan --json"]
  | _ => []

/-- The line that shows how a command is called. -/
def useLine : Command → String
  | help => help.path ++ " [command] [flags]"
  | script .bash => (script .bash).path
  | c => c.path ++ " [flags]"

/-! ### Lists of flags and commands -/

def valueWord : FlagValue → String
  | .switch _ => ""
  | .count _ => " count"
  | .text _ => " string"
  | .span _ => " duration"

/-- The left column of a flag: its letter, its name and the word for its value. -/
def flagLabel (f : Flag) : String :=
  (match f.letter with
    | some c => "  -" ++ String.ofList [c] ++ ", --"
    | none => "      --") ++ f.name ++ valueWord f.default

/-- The default of a flag, unless it is empty. -/
def defaultNote : FlagValue → String
  | .text (r :: t) => " (default " ++ (Text.quoteForMessage (r :: t)).toDisplay ++ ")"
  | .span n => if n = 0 then "" else " (default " ++ Duration.text n ++ ")"
  | _ => ""

/-- The lines of flags in the order of their names, in two columns. -/
def flagLines (fs : List Flag) : List String :=
  let fs := fs.mergeSort fun a b => decide (a.name ≤ b.name)
  let width := fs.foldl (fun w f => max w (flagLabel f).length) 0
  fs.map fun f =>
    let label := flagLabel f
    label ++ String.ofList (List.replicate (width - label.length + 3) ' ') ++ f.usage ++
      defaultNote f.default

/-- The least width of the column of command names. -/
def nameColumn : Nat := 11

def childLines (c : Command) : List String :=
  (c.children.mergeSort fun a b => decide (a.name ≤ b.name)).map fun d =>
    "  " ++ d.name ++ String.ofList (List.replicate (nameColumn - d.name.length) ' ') ++ " " ++
      d.short

/-- A headed section, left out when it has no lines. -/
def titled (title : String) (ls : List String) : String :=
  if ls.isEmpty then "" else "\n\n" ++ title ++ "\n" ++ unlines ls

/-- How a command is used, `own` being the flags listed as its own. -/
def usageWith (c : Command) (own : List Flag) : String :=
  let group := !c.children.isEmpty
  "Usage:" ++
    (if c.isRunnable then "\n  " ++ c.useLine else "") ++
    (if group then "\n  " ++ c.path ++ " [command]" else "") ++
    titled "Examples:" c.examples ++
    titled "Available Commands:" c.childLines ++
    titled "Flags:" (flagLines own) ++
    (if c = root then "" else titled "Global Flags:" (flagLines sharedFlags)) ++
    (if group then "\n\nUse \"" ++ c.path ++
      " [command] --help\" for more information about a command." else "") ++ "\n"

/-- The flags a command does not share with the root. -/
def localFlags (c : Command) : List Flag := if c = root then c.knownFlags else c.ownFlags

/-- How a command is used, with the flags for help listed. -/
def usage (c : Command) : String := c.usageWith (c.localFlags ++ c.helpFlags)

def helpText (c : Command) : Text := Text.ofString (c.description ++ "\n\n" ++ c.usage)

def fitsBackQuotes : Rune → Bool
  | .char c => c == '\t' || (decide (0x20 ≤ c.toNat) && c != '\x60' && c != '\x7F' && c != '\uFEFF')
  | .stray _ => false

/-- A word as help shows it: between back quotes where that is possible. -/
def quoteTopic (t : Text) : Text :=
  if t.all fitsBackQuotes then "\x60" ++ t ++ "\x60" else t.quoteForMessage

/-- The answer to a question for help on something that is no command. -/
def unknownTopic (args : List Text) : Text :=
  "Unknown help topic [" ++ Text.join " " (args.map quoteTopic) ++ "]\n" ++
    Text.ofString (root.usageWith root.knownFlags)

end Command

end SchemaLoom

import SchemaLoom.Input
import SchemaLoom.Naming
import SchemaLoom.Yaml.Write

/-!
# Project settings

What a project says about its input and its output, the rules these settings
obey and how they are written to a file. Texts are kept as given: a format or
a style that does not exist is refused by `check`, not by the type.
-/

namespace SchemaLoom

structure Settings where
  version : Int := 1
  input : Text := []
  /-- Empty where the format is detected. -/
  inputFormat : Text := []
  output : Text := []
  namingStyle : Text := []
  emitInfer : Bool := false
  deriving DecidableEq, Repr, Inhabited

namespace Settings

/-- The name of the file that holds the settings of a folder. -/
def fileName : Text := "zodgen.yaml"

/-- The only version of the file there is. -/
def currentVersion : Int := 1

/-- Refuses an empty answer to the question for a setting. -/
def requireAnswer (name answer : Text) : Result Unit :=
  if answer.isEmpty then Result.fail (.missingSetting name []) else .ok ()

/-- The format a setting selects: none where it is detected. -/
def formatOf (setting : Text) : Result (Option InputFormat) :=
  if setting.isEmpty then .ok none
  else if setting == Text.ofString InputFormat.graph.name then .ok (some .graph)
  else if setting == Text.ofString InputFormat.jsonSchema.name then .ok (some .jsonSchema)
  else Result.fail (.unknownInputFormat setting)

/-- What usable settings select. -/
structure Choices where
  format : Option InputFormat
  style : NamingStyle
  deriving DecidableEq, Repr, Inhabited

/-- Refuses settings that no project can be loaded with; the first fault counts. -/
def check (s : Settings) : Result Choices := do
  if s.version ≠ currentVersion then Result.fail (.unsupportedVersion s.version)
  else if s.input.isEmpty then
    Result.fail (.missingSetting "input" "set input to a graph document or JSON Schema file")
  else if s.output.isEmpty then
    Result.fail (.missingSetting "output" "set output to the TypeScript file to generate")
  else
    let format ← formatOf s.inputFormat
    let style ← NamingStyle.parse s.namingStyle
    .ok { format, style }

def entry (key : String) (value : Text) : List Char := Yaml.writeEntry key value.toDisplay

/-- A line of the file, left out for an empty value. -/
def optionalEntry (key : String) (value : Text) : List Char :=
  if value.isEmpty then [] else entry key value

def write (s : Settings) : Text :=
  Text.ofChars <|
    ("version: " ++ toString s.version ++ "\n").toList ++
    entry "input" s.input ++
    optionalEntry "inputFormat" s.inputFormat ++
    entry "output" s.output ++
    optionalEntry "namingStyle" s.namingStyle ++
    (if s.emitInfer then "emitInfer: true\n".toList else [])

end Settings

end SchemaLoom

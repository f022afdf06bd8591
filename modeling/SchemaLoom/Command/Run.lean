import SchemaLoom.Command.Help
import SchemaLoom.Log
import SchemaLoom.Plan.Listing
import SchemaLoom.Project
import SchemaLoom.Release
import SchemaLoom.Report

/-!
# Running commands

What a run of the program does: it reads and changes a disk, writes output and
logs events. A failure ends the run and keeps what was done before it.
-/

namespace SchemaLoom

/-- What a run finds around it. -/
structure Surroundings where
  folder : Text
  env : Environment := []
  release : Release := {}
  toolchain : Text := []

structure World where
  disk : Disk
  output : Text := []
  events : List Log.Event := []
  /-- Level and form of the log lines to show. -/
  verbosity : Int := 0
  jsonLog : Bool := false
  /-- The quiet period, where the input is to be watched after the run. -/
  watch : Option Int := none
  deriving Inhabited

abbrev Routine := ExceptT Failure (StateM World)

namespace Routine

def emit (t : Text) : Routine Unit := modify fun w => { w with output := w.output ++ t }

def log (e : Log.Event) : Routine Unit := modify fun w => { w with events := w.events ++ [e] }

/-- Fails as a result fails. -/
def lift {α : Type} : Result α → Routine α
  | .ok a => pure a
  | .error f => throw f

def change (f : Disk → Result Disk) : Routine Unit := do
  let disk ← lift (f (← get).disk)
  modify fun w => { w with disk }

end Routine

namespace Command

open Routine

def loadProject (s : Surroundings) : Routine Project := do
  let p ← lift (Project.load (← get).disk s.env s.folder)
  log { level := .debug, message := "Loaded input", fields :=
    [("input", .text p.inputPath), ("format", .text (Text.ofString p.format.name)),
     ("count", .number p.graph.declarations.length)] }
  pure p

/-! ### Setting a project up -/

/-- The settings that the flags of `init` describe. -/
def settingsOf (g : Flag.Given) : Settings :=
  { version := Settings.currentVersion
    input := (g.text? "input").getD []
    inputFormat := (g.text? "input-format").getD []
    output := (g.text? "output").getD "schemas.ts"
    namingStyle := (g.text? "naming-style").getD (Text.ofString NamingStyle.plain.name)
    emitInfer := g.isOn "emit-infer" }

def runInit (s : Surroundings) (g : Flag.Given) : Routine Unit := do
  let path := Path.join s.folder Settings.fileName
  if ← lift ((← get).disk.holds path) then
    throw (Failure.of (.alreadyInitialized Settings.fileName))
  let settings := settingsOf g
  if !g.isOn "non-interactive" then throw (Failure.of .noTerminal)
  if settings.input.isEmpty then throw (Failure.of .inputFlagRequired)
  let _ ← lift (Result.within "invalid configuration" settings.check)
  change fun d => Result.within ("failed to write " ++ Settings.fileName) (d.write path settings.write)
  if !(← lift ((← get).disk.holds (Path.inside s.folder settings.input))) then
    emit (Report.warning ("input file does not exist yet: " ++ settings.input))
  emit (Report.result
    [⟨"Input", settings.input⟩, ⟨"Output", settings.output⟩,
     ⟨"Naming style", settings.namingStyle⟩,
     ⟨"Emit infer", if settings.emitInfer then "true" else "false"⟩]
    "Initialization completed")

/-! ### Generating -/

/-- Where the module goes. -/
inductive Target where
  | console
  | file (path : Text)
  deriving DecidableEq, Repr

def consoleWord : Text := "-"

/-- What is generated: flags come before settings. -/
structure Order where
  target : Target
  style : NamingStyle
  infer : Bool
  deriving DecidableEq, Repr

def orderOf (p : Project) (g : Flag.Given) : Result Order := do
  let target := match g.text? "output" with
    | none => .file p.outputPath
    | some t => if t == consoleWord then .console else .file (Path.inside p.folder t)
  let style ← match g.text? "naming-style" with
    | none => .ok p.choices.style
    | some t => NamingStyle.parse t
  .ok { target, style, infer := (g.switch? "emit-infer").getD p.settings.emitInfer }

def writeModule (p : Project) (o : Order) : Routine Unit := do
  let ds ← lift (SchemaLoom.plan p.graph {})
  let source ← lift (renderPlan p.graph o.style o.infer ds)
  match o.target with
  | .console => emit source
  | .file path =>
    change fun d => Result.within "failed to create output directory" (d.makeFolder (Path.dir path))
    change fun d => Result.within "failed to write output" (d.write path source)
    log { level := .info, message := "Generated", fields :=
      [("output", .text path), ("count", .number ds.length)] }
    emit (Report.result
      [⟨"Input", Path.base p.inputPath⟩, ⟨"Output", Path.relative p.folder path⟩,
       ⟨"Declarations", Text.ofNat ds.length⟩] [])

def quietPeriod (g : Flag.Given) : Int := (g.span? "debounce").getD 200000000

def runGenerate (s : Surroundings) (g : Flag.Given) : Routine Unit := do
  let p ← loadProject s
  let o ← lift (orderOf p g)
  writeModule p o
  if g.isOn "watch" then
    if o.target = .console then throw (Failure.of .watchNeedsFile)
    log { level := .info, message := "Watching for changes", fields := [("input", .text p.inputPath)] }
    modify fun w => { w with watch := some (quietPeriod g) }

/-! ### Showing the plan -/

def groupCount (ds : List Planned) : Nat := (ds.map Planned.group).eraseDups.length

def runPlan (s : Surroundings) (g : Flag.Given) : Routine Unit := do
  let p ← loadProject s
  let ds ← lift (SchemaLoom.plan p.graph {})
  log { level := .debug, message := "Planned", fields :=
    [("count", .number ds.length), ("groups", .number (groupCount ds)),
     ("cyclic", .number (ds.filter Planned.cyclic).length)] }
  emit (if g.isOn "json" then planJson ds else planTable ds)

/-! ### All commands -/

def runHelp (args : List Text) : Routine Unit :=
  emit <| match locate args with
    | .ok (c, _) => c.helpText
    | .error _ => unknownTopic args

/-- Does what a command does of its own. -/
def act (s : Surroundings) (g : Flag.Given) : Command → Routine Unit
  | init => runInit s g
  | generate => runGenerate s g
  | plan => runPlan s g
  | version => emit (s.release.info s.toolchain ++ "\n")
  | help => runHelp g.args
  | c => emit c.helpText

/-- Runs a command with the arguments left for it. Questions for help and for the version come
before everything else. -/
def runWith (s : Surroundings) (c : Command) (args : List Text) : Routine Unit := do
  let g ← lift (Flag.readAll c.flags args {})
  if g.isOn "help" then emit c.helpText
  else if c = root ∧ g.isOn "version" then emit (s.release.info s.toolchain ++ "\n")
  else if !c.isRunnable then emit c.helpText
  else
    match c.refusesArgs, g.args with
    | true, x :: _ => throw (Failure.of (.usage (unknownCommand x c)))
    | _, _ =>
      modify fun w => { w with verbosity := g.count "verbose", jsonLog := g.isOn "log-json" }
      act s g c

def run (s : Surroundings) (args : List Text) : Routine Unit := do
  let (c, rest) ← lift (locate args)
  runWith s c rest

end Command

/-- The outcome of a run and the world after it. -/
def World.run (w : World) (s : Surroundings) (args : List Text) : Result Unit × World :=
  StateT.run (ExceptT.run (Command.run s args)) w

end SchemaLoom

import SchemaLoom.Command.Run

/-!
# The program

The command line around `World.run`. A run only knows what was looked at; where
it asks for more, the program looks and runs again, and in the end carries the
changes of the run over to the file system.
-/

namespace SchemaLoom

/-- Looks what stands at an absolute path. -/
def look (path : Text) : IO Entry := do
  let p := (← IO.currentDir) / path.toDisplay
  if ← p.isDir then pure .folder
  else if ← p.pathExists then
    let bytes ← IO.FS.readBinFile p
    pure (.file (Text.ofBytes bytes.toList))
  else pure .missing

/-- Carries a change over to the file system. -/
def perform (path : Text) : Entry → IO Unit
  | .folder => IO.FS.createDirAll path.toDisplay
  | .file t => IO.FS.writeBinFile path.toDisplay (ByteArray.mk t.bytes.toArray)
  | .missing => pure ()

/-- Runs on what is known, and looks further until that is enough. Returns the outcome, the
world after the run and the disk before it. -/
partial def runLooking (s : Surroundings) (args : List Text) (disk : Disk) :
    IO (Result Unit × World × Disk) := do
  let (r, w) := World.run { disk } s args
  match r with
  | .error { cause := .unseen path, .. } =>
    let e ← look path
    runLooking s args (disk.put path e)
  | r => pure (r, w, disk)

def complain (f : Failure) : IO Unit := do
  IO.eprintln ("error: " ++ f.message.toDisplay)
  f.hints.forM fun h => IO.eprintln ("hint: " ++ h.toDisplay)

/-- Shows what a run wrote and logged, and carries its changes over. -/
def deliver (w : World) (before : Disk) : IO Unit := do
  w.disk.known.reverse.forM fun (p, e) =>
    if before.known.lookup p = some e then pure () else perform p e
  let out ← IO.getStdout
  out.write (ByteArray.mk w.output.bytes.toArray)
  out.flush
  let least := Log.Level.ofVerbosity w.verbosity
  w.events.forM fun e =>
    if e.shownAt least then IO.eprint (if w.jsonLog then e.record else e.line).toDisplay
    else pure ()

/-- Runs again whenever a schema file changes. The settings stay those of the first run. -/
partial def watch (s : Surroundings) (args : List Text) (period : Int) (before : Disk) :
    IO Unit := do
  IO.sleep (period / 1000000).toNat.toUInt32
  let settings := Path.join s.folder Settings.fileName
  let known ← before.known.mapM fun (p, e) => do
    if p == settings then pure (p, e) else pure (p, ← look p)
  let changed := before.known.any fun (p, e) =>
    isSchemaFile p && known.lookup p != some e
  if changed then
    let (r, w, seen) ← runLooking s args { before with known }
    deliver w seen
    if let .error f := r then complain f
    watch s args period seen
  else watch s args period before

/-- The environment as far as settings ask for it. -/
def environment : IO Environment := do
  let found ← Settings.overridingVariables.mapM fun (_, name) => do
    let value ← IO.getEnv name
    pure (value.map fun v => (Text.ofString name, Text.ofString v))
  pure (found.filterMap id)

end SchemaLoom

open SchemaLoom in
/-- Runs the program in the current folder. -/
def main (args : List String) : IO UInt32 := do
  let cwd ← IO.currentDir
  let env ← environment
  let s : Surroundings := { folder := Text.ofString cwd.toString, env, toolchain := "unknown" }
  let args := args.map Text.ofString
  let (r, w, before) ← runLooking s args { complete := false }
  deliver w before
  match r with
  | .error f => do
    complain f
    pure 1
  | .ok _ => do
    if let some period := w.watch then watch s args period before
    pure 0

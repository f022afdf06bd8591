import SchemaLoom.Text

/-!
# Releases

Which version of the program runs. What the build was told comes first; what it
was not told is taken from the record the build left of its modules.
-/

namespace SchemaLoom

structure BuiltModule where
  path : Text
  version : Text
  deriving DecidableEq, Repr

structure BuildRecord where
  main : BuiltModule
  dependencies : List BuiltModule := []
  settings : List (Text × Text) := []
  deriving Repr

/-- Version, commit and date of the program. -/
structure Release where
  version : Text := "dev"
  commit : Text := "none"
  date : Text := "unknown"
  deriving DecidableEq, Repr

namespace Release

/-- The module whose version counts. -/
def modulePath : Text := "github.com/dacolabs/zodgen"

/-- The version a build has recorded for the program, as its main module or a dependency. -/
def recordedVersion? (b : BuildRecord) : Option Text := do
  let m ← if b.main.path == modulePath then some b.main
    else b.dependencies.find? (·.path == modulePath)
  if m.version.isEmpty || m.version == Text.ofString "(devel)" then none else some m.version

/-- The length of a short commit name. -/
def shortCommit : Nat := 7

/-- Takes over one setting of the build. -/
def withSetting (r : Release) (key value : Text) : Release :=
  if key == Text.ofString "vcs.revision" then
    if r.commit == Text.ofString "none" && decide (shortCommit ≤ value.size) then
      { r with commit := Text.ofBytes (value.bytes.take shortCommit) }
    else r
  else if key == Text.ofString "vcs.time" && r.date == Text.ofString "unknown" then
    { r with date := value }
  else r

/-- Fills in what the build was not told. Its settings describe its main module only. -/
def complete (r : Release) (b : BuildRecord) : Release :=
  let r := if r.version == Text.ofString "dev" then
      { r with version := (recordedVersion? b).getD r.version } else r
  if b.main.path == modulePath then
    b.settings.foldl (fun r (k, v) => r.withSetting k v) r
  else r

/-- The line that tells about a release and the toolchain that built it. -/
def info (r : Release) (toolchain : Text) : Text :=
  "zodgen version " ++ r.version ++ " (commit: " ++ r.commit ++ ", built: " ++ r.date ++
    ", go: " ++ toolchain ++ ")"

end Release

end SchemaLoom

import Mathlib.Data.List.Induction
import SchemaLoom.Project
import SchemaLoom.Proofs.Result

/-!
# Reloads

A project that is reloaded again and again has the graph of the last load that succeeded. It need
not have the format of that one: the format is set as soon as there is a text, before it is known
whether a graph comes of it. The two go together as long as no text that fails to load looks
like the other format, so always where the settings select the format.

What is between two reloads is left open; the input is whatever is on disk by then.
-/

namespace SchemaLoom.Project

set_option autoImplicit false

/-- The format and the graph, as they are at a time. -/
def loaded (p : Project) : InputFormat × Graph := (p.format, p.graph)

/-- What a load that succeeds gives. -/
def loads? (p : Project) (disk : Disk) : Option (InputFormat × Graph) :=
  match inspect disk p.inputPath p.choices.format with
  | .ok (format, .ok graph) => some (format, graph)
  | _ => none

/-- The format a text is taken for that fails to load. -/
def misread? (p : Project) (disk : Disk) : Option InputFormat :=
  match inspect disk p.inputPath p.choices.format with
  | .ok (format, .error _) => some format
  | _ => none

/-- Reloads one after another, with changes to the disk in between. -/
def reloads (p : Project) (disks : List Disk) : Project :=
  disks.foldl (fun q disk => (reload disk q).1) p

/-- What the last load gave that succeeded. -/
def lastLoaded (p : Project) (disks : List Disk) : InputFormat × Graph :=
  disks.foldl (fun last disk => (p.loads? disk).getD last) p.loaded

/-! ### One reload -/

section Reload
variable {p : Project} {disk : Disk}

theorem reload_cases (p : Project) (disk : Disk) :
    (∃ format graph, p.loads? disk = some (format, graph) ∧ p.misread? disk = none ∧
      reload disk p = ({ p with format, graph }, .ok ())) ∨
    (∃ format f, p.loads? disk = none ∧ p.misread? disk = some format ∧
      reload disk p = ({ p with format }, .error f)) ∨
    ∃ f, p.loads? disk = none ∧ p.misread? disk = none ∧ reload disk p = (p, .error f) := by
  unfold loads? misread? reload
  rcases inspect disk p.inputPath p.choices.format with f | ⟨format, f | graph⟩
  · exact .inr (.inr ⟨f, rfl, rfl, rfl⟩)
  · exact .inr (.inl ⟨format, f, rfl, rfl, rfl⟩)
  · exact .inl ⟨format, graph, rfl, rfl, rfl⟩

/-- A reload that fails changes nothing but the format. -/
theorem reload_failed {f : Failure} (h : (reload disk p).2 = .error f) :
    (reload disk p).1 = { p with format := (p.misread? disk).getD p.format } := by
  rcases reload_cases p disk with ⟨format, graph, _, _, heq⟩ | ⟨format, _, _, hformat, heq⟩ |
    ⟨_, _, hformat, heq⟩
  · rw [heq] at h
    cases h
  · rw [heq, hformat]
    rfl
  · rw [heq, hformat]
    rfl

theorem misread?_eq_some {format : InputFormat} (h : p.misread? disk = some format) :
    ∃ f, inspect disk p.inputPath p.choices.format = .ok (format, .error f) := by
  unfold misread? at h
  split at h
  · rename_i hinspect
    cases h
    exact ⟨_, hinspect⟩
  · cases h

theorem loads?_eq_some {format : InputFormat} {graph : Graph} :
    p.loads? disk = some (format, graph) ↔
      inspect disk p.inputPath p.choices.format = .ok (format, .ok graph) := by
  unfold loads?
  constructor
  · intro h
    split at h
    · rename_i hinspect
      cases h
      exact hinspect
    · cases h
  · intro h
    rw [h]

theorem inspect_format {path : Text} {choice : Option InputFormat} {format : InputFormat}
    {graph : Result Graph} (h : inspect disk path choice = .ok (format, graph)) :
    ∃ t, disk.read path = .ok t ∧ format = choice.getD (InputFormat.detect t) := by
  obtain ⟨t, ht, h⟩ := Result.bind_eq_ok.mp h
  cases h
  exact ⟨t, Result.within_eq_ok.mp (Result.marked_eq_ok.mp ht), rfl⟩

/-- A project starts with what a load gives that succeeds. -/
theorem loads?_of_load {env : Environment} {folder : Text} (h : load disk env folder = .ok p) :
    p.loads? disk = some p.loaded := by
  unfold load at h
  dsimp only at h
  split at h
  · cases h
  · cases h
  · obtain ⟨⟨settings, choices⟩, _, h⟩ := Result.bind_eq_ok.mp h
    obtain ⟨⟨format, result⟩, hinspect, h⟩ := Result.bind_eq_ok.mp h
    obtain ⟨graph, rfl, h⟩ := Result.bind_eq_ok.mp h
    cases h
    exact loads?_eq_some.mpr hinspect

end Reload

/-! ### Histories -/

section Histories
variable {p : Project} {disks : List Disk} {disk : Disk}

theorem reloads_append (p : Project) (disks : List Disk) (disk : Disk) :
    p.reloads (disks ++ [disk]) = (reload disk (p.reloads disks)).1 := by
  simp [reloads]

theorem lastLoaded_append (p : Project) (disks : List Disk) (disk : Disk) :
    p.lastLoaded (disks ++ [disk]) = (p.loads? disk).getD (p.lastLoaded disks) := by
  simp [lastLoaded]

theorem exists_reloads (p : Project) (disks : List Disk) :
    ∃ format graph, p.reloads disks = { p with format, graph } := by
  induction disks using List.reverseRecOn with
  | nil => exact ⟨p.format, p.graph, rfl⟩
  | append_singleton disks disk ih =>
    obtain ⟨format, graph, ih⟩ := ih
    rw [reloads_append, ih]
    rcases reload_cases { p with format, graph } disk with ⟨_, _, _, _, h⟩ | ⟨_, _, _, _, h⟩ |
      ⟨_, _, _, h⟩ <;> rw [h] <;> exact ⟨_, _, rfl⟩

theorem reloads_append_cases (p : Project) (disks : List Disk) (disk : Disk) :
    ((p.reloads (disks ++ [disk])).loaded = p.lastLoaded (disks ++ [disk]) ∧
      p.misread? disk = none) ∨
    p.loads? disk = none ∧ (p.reloads (disks ++ [disk])).loaded =
      ((p.misread? disk).getD (p.reloads disks).format, (p.reloads disks).graph) := by
  obtain ⟨format, graph, hp⟩ := exists_reloads p disks
  rw [reloads_append, lastLoaded_append, hp]
  -- the format and the graph have no part in what is read
  rcases reload_cases { p with format, graph } disk with ⟨f, g, hloads, hmisread, h⟩ |
    ⟨f, _, hloads, hmisread, h⟩ | ⟨_, hloads, hmisread, h⟩
  · left
    rw [h, show p.loads? disk = some (f, g) from hloads]
    exact ⟨rfl, hmisread⟩
  · right
    rw [h, show p.misread? disk = some f from hmisread]
    exact ⟨hloads, rfl⟩
  · right
    rw [h, show p.misread? disk = none from hmisread]
    exact ⟨hloads, rfl⟩

theorem graph_reloads (p : Project) (disks : List Disk) :
    (p.reloads disks).graph = (p.lastLoaded disks).2 := by
  induction disks using List.reverseRecOn with
  | nil => rfl
  | append_singleton disks disk ih =>
    rcases reloads_append_cases p disks disk with ⟨h, _⟩ | ⟨hloads, h⟩
    · exact congrArg Prod.snd h
    · rw [lastLoaded_append, hloads]
      exact (congrArg Prod.snd h).trans ih

/-- One more reload keeps format and graph together exactly if no text is taken for another
format that fails to load. -/
theorem loaded_append_iff (h : (p.reloads disks).loaded = p.lastLoaded disks) :
    (p.reloads (disks ++ [disk])).loaded = p.lastLoaded (disks ++ [disk]) ↔
      ∀ format, p.misread? disk = some format → format = (p.lastLoaded disks).1 := by
  rcases reloads_append_cases p disks disk with ⟨heq, hmisread⟩ | ⟨hloads, heq⟩
  · exact ⟨fun _ format hformat => absurd (hmisread.symm.trans hformat) nofun, fun _ => heq⟩
  · rw [heq, lastLoaded_append, hloads, Option.getD_none, ← h, loaded]
    cases p.misread? disk <;> simp

/-- With a format that is selected, every load that gives one gives that one. -/
theorem lastLoaded_selected (h : p.choices.format = some p.format) (disks : List Disk) :
    (p.lastLoaded disks).1 = p.format := by
  induction disks using List.reverseRecOn with
  | nil => rfl
  | append_singleton disks disk ih =>
    rw [lastLoaded_append]
    cases hloads : p.loads? disk with
    | none => exact ih
    | some r =>
      obtain ⟨t, _, hformat⟩ := inspect_format (loads?_eq_some.mp hloads)
      rw [Option.getD_some, hformat, h]
      rfl

/-- Throughout a history of reloads, the graph is that of the last load that succeeded. The format
is so as well exactly if every text that fails to load is taken for the format of that load,
such as with a format that the settings select. -/
theorem reloads_lastLoaded_iff (p : Project) (disks : List Disk) :
    (∀ disk env folder, load disk env folder = .ok p → p.loads? disk = some p.loaded) ∧
    (∀ seen, seen <+: disks → (p.reloads seen).graph = (p.lastLoaded seen).2) ∧
    ((∀ seen, seen <+: disks → (p.reloads seen).loaded = p.lastLoaded seen) ↔
      ∀ seen disk, seen ++ [disk] <+: disks →
        ∀ format, p.misread? disk = some format → format = (p.lastLoaded seen).1) ∧
    (p.choices.format = some p.format →
      ∀ seen, seen <+: disks → (p.reloads seen).loaded = p.lastLoaded seen) := by
  have hiff : (∀ seen, seen <+: disks → (p.reloads seen).loaded = p.lastLoaded seen) ↔
      ∀ seen disk, seen ++ [disk] <+: disks →
        ∀ format, p.misread? disk = some format → format = (p.lastLoaded seen).1 := by
    constructor
    · intro hall seen disk hseen
      exact (loaded_append_iff (hall seen ((List.prefix_append _ _).trans hseen))).mp
        (hall _ hseen)
    · intro hall seen
      induction seen using List.reverseRecOn with
      | nil => exact fun _ => rfl
      | append_singleton seen disk ih =>
        intro hseen
        exact (loaded_append_iff (ih ((List.prefix_append _ _).trans hseen))).mpr
          (hall seen disk hseen)
  refine ⟨fun _ _ _ => loads?_of_load, fun seen _ => graph_reloads p seen, hiff, fun h => ?_⟩
  refine hiff.mpr fun seen disk _ format hformat => ?_
  obtain ⟨_, hinspect⟩ := misread?_eq_some hformat
  obtain ⟨t, _, hformat⟩ := inspect_format hinspect
  rw [lastLoaded_selected h, hformat, h]
  rfl

end Histories

/-- A folder with settings that leave the format open, and an input. -/
def studio (input : Text) : Disk where
  known := [("/studio", .folder),
    ("/studio/zodgen.yaml", .file "version: 1\ninput: in.yaml\noutput: out.ts\n"),
    ("/studio/in.yaml", .file input)]

/-- An input in the format of the linker. -/
def kinds : Text := "enums:\n  - name: Kind\n    members: [\x7bname: a\x7d]\n"

/-- An input that looks like a JSON Schema, with a definition that nothing is known of. -/
def untyped : Text := "$defs:\n  A: \x7b\x7d\n"

set_option maxRecDepth 100000 in
theorem studio_runs : (load (studio kinds) [] "/studio").toOption.map (fun p =>
      (p.format, (reload (studio untyped) p).1.format, (reload (studio untyped) p).2.toOption)) =
    some (.graph, .jsonSchema, none) := by
  decide +kernel

/-- After the reload that fails, the project has the graph of one format and the other format. -/
theorem studio_not_lastLoaded : ∃ p f, load (studio kinds) [] "/studio" = .ok p ∧
    (reload (studio untyped) p).2 = .error f ∧
    (p.reloads [studio untyped]).graph = p.graph ∧ p.lastLoaded [studio untyped] = p.loaded ∧
    p.format = .graph ∧ (p.reloads [studio untyped]).format = .jsonSchema ∧
    (p.reloads [studio untyped]).loaded ≠ p.lastLoaded [studio untyped] := by
  obtain ⟨p, hload, h⟩ := Option.map_eq_some_iff.mp studio_runs
  obtain ⟨hbefore, h⟩ := Prod.mk.inj h
  obtain ⟨hafter, hfails⟩ := Prod.mk.inj h
  rcases reload_cases p (studio untyped) with ⟨_, _, _, _, heq⟩ | ⟨_, f, hloads, _, heq⟩ |
    ⟨f, _, _, heq⟩
  · rw [heq] at hfails
    cases hfails
  · have hlast : p.lastLoaded [studio untyped] = p.loaded := by
      simp [lastLoaded, hloads]
    have hgraph : (p.reloads [studio untyped]).graph = p.graph := by
      rw [graph_reloads, hlast]
      rfl
    refine ⟨p, f, Result.ok_of_toOption hload, by rw [heq], hgraph, hlast, hbefore, hafter, ?_⟩
    rw [hlast]
    intro hsame
    have hformat : (p.reloads [studio untyped]).format = p.format := congrArg Prod.fst hsame
    rw [hbefore] at hformat
    exact absurd (hafter.symm.trans hformat) nofun
  · rw [heq, hbefore] at hafter
    cases hafter

end SchemaLoom.Project

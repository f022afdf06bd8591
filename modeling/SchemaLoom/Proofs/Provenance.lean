import SchemaLoom.Proofs.FileReferences
import SchemaLoom.Proofs.Growth
import SchemaLoom.Proofs.Locations

/-!
# References to definitions across files

With the files of a schema in place, every schema of the result was written in one of
them. A reference to a definition stays as it was written there, and an import reads
it in the one table there is: that of the file that stands at the root. Whether its
own file has a definition of the same name makes no difference.

Definitions of the other files are never declared under their names; what is reached of
them through references to files is part of the schema that refers.
-/

namespace SchemaLoom

set_option autoImplicit false

/-- A file, and the folder its references to files start from. -/
structure Source where
  file : Text
  folder : Text

namespace Schema

/-- At a position below a schema of one source, with the files in place, stands a schema that was
written in some source. -/
inductive Written (read : ReadFile) : Source → Schema → Position → Source → Schema → Prop
  | here {src : Source} {s : Schema} : s.isFileRef = false → Written read src s [] src s
  | child {src src' : Source} {s c t : Schema} {l : Location} {p : Position} :
      s.isFileRef = false → s.child? l = some c → Written read src c p src' t →
      Written read src s (l :: p) src' t
  | inside {src src' : Source} {s u t : Schema} {p : Position} : s.isFileRef = true →
      load read (s.refPath src.folder) = .ok u →
      Written read ⟨s.refPath src.folder, Path.dir (s.refPath src.folder)⟩ u p src' t →
      Written read src s p src' t

/-! ### Schemas that refer to no file themselves -/

namespace Inlined
variable {read : ReadFile} {folder : Text} {s s' : Schema}

theorem keywords_eq (h : Inlined read folder s s') (hs : s.isFileRef = false) :
    s'.keywords = s.keywords := by
  cases h with
  | null => rfl
  | kept => rfl
  | file hfile =>
    rw [hs] at hfile
    cases hfile

theorem locations_eq (h : Inlined read folder s s') (hs : s.isFileRef = false) :
    s'.children.map (·.1) = s.children.map (·.1) := by
  cases h with
  | null => rfl
  | kept _ hlocations => exact hlocations
  | file hfile =>
    rw [hs] at hfile
    cases hfile

theorem child?_cases (h : Inlined read folder s s') (hs : s.isFileRef = false) (l : Location) :
    (s.child? l = none ∧ s'.child? l = none) ∨
      ∃ c d, s.child? l = some c ∧ s'.child? l = some d ∧ Inlined read folder c d := by
  cases h with
  | null => exact .inl ⟨rfl, rfl⟩
  | kept _ hlocations hall => exact lookup_of_locations hlocations hall l
  | file hfile =>
    rw [hs] at hfile
    cases hfile

theorem def?_cases (h : Inlined read folder s s') (hs : s.isFileRef = false) (k : String) :
    (s.def? k = none ∧ s'.def? k = none) ∨
      ∃ c d, s.def? k = some c ∧ s'.def? k = some d ∧ Inlined read folder c d := by
  unfold def?
  rcases h.child?_cases hs (.def_ k) with ⟨hc, hd⟩ | ⟨c, d, hc, hd, hcd⟩
  · rw [hc, hd, Option.none_or, Option.none_or]
    exact h.child?_cases hs (.definition k)
  · rw [hc, hd]
    exact .inr ⟨c, d, rfl, rfl, hcd⟩

end Inlined

/-! ### Before and after -/

section Written
variable {read : ReadFile} {src src' : Source} {s s' t : Schema} {p : Position}

/-- What was written somewhere is still there, with its own references to files in place. -/
theorem Written.at? (h : Written read src s p src' t) (hs : Inlined read src.folder s s') :
    t.isFileRef = false ∧ ∃ t' u, s'.at? p = some t' ∧ Inlined read src'.folder t u ∧
      t'.keywords.ref = u.keywords.ref ∧ t'.children = u.children := by
  induction h generalizing s' with
  | here hfile => exact ⟨hfile, s', s', rfl, hs, rfl, rfl⟩
  | @child src src' s c t l p hfile hc _ ih =>
    rcases hs.child?_cases hfile l with ⟨hnone, _⟩ | ⟨a, d, ha, hd, had⟩
    · rw [hc] at hnone
      cases hnone
    · obtain rfl : c = a := Option.some.inj (hc.symm.trans ha)
      obtain ⟨ht, t', u, hat, hrest⟩ := ih had
      refine ⟨ht, t', u, ?_, hrest⟩
      rw [Schema.at?, hd]
      exact hat
  | @inside src src' s u t p hfile hload _ ih =>
    cases hs with
    | null => cases hfile
    | kept hkept =>
      rw [hkept] at hfile
      cases hfile
    | @file _ _ v w _ hload' hvw =>
      obtain rfl : u = v := Except.ok.inj (hload.symm.trans hload')
      obtain ⟨ht, t', x, hat, hx, href, hchildren⟩ := ih hvw
      -- at the place of the reference itself only the recorded orders differ
      cases p with
      | nil =>
        cases hat
        exact ⟨ht, s.replaceBy w, x, rfl, hx, href, hchildren⟩
      | cons l p => exact ⟨ht, t', x, hat, hx, href, hchildren⟩

theorem Inlined.exists_written {folder : Text} (h : Inlined read folder s s') (file : Text)
    (hp : s'.at? p = some t) : ∃ src u, Written read ⟨file, folder⟩ s p src u := by
  induction h generalizing file p t with
  | null =>
    cases p with
    | nil => exact ⟨_, _, .here rfl⟩
    | cons l p => cases hp
  | @kept folder k cs ds hfile hlocations _ ih =>
    cases p with
    | nil => exact ⟨_, _, .here hfile⟩
    | cons l p =>
      obtain ⟨d, hd, hp⟩ := Option.bind_eq_some_iff.mp hp
      rcases lookup_of_locations hlocations (R := fun c d => ∀ p t, Schema.at? d p = some t →
          ∃ src u, Written read ⟨file, folder⟩ c p src u) (fun i c d hc hd p t => ih i c d hc hd file)
          l with ⟨_, hnone⟩ | ⟨c, e, hc, he, hR⟩
      · cases hnone.symm.trans hd
      · obtain rfl : e = d := Option.some.inj (he.symm.trans hd)
        obtain ⟨src, u, hu⟩ := hR p t hp
        exact ⟨src, u, .child hfile hc hu⟩
  | @file folder s u w hfile hload _ ih =>
    have hw : ∃ v, w.at? p = some v := by
      cases p with
      | nil => exact ⟨w, rfl⟩
      | cons l p => exact ⟨t, hp⟩
    obtain ⟨v, hv⟩ := hw
    obtain ⟨src, x, hx⟩ := ih (s.refPath folder) hv
    exact ⟨src, x, .inside hfile hload hx⟩

/-- A source that stands at the root is a file as it was loaded. -/
theorem Written.load_root (h : Written read src s [] src' t) (hs : load read src.file = .ok s) :
    load read src'.file = .ok t := by
  generalize hp : ([] : Position) = p at h
  induction h with
  | here => exact hs
  | child => cases hp
  | inside _ hload _ ih => exact ih hload hp

end Written

end Schema

/-! ### Imports -/

namespace Import
variable {root t : Schema} {name : Text}

theorem typeRef_of_defName? (hname : Reference.defName? (Text.ofString t.keywords.ref) = some name)
    (n : Nat) (hint : Text) : typeRef root (n + 1) hint t = (do
      let u ← refType root t
      pure (u, t.decorators)) := by
  have hne : t.keywords.ref.isEmpty = false := by
    rw [Bool.eq_false_iff]
    intro hempty
    rw [String.isEmpty_iff.mp hempty] at hname
    cases hname
  cases t with
  | null => cases hname
  | node k cs =>
    rw [typeRef]
    · rw [hne]
      rfl
    · simp

theorem refType_of_some (hname : Reference.defName? (Text.ofString t.keywords.ref) = some name)
    {s : Schema} (hs : root.def? name.toDisplay = some s) :
    refType root t = pure (TypeRef.named name) := by
  unfold refType
  dsimp only
  rw [hname]
  simp [hs]

theorem refType_of_none (hname : Reference.defName? (Text.ofString t.keywords.ref) = some name)
    (hs : root.def? name.toDisplay = none) :
    refType root t = fail (.undefinedRef (Text.ofString t.keywords.ref)) := by
  unfold refType
  dsimp only
  rw [hname]
  simp [hs]

/-- A document has a scalar for a schema that is no more than a built-in type. -/
theorem DeclaredAs.scalar {d : Document} {k : Keywords} (h : DeclaredAs root d name (.node k []))
    (href : k.ref.isEmpty = true) (henum : (Schema.node k []).isEnumerated = false)
    (hvariants : (Schema.node k []).hasVariants = false) (harray : k.type ≠ "array")
    (hobject : k.type ≠ "object") :
    ∃ x ∈ d.scalars, x.name = name ∧ x.base = (Schema.node k []).builtInType := by
  obtain ⟨t, u, _, hu, hunder⟩ := h
  have hdeclare : declareScalar name (.node k []) t = .ok ((), u) := by
    rw [← hu, fuelFor, Nat.mul_add, declare]
    · simp [Schema.keywords, href, henum, hvariants, Schema.isArray, Schema.isObject, harray,
        hobject, Schema.parts, Schema.under, Schema.children, Schema.propertyKeys, Schema.child?]
    · simp
  unfold declareScalar at hdeclare
  split at hdeclare
  · cases hdeclare
    have hmem := congrArg Document.scalars hunder
    simp only [Document.under, List.filter_append] at hmem
    obtain ⟨x, hx, hname, hbase⟩ : ∃ x ∈ d.scalars.filter (·.name = name), x.name = name ∧
        x.base = (Schema.node k []).builtInType := by
      rw [hmem]
      exact ⟨_, List.mem_append_right _ (by simp; rfl), rfl, rfl⟩
    exact ⟨x, (List.mem_filter.mp hx).1, hname, hbase⟩
  · cases hdeclare

end Import

/-- Everything in an imported schema was written in one of its files. The files leave every
reference to a definition as it was written, and it is read in the definitions of the file that
stands at the root. If there is one of that name, the reference becomes its name, and what the
document declares under that name is the definition with the files it refers to in place. If not,
the reference is refused. -/
theorem Schema.denotes_root {read : ReadFile} {fuel : Nat} {path folder name : Text}
    {s s' : Schema} {d : Document} (hload : load read path = .ok s)
    (hresolve : resolveFiles read fuel folder [] s = .ok s')
    (himport : s'.toDocument name = .ok d) :
    (∀ p t', s'.at? p = some t' → ∃ src t, Written read ⟨path, folder⟩ s p src t) ∧
    ∃ home h, Written read ⟨path, folder⟩ s [] home h ∧ load read home.file = .ok h ∧
      ∀ p src t x, Written read ⟨path, folder⟩ s p src t →
        Reference.defName? (Text.ofString t.keywords.ref) = some x →
        ∃ t', s'.at? p = some t' ∧ t'.keywords.ref = t.keywords.ref ∧
          (∀ c, h.def? x.toDisplay = some c →
            (∀ n hint st, Import.typeRef s' (n + 1) hint t' st =
              .ok ((TypeRef.named x, t'.decorators), st)) ∧
            ∃ c', Inlined read home.folder c c' ∧ Import.DeclaredAs s' d x c') ∧
          (h.def? x.toDisplay = none → ∀ n hint st, Import.typeRef s' (n + 1) hint t' st =
            .error (Failure.of (.undefinedRef (Text.ofString t.keywords.ref)))) := by
  have hinlined := inlined_of_resolveFiles hresolve
  refine ⟨fun p t' => hinlined.exists_written path, ?_⟩
  obtain ⟨home, h, hhome⟩ := hinlined.exists_written path (p := []) rfl
  have hh := hhome.load_root hload
  refine ⟨home, h, hhome, hh, ?_⟩
  -- at the root stands `h` with its files in place, so its definitions are the table
  obtain ⟨hfile, r, v, hr, hv, _, hchildren⟩ := hhome.at? hinlined
  cases hr
  have hdef : ∀ k, s'.def? k = v.def? k := fun k => by rw [def?, def?, child?, child?, hchildren]; rfl
  have hdistinct : s'.Distinct := by
    unfold Distinct
    rw [hchildren, hv.locations_eq hfile]
    exact (sorted_of_load hh).distinct
  intro p src t x hwritten href
  obtain ⟨ht, t', w, hat, hw, hw', _⟩ := hwritten.at? hinlined
  have hkept : t'.keywords.ref = t.keywords.ref := by rw [hw', hw.keywords_eq ht]
  have href' : Reference.defName? (Text.ofString t'.keywords.ref) = some x := by rwa [hkept]
  refine ⟨t', hat, hkept, ?_, ?_⟩
  · intro c hc
    rcases hv.def?_cases hfile x.toDisplay with ⟨hnone, _⟩ | ⟨a, b, ha, hb, hab⟩
    · cases hc.symm.trans hnone
    · obtain rfl : c = a := Option.some.inj (hc.symm.trans ha)
      have hsome : s'.def? x.toDisplay = some b := (hdef _).trans hb
      refine ⟨?_, b, hab, ?_⟩
      · intro n hint st
        rw [Import.typeRef_of_defName? href', Import.refType_of_some href' hsome]
        rfl
      · have hwhole := Reference.whole_defName? (Text.whole_ofString _) href
        rw [← hwhole.ofString_toDisplay]
        exact Import.declaredAs_of_def? hdistinct himport hsome
  · intro hnone n hint st
    rcases hv.def?_cases hfile x.toDisplay with ⟨_, hb⟩ | ⟨a, b, ha, _, _⟩
    · rw [Import.typeRef_of_defName? href',
        Import.refType_of_none href' ((hdef _).trans hb), hkept]
      rfl
    · cases hnone.symm.trans ha

/-- Two files with a definition of the same name. The second one refers to its own. -/
def twoNames : Files where
  entries := [
    ("schema.json", "\x7b\"properties\":\x7b\"a\":\x7b\"$ref\":\"other.json\"\x7d\x7d," ++
      "\"$defs\":\x7b\"N\":\x7b\"type\":\"string\"\x7d\x7d\x7d"),
    ("other.json", "\x7b\"properties\":\x7b\"b\":\x7b\"$ref\":\"#/$defs/N\"\x7d\x7d," ++
      "\"$defs\":\x7b\"N\":\x7b\"type\":\"integer\"\x7d\x7d\x7d")]

def isPlainInteger (s : Schema) : Bool :=
  !s.isNull && s.children.isEmpty && s.keywords.ref.isEmpty && !s.isEnumerated &&
    !s.hasVariants && s.keywords.type == "integer" && s.keywords.format.isEmpty

theorem builtInType_of_isPlainInteger {s : Schema} (h : isPlainInteger s = true) :
    s.builtInType = Text.ofString "safeint" := by
  simp only [isPlainInteger, Bool.and_eq_true, beq_iff_eq, String.isEmpty_iff] at h
  obtain ⟨⟨_, htype⟩, hformat⟩ := h
  unfold Schema.builtInType
  dsimp only
  rw [htype, hformat]
  rfl

theorem Import.DeclaredAs.safeint {root c c' : Schema} {read : ReadFile} {folder name : Text}
    {d : Document} (hc : isPlainInteger c = true) (hinlined : Schema.Inlined read folder c c')
    (h : DeclaredAs root d name c') : Text.ofString "safeint" ∈ d.scalars.map (·.base) := by
  have hbase := builtInType_of_isPlainInteger hc
  simp only [isPlainInteger, Bool.and_eq_true, Bool.not_eq_true', beq_iff_eq] at hc
  obtain ⟨⟨⟨⟨⟨⟨hnull, hchildren⟩, href⟩, henum⟩, hvariants⟩, htype⟩, _⟩ := hc
  cases hinlined with
  | null => cases hnull
  | @kept _ k cs ds _ hlocations =>
    obtain rfl : cs = [] := List.isEmpty_iff.mp hchildren
    obtain rfl : ds = [] := by simpa using hlocations
    change k.type = "integer" at htype
    obtain ⟨x, hx, _, hxbase⟩ := h.scalar href henum hvariants (by simp [htype]) (by simp [htype])
    exact List.mem_map.mpr ⟨x, hx, hxbase.trans hbase⟩
  | file hfile =>
    rw [Schema.isFileRef, String.isEmpty_iff.mp href] at hfile
    cases hfile

/-- What is met on the way from the first file to the reference in the second one. -/
structure TwoNames (s a f b mine theirs s' : Schema) (d : Document) : Prop where
  load : Schema.load twoNames.read "schema.json" = .ok s
  child : s.child? (.property "a") = some a
  loadOther : Schema.load twoNames.read (a.refPath Path.dot) = .ok f
  childOther : f.child? (.property "b") = some b
  definition : s.def? "N" = some mine
  definitionOther : f.def? "N" = some theirs
  resolved : Schema.resolveFiles twoNames.read (twoNames.entries.length + 1) Path.dot [] s = .ok s'
  imported : s'.toDocument "Schema" = .ok d
  refers : [s, a, f, b, mine].map Schema.isFileRef = [false, true, false, false, false]
  ref : b.keywords.ref = "#/$defs/N"
  type : mine.keywords.type = "string"
  plain : isPlainInteger theirs = true
  bases : d.scalars.map (·.base) = [Text.ofString "string"]

set_option maxRecDepth 100000 in
theorem twoNames_runs :
    ((Schema.load twoNames.read "schema.json").toOption.bind fun s => do
      let a ← s.child? (.property "a")
      let f ← (Schema.load twoNames.read (a.refPath Path.dot)).toOption
      let b ← f.child? (.property "b")
      let mine ← s.def? "N"
      let theirs ← f.def? "N"
      let s' ← (Schema.resolveFiles twoNames.read (twoNames.entries.length + 1) Path.dot []
        s).toOption
      let d ← (s'.toDocument "Schema").toOption
      pure ([s, a, f, b, mine].map Schema.isFileRef == [false, true, false, false, false] &&
        b.keywords.ref == "#/$defs/N" && mine.keywords.type == "string" &&
        isPlainInteger theirs && d.scalars.map (·.base) == [Text.ofString "string"])) =
      some true := by
  decide +kernel

theorem exists_twoNames : ∃ s a f b mine theirs s' d, TwoNames s a f b mine theirs s' d := by
  obtain ⟨s, hs, h⟩ := Option.bind_eq_some_iff.mp twoNames_runs
  obtain ⟨a, ha, h⟩ := Option.bind_eq_some_iff.mp h
  obtain ⟨f, hf, h⟩ := Option.bind_eq_some_iff.mp h
  obtain ⟨b, hb, h⟩ := Option.bind_eq_some_iff.mp h
  obtain ⟨mine, hmine, h⟩ := Option.bind_eq_some_iff.mp h
  obtain ⟨theirs, htheirs, h⟩ := Option.bind_eq_some_iff.mp h
  obtain ⟨s', hs', h⟩ := Option.bind_eq_some_iff.mp h
  obtain ⟨d, hd, h⟩ := Option.bind_eq_some_iff.mp h
  have hfacts := Option.some.inj h
  simp only [Bool.and_eq_true, beq_iff_eq] at hfacts
  obtain ⟨⟨⟨⟨hrefers, href⟩, htype⟩, hplain⟩, hbases⟩ := hfacts
  exact ⟨s, a, f, b, mine, theirs, s', d, Result.ok_of_toOption hs, ha, Result.ok_of_toOption hf, hb, hmine,
    htheirs, Result.ok_of_toOption hs', Result.ok_of_toOption hd, hrefers, href, htype, hplain, hbases⟩

section TwoNames
variable {s a f b mine theirs s' : Schema} {d : Document}

theorem TwoNames.written (h : TwoNames s a f b mine theirs s' d) :
    Schema.Written twoNames.read ⟨"schema.json", Path.dot⟩ s [.property "a", .property "b"]
      ⟨a.refPath Path.dot, Path.dir (a.refPath Path.dot)⟩ b := by
  have hrefers := h.refers
  simp only [List.map_cons, List.cons.injEq] at hrefers
  obtain ⟨hs, ha, hf, hb, _⟩ := hrefers
  exact .child hs h.child (.inside ha h.loadOther (.child hf h.childOther (.here hb)))

theorem TwoNames.defName? (h : TwoNames s a f b mine theirs s' d) :
    Reference.defName? (Text.ofString b.keywords.ref) = some (Text.ofString "N") := by
  rw [h.ref]
  decide

end TwoNames

/-- The reference of the second file is to the definition of the first one. -/
theorem denotes_root_twoNames : ∃ s s' d t', Schema.load twoNames.read "schema.json" = .ok s ∧
    Schema.resolveFiles twoNames.read (twoNames.entries.length + 1) Path.dot [] s = .ok s' ∧
    s'.toDocument "Schema" = .ok d ∧ s'.at? [.property "a", .property "b"] = some t' ∧
    (∀ n hint st, Import.typeRef s' (n + 1) hint t' st =
      .ok ((TypeRef.named "N", t'.decorators), st)) ∧
    ∃ c, c.keywords.type = "string" ∧ Import.DeclaredAs s' d "N" c := by
  obtain ⟨s, a, f, b, mine, theirs, s', d, h⟩ := exists_twoNames
  obtain ⟨_, home, root, hroot, _, hall⟩ := Schema.denotes_root h.load h.resolved h.imported
  have hrefers := h.refers
  simp only [List.map_cons, List.cons.injEq] at hrefers
  obtain ⟨hs, _, _, _, hmine, _⟩ := hrefers
  obtain rfl : root = s := by
    cases hroot with
    | here => rfl
    | inside hfile =>
      rw [hs] at hfile
      cases hfile
  obtain ⟨t', ht', _, hsome, _⟩ := hall _ _ _ _ h.written h.defName?
  obtain ⟨htypeRef, c, hc, hdeclared⟩ := hsome mine h.definition
  refine ⟨_, s', d, t', h.load, h.resolved, h.imported, ht', htypeRef, c, ?_, hdeclared⟩
  rw [hc.keywords_eq hmine, h.type]

/-- A reference need not stand for the definition that its own file has. -/
theorem twoNames_not_own : ∃ s s' d src t f c, Schema.load twoNames.read "schema.json" = .ok s ∧
    Schema.resolveFiles twoNames.read (twoNames.entries.length + 1) Path.dot [] s = .ok s' ∧
    s'.toDocument "Schema" = .ok d ∧
    Schema.Written twoNames.read ⟨"schema.json", Path.dot⟩ s [.property "a", .property "b"] src t ∧
    Reference.defName? (Text.ofString t.keywords.ref) = some (Text.ofString "N") ∧
    Schema.load twoNames.read src.file = .ok f ∧ f.def? "N" = some c ∧
    ¬ ∃ c', Schema.Inlined twoNames.read src.folder c c' ∧ Import.DeclaredAs s' d "N" c' := by
  obtain ⟨s, a, f, b, mine, theirs, s', d, h⟩ := exists_twoNames
  refine ⟨s, s', d, _, b, f, theirs, h.load, h.resolved, h.imported, h.written, h.defName?,
    h.loadOther, h.definitionOther, ?_⟩
  rintro ⟨c', hinlined, hdeclared⟩
  have hmem := hdeclared.safeint h.plain hinlined
  rw [h.bases] at hmem
  exact absurd hmem (by decide)

end SchemaLoom

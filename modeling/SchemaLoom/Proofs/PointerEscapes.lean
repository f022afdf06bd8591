import SchemaLoom.JsonSchema.Reference

/-!
# References to definitions

A reference spells the name of a definition with two escapes: a tilde is written `~0`, and a
slash `~1`. Whatever the name, the reference written for it names that definition and no other
one. The two escapes are undone one after the other, slashes first: what the first pass leaves
of an escaped tilde is never taken for the escape of a slash.
-/

namespace SchemaLoom.Reference

set_option autoImplicit false

/-- One rune of a name in a pointer step. -/
def escapeRune (r : Rune) : Text :=
  if r = .char '~' then "~0" else if r = .char '/' then "~1" else [r]

/-- A name as a pointer step. -/
def escape (name : Text) : Text := name.flatMap escapeRune

/-- A name with its tildes escaped and its slashes as they are. -/
def escapeTildes (name : Text) : Text :=
  name.flatMap fun r => if r = .char '~' then "~0" else [r]

/-! ### Passes over a text -/

section Passes
variable {mark by_ : Char} {r : Rune} {t : Text}

theorem replaceMark_mark :
    replaceMark mark by_ (.char '~' :: .char mark :: t) = .char by_ :: replaceMark mark by_ t := by
  simp [replaceMark]

theorem replaceMark_cons (hr : r ≠ .char '~') :
    replaceMark mark by_ (r :: t) = r :: replaceMark mark by_ t := by
  cases t with
  | nil => rfl
  | cons b t => simp [replaceMark, hr]

/-- A tilde in front of anything but the mark stays, and so does what follows it. -/
theorem replaceMark_other {c : Char} (hmark : c ≠ mark) (htilde : c ≠ '~') :
    replaceMark mark by_ (.char '~' :: .char c :: t) =
      .char '~' :: .char c :: replaceMark mark by_ t := by
  rw [replaceMark, if_neg (by simp [hmark]), replaceMark_cons (by simp [htilde])]

end Passes

theorem replaceMark_escape (name : Text) :
    replaceMark '1' '/' (escape name) = escapeTildes name := by
  induction name with
  | nil => rfl
  | cons r name ih =>
    by_cases htilde : r = .char '~'
    · subst htilde
      change replaceMark '1' '/' (.char '~' :: .char '0' :: escape name) = _
      rw [replaceMark_other (by decide) (by decide), ih]
      rfl
    by_cases hslash : r = .char '/'
    · subst hslash
      change replaceMark '1' '/' (.char '~' :: .char '1' :: escape name) = _
      rw [replaceMark_mark, ih]
      rfl
    · have hescape : escape (r :: name) = r :: escape name := by
        simp [escape, escapeRune, htilde, hslash]
      have htildes : escapeTildes (r :: name) = r :: escapeTildes name := by
        simp [escapeTildes, htilde]
      rw [hescape, replaceMark_cons htilde, ih, htildes]

theorem replaceMark_escapeTildes (name : Text) :
    replaceMark '0' '~' (escapeTildes name) = name := by
  induction name with
  | nil => rfl
  | cons r name ih =>
    by_cases htilde : r = .char '~'
    · subst htilde
      change replaceMark '0' '~' (.char '~' :: .char '0' :: escapeTildes name) = _
      rw [replaceMark_mark, ih]
    · have htildes : escapeTildes (r :: name) = r :: escapeTildes name := by
        simp [escapeTildes, htilde]
      rw [htildes, replaceMark_cons htilde, ih]

theorem unescape_escape (name : Text) : unescape (escape name) = name := by
  rw [unescape, replaceMark_escape, replaceMark_escapeTildes]

/-! ### Steps and references -/

theorem escapeRune_ne_nil (r : Rune) : escapeRune r ≠ [] := by
  unfold escapeRune
  split
  · exact List.cons_ne_nil _ _
  · split
    · exact List.cons_ne_nil _ _
    · exact List.cons_ne_nil _ _

theorem slash_not_mem_escapeRune (r : Rune) : .char '/' ∉ escapeRune r := by
  unfold escapeRune
  split
  · decide
  · split
    · decide
    · next hslash => simpa using Ne.symm hslash

theorem stepName?_escape {name : Text} (hname : name ≠ []) :
    stepName? (escape name) = some name := by
  have hne : escape name ≠ [] := by
    obtain ⟨r, rest, rfl⟩ := List.exists_cons_of_ne_nil hname
    intro h
    exact escapeRune_ne_nil r (List.append_eq_nil_iff.mp h).1
  have hslash : Text.hasChar '/' (escape name) = false := by
    simp [Text.hasChar, escape, slash_not_mem_escapeRune]
  rw [stepName?, if_neg (by simp [hne, hslash]), unescape_escape]

theorem behind?_append (root t : Text) : behind? root (root ++ t) = some t := by
  induction root with
  | nil => cases t <;> rfl
  | cons r root ih => rw [List.cons_append, behind?, if_pos rfl, ih]

/-- The reference to a definition names it, under either root, and a reference to another
definition is another text. -/
theorem defName?_escape {root name : Text} (hroot : root ∈ roots) (hname : name ≠ []) :
    defName? (root ++ escape name) = some name ∧
      ∀ root' ∈ roots, ∀ other, other ≠ [] → root' ++ escape other = root ++ escape name →
        other = name := by
  have hnames : ∀ root ∈ roots, ∀ name, name ≠ [] →
      defName? (root ++ escape name) = some name := by
    intro root hroot name hname
    have hown : (behind? root (root ++ escape name)).bind stepName? = some name := by
      rw [behind?_append, Option.bind_some, stepName?_escape hname]
    rcases List.mem_cons.mp hroot with rfl | hroot
    · rw [defName?, roots, List.findSome?_cons, hown]
    · -- the roots differ behind `#/`, so the first one does not begin a reference below the second
      rw [List.mem_singleton.mp hroot] at hown ⊢
      have hfirst : behind? "#/$defs/" ("#/definitions/" ++ escape name) = none := rfl
      rw [defName?, roots, List.findSome?_cons, hfirst, Option.bind_none, List.findSome?_cons, hown]
  refine ⟨hnames root hroot name hname, ?_⟩
  intro root' hroot' other hother heq
  have hsame := hnames root' hroot' other hother
  rw [heq, hnames root hroot name hname] at hsame
  exact (Option.some.inj hsame).symm

/-- A name that looks like escapes itself. -/
theorem defName?_escape_tildes :
    ("#/definitions/" : Text) ∈ roots ∧ ("~01/~1" : Text) ≠ [] ∧
      ("#/definitions/" ++ escape "~01/~1" : Text) = "#/definitions/~001~1~01" ∧
      defName? ("#/definitions/" ++ escape "~01/~1") = some "~01/~1" := by
  have hroot : ("#/definitions/" : Text) ∈ roots := by decide
  have hname : ("~01/~1" : Text) ≠ [] := by decide
  exact ⟨hroot, hname, by decide, (defName?_escape hroot hname).1⟩

end SchemaLoom.Reference

import SchemaLoom.Naming

/-!
# Names in strict code

The generated module is strict code. What it takes for a name, and which words the language keeps
for itself, is set down here apart from the check and the table that identifiers are made with, so
that identifiers and property keys can be held against it.
-/

namespace SchemaLoom

set_option autoImplicit false

theorem isIdentifier_append {cs ds : List Char} (hcs : isIdentifier cs = true)
    (hds : ∀ c ∈ ds, isIdentPart c = true) : isIdentifier (cs ++ ds) = true := by
  cases cs with
  | nil => cases hcs
  | cons c cs =>
    simp only [isIdentifier, Bool.and_eq_true, List.all_eq_true] at hcs
    simp only [List.cons_append, isIdentifier, Bool.and_eq_true, List.all_append,
      List.all_eq_true]
    exact ⟨hcs.1, hcs.2, hds⟩

namespace Binding

/-- The first character of a name. Of the letters there are, those that a module uses. -/
def IsStart (c : Char) : Prop := c.isAlpha = true ∨ c = '$' ∨ c = '_'

/-- A further character of a name. -/
def IsPart (c : Char) : Prop := IsStart c ∨ c.isDigit = true

/-- A name, built up character by character. -/
inductive Name : List Char → Prop
  | start {c : Char} : IsStart c → Name [c]
  | part {cs : List Char} {c : Char} : Name cs → IsPart c → Name (cs ++ [c])

/-- Words of the language, the ones that only modules or strict code reserve among them. -/
def reserved : List String :=
  ["await", "break", "case", "catch", "class", "const", "continue", "debugger", "default",
   "delete", "do", "else", "enum", "export", "extends", "false", "finally", "for", "function",
   "if", "import", "in", "instanceof", "new", "null", "return", "super", "switch", "this",
   "throw", "true", "try", "typeof", "var", "void", "while", "with", "yield"] ++
  ["implements", "interface", "let", "package", "private", "protected", "public", "static"]

theorem isStart_iff {c : Char} : IsStart c ↔ isIdentStart c = true := by
  simp only [IsStart, isIdentStart, Bool.or_eq_true, beq_iff_eq, or_assoc]
  exact or_congr_right or_comm

theorem isPart_iff {c : Char} : IsPart c ↔ isIdentPart c = true := by
  simp only [IsPart, isStart_iff, isIdentStart, isIdentPart, Char.isAlphanum, Bool.or_eq_true,
    beq_iff_eq]
  grind

theorem name_append {cs ds : List Char} (hcs : Name cs) (hds : ∀ d ∈ ds, IsPart d) :
    Name (cs ++ ds) := by
  induction ds generalizing cs with
  | nil => simpa using hcs
  | cons d ds ih =>
    have hnext : Name (cs ++ [d]) := .part hcs (hds d List.mem_cons_self)
    simpa using ih hnext fun e he => hds e (List.mem_cons_of_mem d he)

/-- The check that identifiers are made with takes the names, and nothing else. -/
theorem name_iff {cs : List Char} : Name cs ↔ isIdentifier cs = true := by
  constructor
  · intro h
    induction h with
    | start hc => simp [isIdentifier, isStart_iff.mp hc]
    | part _ hc ih =>
      exact isIdentifier_append ih (List.forall_mem_singleton.mpr (isPart_iff.mp hc))
  · intro h
    cases cs with
    | nil => cases h
    | cons c cs =>
      simp only [isIdentifier, Bool.and_eq_true, List.all_eq_true] at h
      exact name_append (.start (isStart_iff.mpr h.1)) fun d hd => isPart_iff.mpr (h.2 d hd)

theorem reserved_subset : reserved ⊆ reservedWords := by decide

end Binding

/-- A text of characters that make up a name. -/
def Text.IsName (t : Text) : Prop := ∃ cs, t = ofChars cs ∧ Binding.Name cs

end SchemaLoom

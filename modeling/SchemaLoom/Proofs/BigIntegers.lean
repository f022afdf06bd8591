import SchemaLoom.Proofs.Chains
import SchemaLoom.Proofs.Numerals
import SchemaLoom.Proofs.Uses

/-!
# Big integers

The literal of a big integer is marked, and no text that a number is read from is. Whether
numbers of a scalar are marked is decided apart from its base schema: the schema follows
the carriers of encodings to their end, the mark follows one of them. Where the carrier is
not carried itself the two agree, and what is marked always has the schema of big integers.
-/

namespace SchemaLoom

set_option autoImplicit false

open SchemaLoom.Expr

/-! ### Texts of numbers -/

/-- The literal of a big integer: the canonical digits with the mark behind. -/
def Text.IsBigInt (t : Text) : Prop := ∃ z : Int, t = Text.ofInt z ++ "n"

namespace Number

/-- The text of a number among big integers: integers are marked, others are as they came. -/
def BigText (n : Number) (t : Text) : Prop :=
  (∀ z : Int, n.value = z → t = Text.ofInt z ++ "n") ∧ ((∀ z : Int, n.value ≠ z) → t = n.text)

theorem bigText_literal (n : Number) : n.BigText (n.literal true) := by
  by_cases hint : n.isInt = true
  · have hliteral : n.literal true = Text.ofInt n.value.num ++ "n" := by
      simp [literal, intText?, hint]
    have hvalue : (n.value.num : Rat) = n.value :=
      Rat.coe_int_num_of_den_eq_one (by simpa [isInt] using hint)
    constructor
    · intro z hz
      rw [hliteral, hz, Rat.num_intCast]
    · intro hnot
      exact absurd hvalue.symm (hnot _)
  · have hliteral : n.literal true = n.text := by simp [literal, intText?, hint]
    constructor
    · intro z hz
      simp [isInt, hz] at hint
    · exact fun _ => hliteral

/-- A text that a number was read from has no mark. -/
theorem Written.not_isBigInt_text {n : Number} (h : n.Written) : ¬ n.text.IsBigInt := by
  intro hbig
  obtain ⟨z, hz⟩ := hbig
  rw [Written, hz, parse?_marked] at h
  cases h

end Number

theorem Text.eq_ofString_of_toDisplay {t : Text} {s : String} (h : t.toDisplay = s)
    (hs : '\uFFFD' ∉ s.toList) : t = Text.ofString s := by
  subst h
  have hchar : ∀ r ∈ t, Rune.char r.toChar = r := by
    intro r hr
    cases r with
    | char c => rfl
    | stray b =>
      refine absurd ?_ hs
      simp only [Text.toDisplay, String.toList_ofList, Text.toChars, List.mem_map]
      exact ⟨.stray b, hr, rfl⟩
  simp only [Text.toDisplay, Text.ofString, Text.ofChars, Text.toChars, String.toList_ofList,
    List.map_map]
  exact ((List.map_congr_left (g := id) hchar).trans (List.map_id t)).symm

/-! ### Schemas of big integers -/

namespace Graph
variable {g : Graph}

/-- The base schema of a scalar is that of big integers. -/
def CarriesBig (g : Graph) (s : NodeId) : Prop :=
  ({ graph := g } : Builder).base (g.subject s) = .ok (plain ["bigint"])

theorem ownScalarSchema_bigint_iff (n : NodeId) :
    g.ownScalarSchema n = plain ["bigint"] ↔
      ∃ name ∈ bigNames, g.builtInBaseName? n = some name := by
  have hnames : ∀ {s : String}, (g.builtInBaseName? n).map Text.toDisplay = some s →
      '\uFFFD' ∉ s.toList → g.builtInBaseName? n = some (Text.ofString s) := by
    intro s h hs
    obtain ⟨name, hname, h⟩ := Option.map_eq_some_iff.mp h
    rw [hname, Text.eq_ofString_of_toDisplay h hs]
  constructor
  · intro h
    unfold ownScalarSchema at h
    split at h
    case h_11 hname | h_12 hname | h_13 hname =>
      exact ⟨_, by decide, hnames hname (by decide)⟩
    case h_22 | h_23 => split at h <;> simp +decide [plain, coercedDate, fromZ, method] at h
    all_goals simp +decide [plain, anything, coercedDate, fromZ, method] at h
  · intro h
    obtain ⟨name, hmem, hname⟩ := h
    simp only [bigNames, List.mem_cons, List.not_mem_nil, or_false] at hmem
    rw [ownScalarSchema, hname]
    rcases hmem with rfl | rfl | rfl
    · rfl
    · rfl
    · rfl

theorem isBigScalar_iff (n : NodeId) : g.isBigScalar n = true ↔
    g.ownScalarSchema ((g.carrier? n).getD n) = plain ["bigint"] := by
  rw [ownScalarSchema_bigint_iff]
  unfold isBigScalar
  split
  · rename_i name hname
    simp [hname]
  · rename_i hnone
    simp [hnone]

/-- Only dates and durations are carried. -/
theorem builtInBaseName?_of_carrier? {n c : NodeId} (h : g.carrier? n = some c) :
    ∃ name, g.builtInBaseName? n = some name ∧
      name.toDisplay ∈ ["utcDateTime", "offsetDateTime", "duration"] := by
  obtain ⟨name, hname, h⟩ := Option.bind_eq_some_iff.mp h
  refine ⟨name, hname, ?_⟩
  obtain ⟨enc, _, h⟩ := Option.bind_eq_some_iff.mp h
  obtain ⟨t, _, h⟩ := Option.bind_eq_some_iff.mp h
  split at h
  · rename_i heq
    simp [heq]
  · rename_i heq
    simp [heq]
  · rename_i heq
    simp [heq]
  · cases h

theorem carrier?_of_bigint {n : NodeId} (h : g.ownScalarSchema n = plain ["bigint"]) :
    g.carrier? n = none := by
  by_contra hsome
  obtain ⟨c, hc⟩ := Option.ne_none_iff_exists'.mp hsome
  obtain ⟨big, hbig, hname⟩ := (ownScalarSchema_bigint_iff n).mp h
  obtain ⟨name, hname', hdate⟩ := builtInBaseName?_of_carrier? hc
  obtain rfl : big = name := Option.some.inj (hname.symm.trans hname')
  simp only [bigNames, List.mem_cons, List.not_mem_nil, or_false] at hbig
  rcases hbig with rfl | rfl | rfl
  · exact absurd hdate (by decide)
  · exact absurd hdate (by decide)
  · exact absurd hdate (by decide)

theorem base_of_scalar {s : NodeId} (hs : (g.node s).kind = .scalar) :
    ({ graph := g } : Builder).base (g.subject s) = g.scalarSchema (g.nodes.size + 1) s := by
  simp [Builder.base, Builder.depth, Builder.baseSchema, Builder.baseStep, subject, hs]

/-- Where carriers are not carried in turn, the base schema is that of the carrier. -/
theorem scalarSchema_of_direct {s : NodeId}
    (hdirect : ∀ c, g.carrier? s = some c → g.carrier? c = none) :
    g.scalarSchema (g.nodes.size + 1) s = .ok (g.ownScalarSchema ((g.carrier? s).getD s)) := by
  cases hcarrier : g.carrier? s with
  | none => simp [scalarSchema, hcarrier]
  | some c =>
    obtain ⟨k, hk⟩ := Nat.exists_eq_add_of_lt (lt_of_carrier? hcarrier)
    simp [scalarSchema, hcarrier, hk, hdirect c hcarrier]

theorem carriesBig_iff {s : NodeId} (hs : (g.node s).kind = .scalar)
    (hdirect : ∀ c, g.carrier? s = some c → g.carrier? c = none) :
    g.CarriesBig s ↔ g.isBigScalar s = true := by
  rw [CarriesBig, base_of_scalar hs, scalarSchema_of_direct hdirect, isBigScalar_iff,
    Except.ok.injEq]

/-- What is marked has the schema of big integers, however it is carried. -/
theorem carriesBig_of_isBigScalar {s : NodeId} (hs : (g.node s).kind = .scalar)
    (h : g.isBigScalar s = true) : g.CarriesBig s := by
  refine (carriesBig_iff hs ?_).mpr h
  intro c hc
  rw [isBigScalar_iff, hc] at h
  exact carrier?_of_bigint h

end Graph

end SchemaLoom

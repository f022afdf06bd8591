import SchemaLoom.Proofs.Identifiers

/-!
# Names that a module can bind

The generated module is strict code, so a constant may have any name that is an identifier and
no reserved word, but for two: `eval` and `arguments` are identifiers that strict code does not
bind. An identifier made from a name is bindable exactly when the name, written in the style of
the module, is not one of these two. The table of words that no declaration may be named does
not have them.

A number behind an identifier always makes it bindable, so in a module the two names are the
only way to an identifier that cannot be bound.
-/

namespace SchemaLoom

set_option autoImplicit false

/-- Names that strict code may use and not bind. -/
def Binding.restricted : List String := ["eval", "arguments"]

/-- A name that a constant of a module may have. -/
structure Bindable (id : String) : Prop where
  name : Binding.Name id.toList
  notReserved : id ∉ Binding.reserved
  notRestricted : id ∉ Binding.restricted

/-- Of the identifiers that are legal here, strict code refuses to bind the restricted ones. -/
theorem Legal.bindable_iff {id : String} (h : Legal id) :
    Bindable id ↔ id ∉ Binding.restricted :=
  ⟨Bindable.notRestricted, fun hnot =>
    ⟨Binding.name_iff.mpr h.shape, fun hmem => h.free (Binding.reserved_subset hmem), hnot⟩⟩

/-! ### Identifiers from names -/

/-- A name written in a style, before it is made a legal identifier. -/
def NamingStyle.recased (style : NamingStyle) (name : Text) : Option Text :=
  match style with
  | plain => some name
  | pascalSchema => some (Text.camelize name ++ "Schema")
  | camel => Text.camelizeDown? name

theorem NamingStyle.apply_of_recased {style : NamingStyle} {name word : Text}
    (h : style.recased name = some word) : style.apply name = .ok (identifier word) := by
  cases style with
  | plain =>
    cases h
    rfl
  | pascalSchema =>
    cases h
    rfl
  | camel => rw [apply, show Text.camelizeDown? name = some word from h]

theorem NamingStyle.recased_of_apply {style : NamingStyle} {name : Text} {id : String}
    (h : style.apply name = .ok id) :
    ∃ word, style.recased name = some word ∧ id = identifier word := by
  cases hword : style.recased name with
  | some word =>
    rw [NamingStyle.apply_of_recased hword] at h
    exact ⟨word, rfl, (Except.ok.inj h).symm⟩
  | none =>
    cases style with
    | plain => cases hword
    | pascalSchema => cases hword
    | camel =>
      rw [apply, show Text.camelizeDown? name = none from hword] at h
      cases h

/-- Whatever is changed about a name leaves an underscore. -/
theorem eq_of_identifier_eq {t : Text} {id : String} (h : identifier t = id)
    (hid : '_' ∉ id.toList) : t = Text.ofString id := by
  have hunreserve : unreserve (leadIdent (identChars t)) = id.toList := by
    rw [← h, identifier, String.toList_ofList]
  have hlead : leadIdent (identChars t) = id.toList := by
    unfold unreserve at hunreserve
    split at hunreserve
    · exact absurd (hunreserve ▸ by simp) hid
    · exact hunreserve
  have hchars : identChars t = id.toList := by
    unfold leadIdent at hlead
    split at hlead
    · exact absurd (hlead ▸ by simp) hid
    · split at hlead
      · exact absurd (hlead ▸ by simp) hid
      · next heq _ => exact heq.trans hlead
  have hrune : ∀ r ∈ t, r = .char (if isIdentPart r.toChar then r.toChar else '_') := by
    intro r hr
    have hmem : (if isIdentPart r.toChar then r.toChar else '_') ∈ id.toList :=
      hchars ▸ List.mem_map_of_mem hr
    split at hmem
    · next hpart =>
      cases r with
      | char c => rw [if_pos hpart, Rune.toChar]
      | stray b => cases hpart
    · exact absurd hmem hid
  rw [Text.ofString, Text.ofChars, ← hchars, identChars, List.map_map]
  exact (List.map_id t).symm.trans (List.map_congr_left hrune)

theorem identifier_mem_restricted_iff {t : Text} :
    identifier t ∈ Binding.restricted ↔ ∃ w ∈ Binding.restricted, t = Text.ofString w := by
  constructor
  · intro h
    have hplain : ∀ w ∈ Binding.restricted, '_' ∉ w.toList := by decide
    exact ⟨_, h, eq_of_identifier_eq rfl (hplain _ h)⟩
  · rintro ⟨w, hw, rfl⟩
    have hsame : ∀ w ∈ Binding.restricted, identifier (Text.ofString w) = w := by decide +kernel
    rwa [hsame w hw]

theorem bindable_identifier_iff (t : Text) :
    Bindable (identifier t) ↔ ∀ w ∈ Binding.restricted, t ≠ Text.ofString w := by
  rw [(legal_identifier t).bindable_iff, identifier_mem_restricted_iff]
  simp

/-! ### Numbers behind identifiers -/

namespace Namer

theorem numbered_not_restricted (base : String) (j : Nat) :
    base ++ toString j ∉ Binding.restricted := by
  intro hmem
  have hletters : ∀ w ∈ Binding.restricted, w.toList.any Char.isDigit = false := by decide
  obtain ⟨c, hc⟩ := List.exists_mem_of_ne_nil _ (Nat.toDigits_ne_nil (n := j) (b := 10))
  have hdigit := Nat.isDigit_of_mem_toDigits (by decide) (by decide) hc
  have hlist : c ∈ (base ++ toString j).toList := by
    rw [String.toList_append, Nat.toString_eq_repr, Nat.toList_repr]
    exact List.mem_append_right _ hc
  exact absurd hdigit (List.any_eq_false.mp (hletters _ hmem) c hlist)

/-- A new identifier can be bound if it had to be numbered, or if what it is made from can be. -/
theorem bindable_fresh_iff {base : String} (h : Legal base) (used : List String) :
    Bindable (fresh base used) ↔ base ∈ used ∨ Bindable base := by
  by_cases hbase : base ∈ used
  · refine ⟨fun _ => .inl hbase, fun _ => (legal_fresh h used).bindable_iff.mpr ?_⟩
    rw [fresh, if_pos (by simpa using hbase)]
    obtain ⟨j, heq, _⟩ := suffixed_spec base used used.length 2
    exact heq ▸ numbered_not_restricted base j
  · rw [fresh, if_neg (by simpa using hbase)]
    simp [hbase]

/-! ### Runs of declarations -/

/-- The identifiers given out are legal, and a restricted one is among them where a node has a
name that is restricted in the style. -/
structure Named (nameOf : NodeId → Text) (nm : Namer) : Prop where
  legal : ∀ id ∈ nm.used, Legal id
  restricted_iff : ∀ w ∈ Binding.restricted, w ∈ nm.used ↔
    ∃ n ∈ nm.names.map (·.1), nm.style.recased (nameOf n) = some (Text.ofString w)

section Runs
variable {nameOf : NodeId → Text} {nm nm' : Namer}

theorem named_empty (style : NamingStyle) : Named nameOf ⟨style, []⟩ := by
  constructor <;> simp [used]

theorem used_push (n : NodeId) (id : String) :
    ({ nm with names := nm.names ++ [(n, id)] } : Namer).used = nm.used ++ [id] := by
  simp [used]

/-- A restricted identifier that is free is given out for itself only. -/
theorem fresh_eq_restricted_iff {w : String} (hw : w ∈ Binding.restricted) {used : List String}
    (hfree : w ∉ used) (base : String) : fresh base used = w ↔ base = w := by
  constructor
  · rintro rfl
    rcases fresh_eq base used with heq | ⟨j, heq⟩
    · exact heq.symm
    · exact absurd (heq ▸ hw) (numbered_not_restricted base j)
  · rintro rfl
    rw [fresh, if_neg (by simpa using hfree)]

theorem Named.push (h : nm.Named nameOf) {n : NodeId} {base : String}
    (hbase : nm.style.apply (nameOf n) = .ok base) :
    Named nameOf { nm with names := nm.names ++ [(n, fresh base nm.used)] } := by
  obtain ⟨word, hword, rfl⟩ := NamingStyle.recased_of_apply hbase
  constructor
  · intro id hid
    rw [used_push, List.mem_append, List.mem_singleton] at hid
    rcases hid with hid | rfl
    · exact h.legal id hid
    · exact legal_fresh (legal_identifier word) _
  · intro w hw
    have hnew : identifier word = w ↔ nm.style.recased (nameOf n) = some (Text.ofString w) := by
      rw [hword, Option.some.injEq]
      have hplain : ∀ w ∈ Binding.restricted, '_' ∉ w.toList ∧
          identifier (Text.ofString w) = w := by decide +kernel
      exact ⟨fun heq => eq_of_identifier_eq heq (hplain w hw).1, fun heq => heq ▸ (hplain w hw).2⟩
    rw [used_push, List.mem_append, List.mem_singleton, List.map_append]
    simp only [List.mem_append, or_and_right, exists_or, List.map_cons, List.map_nil,
      List.mem_singleton, exists_eq_left]
    rw [← h.restricted_iff w hw, ← hnew]
    by_cases hused : w ∈ nm.used
    · simp [hused]
    · simp only [hused, false_or]
      rw [eq_comm, fresh_eq_restricted_iff hw hused]

theorem declare_cases {n : NodeId} {name : Text} {id : String}
    (h : nm.declare n name = .ok (id, nm')) :
    (nm.names.lookup n = some id ∧ nm' = nm) ∨
    ∃ base, nm.style.apply name = .ok base ∧ id = fresh base nm.used ∧
      nm' = { nm with names := nm.names ++ [(n, fresh base nm.used)] } := by
  unfold declare at h
  split at h
  · next hlookup =>
    cases h
    exact .inl ⟨hlookup, rfl⟩
  · obtain ⟨base, hbase, h⟩ := Result.bind_eq_ok.mp h
    cases h
    exact .inr ⟨base, hbase, rfl, rfl⟩

/-- What a run gives out is what is in use behind it, and the nodes that have an identifier are
those that were declared. -/
theorem declareAll_named {ds : List Definition} {ids : List String} (hnm : nm.Named nameOf)
    (hnames : ∀ d ∈ ds, d.name = nameOf d.node) (h : nm.declareAll ds = .ok (ids, nm')) :
    nm'.Named nameOf ∧ nm'.style = nm.style ∧
      (∀ id, id ∈ nm'.used ↔ id ∈ nm.used ∨ id ∈ ids) ∧
      ∀ n, n ∈ nm'.names.map (·.1) ↔ n ∈ nm.names.map (·.1) ∨ n ∈ ds.map (·.node) := by
  induction ds generalizing nm ids with
  | nil =>
    cases h
    exact ⟨hnm, rfl, by simp, by simp⟩
  | cons d ds ih =>
    rw [declareAll] at h
    obtain ⟨⟨id, nm₁⟩, hdeclare, h⟩ := Result.bind_eq_ok.mp h
    obtain ⟨⟨rest, nm₂⟩, hrest, h⟩ := Result.bind_eq_ok.mp h
    cases h
    have hds := fun d' hd' => hnames d' (List.mem_cons_of_mem d hd')
    rcases declare_cases hdeclare with ⟨hlookup, rfl⟩ | ⟨base, hbase, rfl, rfl⟩
    · obtain ⟨hnamed, hstyle, hused, hnodes⟩ := ih hnm hds hrest
      obtain ⟨before, behind, hsplit, _⟩ := List.lookup_eq_some_iff.mp hlookup
      have hmem : (d.node, id) ∈ nm₁.names := by simp [hsplit]
      have hid : id ∈ nm₁.used := List.mem_map_of_mem (f := (·.2)) hmem
      have hnode : d.node ∈ nm₁.names.map (·.1) := List.mem_map_of_mem (f := (·.1)) hmem
      refine ⟨hnamed, hstyle, fun x => ?_, fun n => ?_⟩
      · rw [hused, List.mem_cons]
        grind
      · rw [hnodes, List.map_cons, List.mem_cons]
        grind
    · rw [hnames d List.mem_cons_self] at hbase
      obtain ⟨hnamed, hstyle, hused, hnodes⟩ := ih (hnm.push hbase) hds hrest
      refine ⟨hnamed, hstyle, fun x => ?_, fun n => ?_⟩
      · rw [hused, used_push, List.mem_append, List.mem_singleton, List.mem_cons, or_assoc]
      · rw [hnodes]
        simp [or_assoc]

end Runs

end Namer

/-- An identifier can be bound unless the name in the style of the module is a restricted one, and
with a number it can be bound in any case. So a run of declarations gives out bindable identifiers
exactly when none of the names is restricted. -/
theorem identifiers_bindable_iff (style : NamingStyle) :
    (∀ name word, style.recased name = some word → ∃ base, style.apply name = .ok base ∧
      (Bindable base ↔ ∀ w ∈ Binding.restricted, word ≠ Text.ofString w) ∧
      ∀ used, Bindable (Namer.fresh base used) ↔ base ∈ used ∨ Bindable base) ∧
    ∀ (nameOf : NodeId → Text) (ds : List Definition) (ids : List String) (nm : Namer),
      (∀ d ∈ ds, d.name = nameOf d.node) → Namer.declareAll ⟨style, []⟩ ds = .ok (ids, nm) →
      ((∀ id ∈ ids, Bindable id) ↔
        ∀ d ∈ ds, ∀ w ∈ Binding.restricted, style.recased d.name ≠ some (Text.ofString w)) := by
  constructor
  · intro name word hword
    exact ⟨identifier word, NamingStyle.apply_of_recased hword, bindable_identifier_iff word,
      Namer.bindable_fresh_iff (legal_identifier word)⟩
  · intro nameOf ds ids nm hnames hrun
    obtain ⟨hnamed, hstyle, hused, hnodes⟩ :=
      Namer.declareAll_named (Namer.named_empty style) hnames hrun
    have hids : ∀ id, id ∈ nm.used ↔ id ∈ ids := by simpa [Namer.used] using hused
    have hwords : ∀ w ∈ Binding.restricted,
        w ∈ ids ↔ ∃ d ∈ ds, style.recased d.name = some (Text.ofString w) := by
      intro w hw
      rw [← hids, hnamed.restricted_iff w hw, hstyle]
      constructor
      · rintro ⟨n, hn, heq⟩
        obtain ⟨d, hd, rfl⟩ : ∃ d ∈ ds, d.node = n := by simpa using (hnodes n).mp hn
        exact ⟨d, hd, hnames d hd ▸ heq⟩
      · rintro ⟨d, hd, heq⟩
        exact ⟨d.node, (hnodes _).mpr (.inr (List.mem_map_of_mem hd)), hnames d hd ▸ heq⟩
    constructor
    · intro hall d hd w hw heq
      exact (hall w ((hwords w hw).mpr ⟨d, hd, heq⟩)).notRestricted hw
    · intro hnone id hid
      refine (hnamed.legal id ((hids id).mpr hid)).bindable_iff.mpr fun hw => ?_
      obtain ⟨d, hd, heq⟩ := (hwords id hw).mp hid
      exact hnone d hd id hw heq

/-- Two definitions named by one reserved word. -/
def reservedTwice : List Definition := [⟨1, "let", .ident "z"⟩, ⟨2, "let", .ref 1⟩]

/-- Behind a reserved word stands an underscore, and the second time a number too. -/
theorem identifiers_bindable_iff_reservedTwice :
    NamingStyle.plain.recased "let" = some (Text.ofString "let") ∧
    (∃ base, NamingStyle.plain.apply "let" = .ok base ∧ Bindable base ∧
      Bindable (Namer.fresh base [base])) ∧
    (∀ d ∈ reservedTwice, d.name = (fun _ => Text.ofString "let") d.node) ∧
    ∃ nm, Namer.declareAll ⟨.plain, []⟩ reservedTwice = .ok (["let_", "let_2"], nm) ∧
      ∀ id ∈ ["let_", "let_2"], Bindable id := by
  obtain ⟨hname, hrun⟩ := identifiers_bindable_iff .plain
  obtain ⟨base, hbase, hiff, hfresh⟩ := hname "let" "let" rfl
  have hnames : ∀ d ∈ reservedTwice, d.name = (fun _ => Text.ofString "let") d.node := by decide
  have hdeclare : Namer.declareAll ⟨.plain, []⟩ reservedTwice =
      .ok (["let_", "let_2"], ⟨.plain, [(1, "let_"), (2, "let_2")]⟩) := by rfl
  exact ⟨rfl, ⟨base, hbase, hiff.mpr (by decide), (hfresh _).mpr (.inl (by simp))⟩, hnames, _,
    hdeclare, (hrun (fun _ => Text.ofString "let") _ _ _ hnames hdeclare).mpr (by decide)⟩

/-- The two names that strict code does not bind come through unchanged. -/
theorem restricted_not_bindable :
    NamingStyle.plain.apply "arguments" = .ok "arguments" ∧ ¬ Bindable "arguments" ∧
    NamingStyle.camel.apply "Eval" = .ok "eval" ∧ ¬ Bindable "eval" := by
  refine ⟨by decide +kernel, fun h => h.notRestricted (by decide), by decide +kernel,
    fun h => h.notRestricted (by decide)⟩

end SchemaLoom

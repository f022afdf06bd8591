import SchemaLoom.Input
import SchemaLoom.Proofs.ConvertedJson
import SchemaLoom.Proofs.DeclaredKeys
import SchemaLoom.Proofs.DeclaringKeywords
import SchemaLoom.Proofs.FlowNodes

/-!
# Detection of formats

A text is taken for a JSON Schema by what is written as a key at its root. A text that can
be read as a schema document, or leads to a declaration as a JSON Schema, is taken for what
it is, except through an alias: what is written there is the name of the anchor, and what
the readers go by is the key it stands for. The root itself is no alias.

For schemas this rests on the readings of one text agreeing on its keys: the one that looks
for keywords reads YAML, and the one that is bound by them reads JSON, which is the text
itself or is written from its YAML.
-/

namespace SchemaLoom

set_option autoImplicit false

/-! ### Roots -/

namespace Yaml

def Node.isAlias : Node → Bool
  | aliasOf .. => true
  | _ => false

namespace Compose
variable {s s' : Composer}

theorem names_peek {t : Token} (h : peek.run s = some (t, s')) : s'.names = s.names := by
  rw [peek] at h
  obtain ⟨_, _, hget, h⟩ := run_bind h
  cases hget
  split at h
  · cases h
    rfl
  · cases h

theorem isAlias_of_fillAnchor {slot : Option Nat} {m n : Node}
    (h : (fillAnchor slot m).run s = some (n, s')) (hm : m.isAlias = false) :
    n.isAlias = false := by
  cases slot with
  | none =>
    cases h
    exact hm
  | some i =>
    cases h
    exact hm

/-- The first node is no alias, because no anchor has been set in front of it. -/
theorem isAlias_of_node {fuel : Nat} {place : Place} {n : Node}
    (h : (node fuel place).run s = some (n, s')) (hnames : s.names = []) :
    n.isAlias = false := by
  cases fuel with
  | zero =>
    rw [node] at h
    cases h
  | succ fuel =>
    rw [node] at h
    obtain ⟨first, s₁, hfirst, h⟩ := run_bind h
    have hnames₁ := (names_peek hfirst).trans hnames
    split at h
    · obtain ⟨_, s₂, hskip, h⟩ := run_bind h
      cases hskip
      obtain ⟨_, s₂, hget, h⟩ := run_bind h
      cases hget
      rw [show ({ s₁ with scanner := s₁.scanner.take } : Composer).names = [] from hnames₁] at h
      cases h
    · obtain ⟨⟨anchor, tag⟩, s₂, _, h⟩ := run_bind h
      obtain ⟨t, s₃, _, h⟩ := run_bind h
      dsimp only at h
      -- any other node is complete where its anchor is filled
      split at h
      · obtain ⟨_, s₄, _, h⟩ := run_bind h
        obtain ⟨slot, s₅, _, h⟩ := run_bind h
        exact isAlias_of_fillAnchor h rfl
      · obtain ⟨_, s₄, _, h⟩ := run_bind h
        obtain ⟨slot, s₅, _, h⟩ := run_bind h
        obtain ⟨items, s₆, _, h⟩ := run_bind h
        exact isAlias_of_fillAnchor h rfl
      · obtain ⟨_, s₄, _, h⟩ := run_bind h
        obtain ⟨slot, s₅, _, h⟩ := run_bind h
        obtain ⟨entries, s₆, _, h⟩ := run_bind h
        exact isAlias_of_fillAnchor h rfl
      · obtain ⟨slot, s₅, _, h⟩ := run_bind h
        split at h
        · obtain ⟨items, s₆, _, h⟩ := run_bind h
          exact isAlias_of_fillAnchor h rfl
        · split at h
          · obtain ⟨_, s₄, _, h⟩ := run_bind h
            obtain ⟨items, s₆, _, h⟩ := run_bind h
            exact isAlias_of_fillAnchor h rfl
          · split at h
            · obtain ⟨_, s₄, _, h⟩ := run_bind h
              obtain ⟨items, s₆, _, h⟩ := run_bind h
              exact isAlias_of_fillAnchor h rfl
            · split at h
              · exact isAlias_of_fillAnchor h rfl
              · cases h

theorem names_directives {fuel : Nat} {versioned : Bool} {handles own : List (String × String)}
    (h : (directives fuel versioned handles).run s = some (own, s')) : s'.names = s.names := by
  induction fuel generalizing versioned handles s with
  | zero =>
    rw [directives] at h
    cases h
  | succ fuel ih =>
    rw [directives] at h
    obtain ⟨t, s₁, ht, h⟩ := run_bind h
    have hnames := names_peek ht
    split at h
    · split at h
      · obtain ⟨_, _, hfail, _⟩ := run_bind h
        cases hfail
      · obtain ⟨_, s₂, hpure, h⟩ := run_bind h
        cases hpure
        exact (ih h).trans hnames
    · split at h
      · obtain ⟨_, _, hfail, _⟩ := run_bind h
        cases hfail
      · obtain ⟨_, s₂, hpure, h⟩ := run_bind h
        cases hpure
        exact (ih h).trans hnames
    · cases h
      exact hnames

/-- The root behind directives and a mark. -/
def markedRoot (fuel : Nat) : Compose (Option Node) := do
  let own ← directives fuel false []
  if (← peek).lexeme != .documentStart then failure
  skip
  modify fun s => { s with handles := own ++ defaultHandles }
  let t ← peek
  let root ← match t.lexeme with
    | .version .. | .tagHandle .. | .documentStart | .documentEnd | .streamEnd =>
      pure (emptyAt t.line)
    | _ => node fuel { block := true }
  let _ ← peek
  pure (some root)

theorem isAlias_of_markedRoot {fuel : Nat} {root : Option Node}
    (h : (markedRoot fuel).run s = some (root, s')) (hnames : s.names = []) :
    ∀ n ∈ root, n.isAlias = false := by
  rw [markedRoot] at h
  obtain ⟨own, s₁, hown, h⟩ := run_bind h
  obtain ⟨mark, s₂, hmark, h⟩ := run_bind h
  have hnames₂ := (names_peek hmark).trans ((names_directives hown).trans hnames)
  split at h
  · obtain ⟨_, _, hfail, _⟩ := run_bind h
    cases hfail
  · obtain ⟨_, s₃, hskip, h⟩ := run_bind h
    cases hskip
    obtain ⟨_, s₄, hmodify, h⟩ := run_bind h
    cases hmodify
    obtain ⟨t, s₅, ht, h⟩ := run_bind h
    have hnames₅ := (names_peek ht).trans hnames₂
    split at h
    case h_6 =>
      obtain ⟨n, s₆, hn, h⟩ := run_bind h
      obtain ⟨_, s₇, _, h⟩ := run_bind h
      cases h
      rintro _ ⟨⟩
      exact isAlias_of_node hn hnames₅
    all_goals
      obtain ⟨_, s₆, hempty, h⟩ := run_bind h
      cases hempty
      obtain ⟨_, s₇, _, h⟩ := run_bind h
      cases h
      rintro _ ⟨⟩
      rfl

theorem isAlias_of_document {fuel : Nat} {root : Option Node}
    (h : (document fuel).run s = some (root, s')) (hnames : s.names = []) :
    ∀ n ∈ root, n.isAlias = false := by
  rw [document] at h
  obtain ⟨t, s₁, ht, h⟩ := run_bind h
  have hnames₁ := (names_peek ht).trans hnames
  split at h
  · cases h
    intro n hn
    cases hn
  · exact isAlias_of_markedRoot h hnames₁
  · exact isAlias_of_markedRoot h hnames₁
  · exact isAlias_of_markedRoot h hnames₁
  · obtain ⟨_, s₂, hmodify, h⟩ := run_bind h
    cases hmodify
    obtain ⟨n, s₃, hn, h⟩ := run_bind h
    obtain ⟨_, s₄, _, h⟩ := run_bind h
    cases h
    rintro _ ⟨⟩
    exact isAlias_of_node hn hnames₁

end Compose

theorem isAlias_of_parse? {t : Text} {y : Document} (h : parse? t = some (some y)) :
    y.root.isAlias = false := by
  obtain ⟨cs, _, h⟩ := Option.bind_eq_some_iff.mp h
  obtain ⟨scanner, _, h⟩ := Option.bind_eq_some_iff.mp h
  obtain ⟨⟨root, s⟩, hroot, h⟩ := Option.bind_eq_some_iff.mp h
  obtain ⟨n, hn, rfl⟩ := Option.map_eq_some_iff.mp (Option.some.inj h)
  exact Compose.isAlias_of_document hroot rfl n hn

end Yaml

/-! ### Keys at the root -/

theorem Yaml.parse_eq_ok {t : Text} {d : Option Yaml.Document} :
    Yaml.parse t = .ok d ↔ Yaml.parse? t = some d := by
  unfold Yaml.parse
  cases Yaml.parse? t <;> simp

/-- A key at the root of a text. -/
structure RootKey where
  /-- What is written there: for an alias, the name of the anchor. -/
  text : String
  isAlias : Bool
  isMerge : Bool
  /-- What it stands for. -/
  denotes : Option String
  deriving DecidableEq

/-- The node of a key as a key at the root. -/
def RootKey.ofNode (anchors : Yaml.Anchors) (n : Yaml.Node) : RootKey where
  text := n.text
  isAlias := n.isAlias
  isMerge := Yaml.Decode.isMergeKey n
  denotes := n.key? anchors

namespace InputFormat

/-- The keys at the root of the document in a text. -/
def rootKeys (t : Text) : List RootKey :=
  match Yaml.parse? t with
  | some (some y) => y.root.entries.map fun e => .ofNode y.anchors e.1
  | _ => []

/-- A text is usable in a format: it can be read as a schema document, or it can be read as a
JSON Schema, with its keywords at the root spelled out, and leads to a declaration. To be read
as a schema, a text in JSON has to be YAML as well, because that is where the order of its keys
is from. -/
def Usable : InputFormat → Text → Prop
  | graph, t => ∃ d, Document.parse t = .ok d
  | jsonSchema, t => ∃ nameOf format s r name d, Schema.SpelledOut nameOf format t ∧
      Schema.parseBy nameOf format t = .ok s ∧ s.ResolvesTo r ∧ r.toDocument name = .ok d ∧
      d.names ≠ []

/-- The keys at the root look like those of the other format, because of an alias: its anchor has
the name of a keyword, or it stands for a keyword and no other one is written there. -/
def Disguised : InputFormat → Text → Prop
  | graph, t => ∃ k ∈ rootKeys t, k.isAlias = true ∧ k.text ∈ schemaKeys
  | jsonSchema, t =>
    (∃ k ∈ rootKeys t, k.isAlias = true ∧ ∃ key ∈ Keywords.declaring,
      k.denotes = some key) ∧ ∀ k ∈ rootKeys t, k.text ∉ schemaKeys

section
variable {t : Text} {y : Yaml.Document} {k : RootKey}

theorem rootKeys_eq (hy : Yaml.parse? t = some (some y)) :
    rootKeys t = y.root.entries.map fun e => .ofNode y.anchors e.1 := by
  rw [rootKeys, hy]

theorem mem_rootKeys : k ∈ rootKeys t ↔ ∃ y, Yaml.parse? t = some (some y) ∧
    ∃ e ∈ y.root.entries, k = .ofNode y.anchors e.1 := by
  constructor
  · intro hk
    unfold rootKeys at hk
    split at hk
    · next y hy =>
      obtain ⟨e, he, rfl⟩ := List.mem_map.mp hk
      exact ⟨y, hy, e, he, rfl⟩
    · cases hk
  · rintro ⟨y, hy, e, he, rfl⟩
    rw [rootKeys_eq hy]
    exact List.mem_map_of_mem he

theorem detect_eq_jsonSchema_iff :
    detect t = jsonSchema ↔ ∃ k ∈ rootKeys t, k.text ∈ schemaKeys := by
  unfold detect rootKeys
  obtain _ | _ | y := Yaml.parse? t
  · simp
  · simp
  · simp [RootKey.ofNode]

theorem detect_eq_graph_iff :
    detect t = graph ↔ ∀ k ∈ rootKeys t, k.text ∉ schemaKeys := by
  have hne : detect t = graph ↔ ¬ detect t = jsonSchema := by
    cases detect t <;> simp
  rw [hne, detect_eq_jsonSchema_iff]
  simp only [not_exists, not_and]

theorem behind?_root (hy : Yaml.parse? t = some (some y)) :
    y.root.behind? y.anchors = some y.root := by
  have hroot := Yaml.isAlias_of_parse? hy
  cases hnode : y.root with
  | scalar | sequence | mapping => rfl
  | aliasOf =>
    rw [hnode] at hroot
    cases hroot

/-! ### Schema documents -/

/-- No scalar is read as a key of a document that is written like a keyword of JSON Schema: with
the tag of null it does not fit, and base 64 spells something else. -/
theorem not_declared_of_mem_schemaKeys {line : Nat} {tag text : String} (htext : text ∈ schemaKeys)
    {scope : Yaml.Scope} {a : Option Text}
    (hread : Yaml.Decode.Clean (Yaml.Decode.text scope (.scalar line tag text)) a) :
    ∃ x, a = some x ∧ x.toDisplay ∉ Role.document.keys := by
  obtain ⟨hsome, hnull, ha⟩ := hread.of_gives .text_scalar
  have hnone : ∀ text ∈ schemaKeys, (Yaml.resolve? "!!null" text).isSome = false := by decide
  have hplain : ∀ text ∈ schemaKeys, text ∉ Role.document.keys := by decide
  have hbinary : ∀ text ∈ schemaKeys, ∀ x ∈ Yaml.characters? "!!binary" text,
    x.toDisplay ∉ Role.document.keys := by decide
  cases a with
  | none =>
    rw [hnull rfl, hnone text htext] at hsome
    cases hsome
  | some x =>
    refine ⟨x, rfl, ?_⟩
    split at ha
    · cases ha
    · unfold Yaml.characters? at ha
      split at ha
      · next htag =>
        exact hbinary text htext x ha.symm
      · cases ha
        rw [Text.toDisplay_ofString]
        exact hplain text htext

/-- What is written as a key at the root of a document that can be read is no keyword of JSON
Schema, except for the name of an anchor. -/
theorem text_not_mem_schemaKeys {d : Document} (hy : Yaml.parse? t = some (some y))
    (hd : Document.parse t = .ok d) {e : Yaml.Node × Yaml.Node} (he : e ∈ y.root.entries)
    (hmerge : Yaml.Decode.isMergeKey e.1 = false) (halias : e.1.isAlias = false) :
    e.1.text ∉ schemaKeys := by
  intro htext
  obtain ⟨expanding, a, hclean⟩ :=
    Document.clean_of_parse (by rw [Yaml.parse, hy]) hd (behind?_root hy)
  obtain ⟨fs, hreader, hfs⟩ := fieldsOf_document y.depth
  rw [hreader] at hclean
  obtain ⟨⟨key, hkey⟩, htakes⟩ := hclean.record hfs.orderly e he hmerge
  obtain ⟨m, expanding', hm, hread⟩ := hkey.through fun _ _ => .text
  cases hnode : e.1 with
  | scalar line tag text =>
    rw [hnode] at hm htext
    cases hm
    obtain ⟨x, rfl, hx⟩ := not_declared_of_mem_schemaKeys htext hread
    have hnone := hfs.lookup_eq_none_iff.mpr hx
    have htakes := htakes _ hkey.key?
    rw [hnone] at htakes
    cases htakes
  | sequence | mapping =>
    rw [hnode] at htext
    exact absurd (show "" ∈ schemaKeys from htext) (by decide)
  | aliasOf =>
    rw [hnode] at halias
    cases halias

/-! ### JSON Schemas -/

theorem gapless_declaring : ∀ key ∈ Keywords.declaring, Yaml.Compose.Gapless key := by
  have hall : (Keywords.declaring.all fun key => key.toList.all fun c => !Yaml.isGap c) = true := by
    decide +kernel
  intro key hkey c hc
  simpa using List.all_eq_true.mp (List.all_eq_true.mp hall key hkey) c hc

theorem exists_of_rootNames_json {names : List String}
    (hnames : Schema.rootNames? .json t = some names) (hparse : ∃ d, Yaml.parse? t = some d)
    {key : String} (hkey : key ∈ names) (hgapless : Yaml.Compose.Gapless key) :
    ∃ k ∈ rootKeys t, k.text = key := by
  obtain ⟨d, hd⟩ := hparse
  obtain ⟨cs, hcs, hnames⟩ := Option.bind_eq_some_iff.mp hnames
  cases hcs
  obtain ⟨v, hv, hnames⟩ := Option.bind_eq_some_iff.mp hnames
  cases v with
  | object ms =>
    cases hnames
    obtain ⟨m, hm, rfl⟩ := List.mem_map.mp hkey
    obtain ⟨y, rfl, hentries⟩ := Yaml.hasEntries_of_parse hv hd
    obtain ⟨e, he, htext⟩ := hentries m hm hgapless
    exact ⟨_, mem_rootKeys.mpr ⟨y, hd, e, he, rfl⟩, htext⟩
  | null | bool | number | string | array => cases hnames

theorem json_of_rootNames_yaml {names : List String}
    (hnames : Schema.rootNames? .yaml t = some names) :
    ∃ y j names', Yaml.parse? t = some (some y) ∧ y.json = .ok (some j) ∧
      j.names? = some names' ∧ names.Perm names' := by
  obtain ⟨cs, hcs, hroot⟩ := Option.bind_eq_some_iff.mp hnames
  obtain ⟨v, hv, hvalue⟩ := Option.bind_eq_some_iff.mp hroot
  have hwritten : Schema.jsonOfYaml t = .ok cs := Result.ok_of_toOption hcs
  unfold Schema.jsonOfYaml at hwritten
  obtain ⟨d, hd, hwritten⟩ := Result.bind_eq_ok.mp hwritten
  cases d with
  | none =>
    cases hwritten
    obtain ⟨names', hnull, _⟩ := Json.names?_of_parse_write .null hv hvalue
    cases hnull
  | some y =>
    obtain ⟨c, hc, hwritten⟩ := Result.bind_eq_ok.mp hwritten
    cases c with
    | none => simp at hwritten
    | some j =>
      cases hwritten
      obtain ⟨names', hj, hperm⟩ :=
        Json.names?_of_parse_write (Yaml.Document.wordy_of_json hc) hv hvalue
      exact ⟨y, j, names', Yaml.parse_eq_ok.mp hd, hc, hj, hperm⟩

theorem jsonText_of_json {j : Json} (hy : Yaml.parse? t = some (some y))
    (hj : y.json = .ok (some j)) : Schema.jsonText .yaml t = .ok j.write := by
  rw [Schema.jsonText, Schema.jsonOfYaml, Yaml.parse_eq_ok.mpr hy]
  show (y.json >>= _) = _
  rw [hj]
  rfl

/-- A name of the object that is read from YAML is written as a key at the root, or an alias
stands for it there. -/
theorem exists_of_rootNames_yaml {names : List String}
    (hnames : Schema.rootNames? .yaml t = some names)
    (hmerge : ∀ k ∈ rootKeys t, k.isMerge = false) {key : String}
    (hkey : key ∈ names) :
    ∃ k ∈ rootKeys t, k.text = key ∨ k.isAlias = true ∧ k.denotes = some key := by
  obtain ⟨y, j, names', hy, hj, hnames', hperm⟩ := json_of_rootNames_yaml hnames
  have hmerge : ∀ e ∈ y.root.entries, Yaml.Decode.isMergeKey e.1 = false :=
    fun e he => hmerge _ (mem_rootKeys.mpr ⟨y, hy, e, he, rfl⟩)
  obtain ⟨hstrings, hdenoted⟩ := Yaml.Document.names_of_json hj (behind?_root hy) hmerge hnames'
  obtain ⟨e, he, hdenotes⟩ := hdenoted key (hperm.mem_iff.mp hkey)
  refine ⟨_, mem_rootKeys.mpr ⟨y, hy, e, he, rfl⟩, ?_⟩
  cases hnode : e.1 with
  | scalar line tag text =>
    have htag := List.all_eq_true.mp hstrings e he
    rw [hnode] at htag hdenotes
    have hout : (Yaml.Node.scalar line tag text).isWrittenOut = true := by
      rcases (Bool.or_eq_true ..).mp htag with htag | htag
      · rw [Yaml.Node.isWrittenOut, show tag = "!!str" from beq_iff_eq.mp htag]
        rfl
      · rw [Yaml.Node.isWrittenOut, show tag = "!!merge" from beq_iff_eq.mp htag]
        rfl
    rw [Yaml.Node.key?_of_isWrittenOut hout] at hdenotes
    exact .inl (Option.some.inj hdenotes)
  | sequence | mapping =>
    rw [hnode] at hdenotes
    cases hdenotes
  | aliasOf => exact .inr ⟨rfl, hnode ▸ hdenotes⟩

/-- A text that is usable as a JSON Schema has one of the five keywords at its root. -/
theorem exists_declaring (h : jsonSchema.Usable t)
    (hmerge : ∀ k ∈ rootKeys t, k.isMerge = false) :
    ∃ key ∈ Keywords.declaring, ∃ k ∈ rootKeys t,
      k.text = key ∨ k.isAlias = true ∧ k.denotes = some key := by
  obtain ⟨nameOf, format, s, r, name, d, hspelled, hs, hr, hd, hne⟩ := h
  obtain ⟨names, hnames, key, hkey, hdecl⟩ := Schema.declaring_of_parseBy hspelled hs hr hd hne
  refine ⟨key, hdecl, ?_⟩
  cases format with
  | json =>
    obtain ⟨_, _, hs⟩ := Result.bind_eq_ok.mp hs
    obtain ⟨y, hy, _⟩ := Result.bind_eq_ok.mp hs
    obtain ⟨k, hk, htext⟩ := exists_of_rootNames_json hnames ⟨y, Yaml.parse_eq_ok.mp hy⟩ hkey
      (gapless_declaring key hdecl)
    exact ⟨k, hk, .inl htext⟩
  | yaml => exact exists_of_rootNames_yaml hnames hmerge hkey

/-- A usable text is taken for what it is, unless an alias at its root disguises it. -/
theorem detect_eq_iff (hmerge : ∀ k ∈ rootKeys t, k.isMerge = false)
    {f : InputFormat} (h : f.Usable t) : detect t = f ↔ ¬ f.Disguised t := by
  cases f with
  | graph =>
    obtain ⟨d, hd⟩ := h
    rw [detect_eq_graph_iff]
    constructor
    · rintro hkeys ⟨k, hk, _, htext⟩
      exact hkeys k hk htext
    · intro hdisguised k hk htext
      obtain ⟨y, hy, e, he, rfl⟩ := mem_rootKeys.mp hk
      have halias : e.1.isAlias = false :=
        Bool.eq_false_iff.mpr fun halias => hdisguised ⟨_, hk, halias, htext⟩
      exact text_not_mem_schemaKeys hy hd he (hmerge _ hk) halias htext
  | jsonSchema =>
    rw [detect_eq_jsonSchema_iff]
    constructor
    · rintro ⟨k, hk, htext⟩ hdisguised
      exact hdisguised.2 k hk htext
    · intro hdisguised
      by_contra hno
      have hunwritten : ∀ k ∈ rootKeys t, k.text ∉ schemaKeys :=
        fun k hk htext => hno ⟨k, hk, htext⟩
      have hdeclaring : ∀ key ∈ Keywords.declaring, key ∈ schemaKeys := by decide
      obtain ⟨key, hkey, k, hk, htext | ⟨halias, hdenotes⟩⟩ := exists_declaring h hmerge
      · exact hunwritten k hk (htext ▸ hdeclaring key hkey)
      · exact hdisguised ⟨⟨k, hk, halias, key, hkey, hdenotes⟩, hunwritten⟩

/-- Without a merge key at its root, a text is taken for each format it is usable in exactly if no
alias disguises it there. -/
theorem detect_usable_iff (hmerge : ∀ k ∈ rootKeys t, k.isMerge = false) :
    (∀ f : InputFormat, f.Usable t → detect t = f) ↔
      ∀ f : InputFormat, f.Usable t → ¬ f.Disguised t :=
  forall_congr' fun _ => forall_congr' fun h => detect_eq_iff hmerge h

/-- A text is usable as a JSON Schema if the reader that folds the case of letters gets to a
declaration, and each name at the root is spelled like the keyword it is taken for. -/
theorem usable_of_jsonText {format : Schema.Format} (name : Text) {cs : List Char}
    (hjson : Schema.jsonText format t = .ok cs)
    (hnames : ((Schema.ofJsonText cs).toOption.bind fun s => do
      let y ← (Yaml.parse t).toOption
      let d ← ((s.withOrder y).toDocument name).toOption
      pure d.names.isEmpty) = some false)
    (hspelled : (((Json.parse? cs).bind Json.names?).all fun names =>
      names.all fun key => (Keywords.nameOf? key).all (key == ·)) = true) :
    jsonSchema.Usable t := by
  obtain ⟨s, hs, h⟩ := Option.bind_eq_some_iff.mp hnames
  obtain ⟨y, hy, h⟩ := Option.bind_eq_some_iff.mp h
  obtain ⟨d, hd, h⟩ := Option.bind_eq_some_iff.mp h
  have hroot : Schema.rootNames? format t = (Json.parse? cs).bind Json.names? := by
    rw [Schema.rootNames?, hjson]
    rfl
  refine ⟨Keywords.nameOf?, format, s.withOrder y, s.withOrder y, name, d, ?_, ?_, .inl rfl,
    Result.ok_of_toOption hd, ?_⟩
  · intro names hnames key hkey kw hkw
    rw [← hroot, hnames] at hspelled
    have hall := List.all_eq_true.mp hspelled key hkey
    rw [hkw] at hall
    exact beq_iff_eq.mp hall
  · rw [Schema.parseBy, Schema.decodeBy, hjson, Result.ok_of_toOption hy]
    show (Schema.ofJsonTextBy Keywords.nameOf? cs >>= _) = _
    rw [Schema.ofJsonTextBy_nameOf?, Result.ok_of_toOption hs]
    rfl
  · intro hnil
    rw [hnil] at h
    cases h

end

/-- A document with an alias for the key `models`. -/
def aliasedModels (anchor : String) : Text := Text.ofString
  ("scalars: [\x7bname: &" ++ anchor ++ " models, extends: string\x7d]\n*" ++ anchor ++
    " : [\x7bname: Pet\x7d]\n")

set_option maxRecDepth 100000 in
theorem aliasedModels_runs {anchor : String} (h : anchor = "kind" ∨ anchor = "type") :
    (Document.parse (aliasedModels anchor)).toOption.isSome = true ∧
    rootKeys (aliasedModels anchor) =
      [⟨"scalars", false, false, some "scalars"⟩, ⟨anchor, true, false, some "models"⟩] := by
  rcases h with rfl | rfl
  · decide +kernel
  · decide +kernel

theorem aliasedModels_usable {anchor : String} (h : anchor = "kind" ∨ anchor = "type") :
    graph.Usable (aliasedModels anchor) := by
  obtain ⟨d, hd⟩ := Option.isSome_iff_exists.mp (aliasedModels_runs h).1
  exact ⟨d, Result.ok_of_toOption hd⟩

/-- The anchor is not named like a keyword. -/
theorem detect_usable_iff_aliasedModels :
    (∀ k ∈ rootKeys (aliasedModels "kind"), k.isMerge = false) ∧
    graph.Usable (aliasedModels "kind") ∧
    ∀ f : InputFormat, f.Usable (aliasedModels "kind") → detect (aliasedModels "kind") = f := by
  have hkeys := (aliasedModels_runs (.inl rfl)).2
  have hmerge : ∀ k ∈ rootKeys (aliasedModels "kind"), k.isMerge = false := by
    rw [hkeys]
    decide
  refine ⟨hmerge, aliasedModels_usable (.inl rfl), (detect_usable_iff hmerge).mpr fun f _ => ?_⟩
  cases f with
  | graph =>
    rw [Disguised, hkeys]
    decide
  | jsonSchema =>
    rw [Disguised, hkeys]
    decide

/-- A schema with an alias for the keyword `type`. -/
def aliasedType : Text := "title: &kind type\n*kind : object\n"

set_option maxRecDepth 100000 in
theorem aliasedType_runs : rootKeys aliasedType =
    [⟨"title", false, false, some "title"⟩, ⟨"kind", true, false, some "type"⟩] := by
  decide +kernel

set_option maxRecDepth 100000 in
theorem json_aliasedType : ((Yaml.parse? aliasedType).join.bind fun y => do
    match ← y.json.toOption.join with
    | .object [⟨"title", "", .string "type"⟩, ⟨"type", "", .string "object"⟩] => pure ()
    | _ => none) = some () := by
  decide +kernel

theorem jsonText_aliasedType : Schema.jsonText .yaml aliasedType =
    .ok "\x7b\"title\":\"type\",\"type\":\"object\"\x7d".toList := by
  obtain ⟨y, hy, h⟩ := Option.bind_eq_some_iff.mp json_aliasedType
  obtain ⟨j, hj, h⟩ := Option.bind_eq_some_iff.mp h
  rw [jsonText_of_json (Option.join_eq_some_iff.mp hy)
    (Result.ok_of_toOption (Option.join_eq_some_iff.mp hj))]
  split at h
  · exact congrArg Except.ok (by cbv)
  · cases h

set_option maxRecDepth 100000 in
theorem aliasedType_usable : jsonSchema.Usable aliasedType := by
  refine usable_of_jsonText "Record" jsonText_aliasedType ?_ ?_
  · decide +kernel
  · decide +kernel

/-- A schema document is taken for a JSON Schema, and a JSON Schema for a schema document. -/
theorem aliased_misdetected :
    (graph.Usable (aliasedModels "type") ∧
      (∀ k ∈ rootKeys (aliasedModels "type"), k.isMerge = false) ∧
      detect (aliasedModels "type") = jsonSchema) ∧
    (jsonSchema.Usable aliasedType ∧ (∀ k ∈ rootKeys aliasedType, k.isMerge = false) ∧
      detect aliasedType = graph) := by
  have hkeys := (aliasedModels_runs (.inr rfl)).2
  refine ⟨⟨aliasedModels_usable (.inr rfl), ?_, ?_⟩, aliasedType_usable, ?_, ?_⟩
  · rw [hkeys]
    decide
  · rw [detect_eq_jsonSchema_iff, hkeys]
    decide
  · rw [aliasedType_runs]
    decide
  · rw [detect_eq_graph_iff, aliasedType_runs]
    decide

end InputFormat

end SchemaLoom

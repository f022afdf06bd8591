import SchemaLoom.Proofs.FileReferences
import SchemaLoom.Proofs.HoistedNames
import SchemaLoom.Proofs.Recording
import SchemaLoom.Proofs.WrittenJson

/-!
# Keywords that declare

A schema leads to declarations only if its root has definitions, describes an object or
refers to a file. This module follows those back to the names in the text: the reader has
to have met one of five keywords. It does so for readers that differ in which names they
take for a keyword, as long as the keywords of the root are spelled out: the reader that
folds the case of letters is not bound to any spelling.
-/

namespace SchemaLoom

set_option autoImplicit false

namespace Keywords

/-- The keywords a declaration can come from. -/
def declaring : List String := ["$ref", "$defs", "definitions", "type", "properties"]

end Keywords

def Location.isDeclaring : Location → Bool
  | property _ | def_ _ | definition _ => true
  | _ => false

namespace Schema

/-! ### Readers -/

/-- The JSON text a schema is read from. -/
def jsonText (format : Format) (t : Text) : Result (List Char) :=
  match format with
  | .json => .ok t.toChars
  | .yaml => jsonOfYaml t

section Readers
variable (nameOf : String → Option String)

/-- The last value given for a keyword, where `nameOf` tells the keyword of a key. -/
def lastOfBy (name : String) (ms : List Member) : Option Json :=
  (ms.filter fun m => nameOf m.key == some name).getLast?.map (·.value)

/-- Reads the keywords of an object, where `nameOf` tells the keyword of a key. -/
def readMembersBy (read : ReadInto) (s : Schema) (ms : List Member) : Option Schema := do
  let s ← ms.foldlM (fun s m =>
    match nameOf m.key with
    | some name => readKeyword read s name m.source m.value
    | none => some s) s
  let s ← match lastOfBy nameOf "type" ms with
    | some j => readType s j
    | none => some s
  let s ← match lastOfBy nameOf "const" ms with
    | some j => readConst s j
    | none => some s
  some (if ms.all fun m => Keywords.names.contains m.key then s
    else s.mapKeywords ({ · with others := true }))

/-- Reads a value into a schema, where `nameOf` tells the keyword of a key. -/
def readIntoBy : Nat → ReadInto
  | 0, _, _ => none
  | fuel + 1, s, j =>
    match j with
    | .bool true => some blank
    | .bool false => some never
    | .null => some never
    | .object ms => readMembersBy nameOf (readIntoBy fuel) s ms
    | _ => none

/-- The schema of a JSON value, where `nameOf` tells the keyword of a key. -/
def ofJsonBy? (j : Json) : Option Schema := do
  let _ ← j.data?
  readIntoBy nameOf (j.depth + 1) blank j

/-- The schema of a JSON text, where `nameOf` tells the keyword of a key. -/
def ofJsonTextBy (cs : List Char) : Result Schema :=
  match (Json.parse? cs).bind (ofJsonBy? nameOf) with
  | some s => .ok s
  | none => Result.fail .malformed

/-- Reads a schema in a format, where `nameOf` tells the keyword of a key. -/
def decodeBy (format : Format) (t : Text) : Result Schema := do
  let cs ← jsonText format t
  ofJsonTextBy nameOf cs

/-- Reads a schema with the order of its keys, where `nameOf` tells the keyword of a key. -/
def parseBy (format : Format) (t : Text) : Result Schema := do
  let s ← decodeBy nameOf format t
  let d ← Yaml.parse t
  .ok (s.withOrder d)

end Readers

/-- The names in the object of a JSON text. -/
def rootNames? (format : Format) (t : Text) : Option (List String) :=
  (jsonText format t).toOption.bind fun cs => (Json.parse? cs).bind Json.names?

/-- Among the names at the root, those that are taken for a keyword are spelled like it. A reader
that goes by the exact names has this for every text. -/
def SpelledOut (nameOf : String → Option String) (format : Format) (t : Text) : Prop :=
  ∀ names ∈ rootNames? format t, ∀ key ∈ names, ∀ name, nameOf key = some name → key = name

theorem readIntoBy_nameOf? (fuel : Nat) : readIntoBy Keywords.nameOf? fuel = readInto fuel := by
  induction fuel with
  | zero => rfl
  | succ fuel ih =>
    funext s j
    unfold readIntoBy readInto
    rw [ih]
    rfl

theorem ofJsonTextBy_nameOf? (cs : List Char) :
    ofJsonTextBy Keywords.nameOf? cs = ofJsonText cs := by
  have hjson : ofJsonBy? Keywords.nameOf? = ofJson? := by
    funext j
    rw [ofJsonBy?, readIntoBy_nameOf?, ofJson?]
  cases hread : (Json.parse? cs).bind ofJson? with
  | none => simp only [ofJsonTextBy, ofJsonText, hjson, hread]
  | some s => simp only [ofJsonTextBy, ofJsonText, hjson, hread]

/-- The reader of schemas folds the case of letters. -/
theorem parseBy_nameOf? (format : Format) (t : Text) :
    parseBy Keywords.nameOf? format t = parse format t := by
  have hdecode : decodeBy Keywords.nameOf? format t = decode format t := by
    cases format with
    | json => exact ofJsonTextBy_nameOf? _
    | yaml => simp only [decodeBy, jsonText, decode, ofJsonTextBy_nameOf?]
  rw [parseBy, parse, hdecode]

/-! ### Schemas that declare nothing -/

/-- Nothing is given for any of the keywords a declaration can come from. A list of types may
be given. -/
structure Undeclaring (s : Schema) : Prop where
  ref : s.keywords.ref = ""
  type : s.keywords.type = ""
  children : ∀ c ∈ s.children, c.1.isDeclaring = false

namespace Undeclaring
variable {s : Schema}

theorem null : Schema.null.Undeclaring := ⟨rfl, rfl, List.forall_mem_nil _⟩

theorem blank : Schema.blank.Undeclaring := ⟨rfl, rfl, List.forall_mem_nil _⟩

theorem never : Schema.never.Undeclaring := ⟨rfl, rfl, List.forall_mem_singleton.mpr rfl⟩

theorem mapKeywords (h : s.Undeclaring) {f : Keywords → Keywords}
    (href : (f s.keywords).ref = s.keywords.ref) (htype : (f s.keywords).type = s.keywords.type) :
    (s.mapKeywords f).Undeclaring :=
  ⟨href.trans h.ref, htype.trans h.type, h.children⟩

theorem setChild (h : s.Undeclaring) {l : Location} (hl : l.isDeclaring = false) (c : Schema) :
    (s.setChild l c).Undeclaring := by
  refine ⟨h.ref, h.type, fun d hd => ?_⟩
  rcases mem_insertAt hd with rfl | hd
  · exact hl
  · exact h.children d hd

theorem dropChildren (h : s.Undeclaring) (p : Location → Bool) : (s.dropChildren p).Undeclaring :=
  ⟨h.ref, h.type, fun c hc => h.children c (List.mem_filter.mp hc).1⟩

/-! #### Reading -/

variable {read : ReadInto} {j : Json} {t : Schema}

theorem readOther (h : s.Undeclaring) {given : Option Bool} (ht : s.readOther given = some t) :
    t.Undeclaring := by
  refine of_map (fun g => ?_) ht
  split
  · exact h.mapKeywords rfl rfl
  · exact h

theorem setChild_readChild (h : s.Undeclaring) {old : Schema} {l : Location}
    (hl : l.isDeclaring = false) (ht : (readChild read old j).map (s.setChild l) = some t) :
    t.Undeclaring :=
  of_map (fun c => h.setChild hl c) ht

theorem readOne (h : s.Undeclaring) {l : Location} (hl : l.isDeclaring = false)
    (ht : readOne read s l j = some t) : t.Undeclaring := by
  unfold Schema.readOne at ht
  split at ht
  · cases ht
    exact h.dropChildren _
  · exact h.setChild_readChild hl ht

theorem readList (h : s.Undeclaring) {at_ : Nat → Location}
    (hl : ∀ i, (at_ i).isDeclaring = false) (ht : readList read s at_ j = some t) :
    t.Undeclaring := by
  unfold Schema.readList at ht
  split at ht
  · cases ht
    exact h.dropChildren _
  · refine keeps_foldlM (fun s x _ t hs ht => hs.setChild_readChild (hl _) ht) ?_ ht
    split
    · exact (h.dropChildren _).mapKeywords rfl rfl
    · exact h.dropChildren _
  · cases ht

theorem readMap (h : s.Undeclaring) {at_ : String → Location}
    (hl : ∀ key, (at_ key).isDeclaring = false) (ht : readMap read s at_ j = some t) :
    t.Undeclaring := by
  unfold Schema.readMap at ht
  split at ht
  · cases ht
    exact h.dropChildren _
  · refine keeps_foldlM (fun s x _ t hs ht => hs.setChild_readChild (hl _) ht) ?_ ht
    split
    · exact h.mapKeywords rfl rfl
    · exact h
  · cases ht

/-- Only those keywords make a difference. -/
theorem readKeyword (h : s.Undeclaring) {name source : String} (hname : name ∉ Keywords.declaring)
    (ht : readKeyword read s name source j = some t) : t.Undeclaring := by
  unfold Schema.readKeyword at ht
  split at ht
  case h_1 | h_19 | h_22 | h_23 => exact absurd (by decide) hname
  case h_9 =>
    split at ht
    · cases ht
      exact h.mapKeywords rfl rfl
    · exact of_map (fun _ => h.mapKeywords rfl rfl) ht
    · cases ht
  case h_18 =>
    split at ht
    · cases ht
      exact h.mapKeywords rfl rfl
    · exact of_map (fun _ => h.mapKeywords rfl rfl) ht
  case h_44 =>
    split at ht
    · cases ht
      exact h
    · exact h.readOther ht
    · cases ht
  -- the other keywords are of six kinds, by what they change
  all_goals first
    | exact of_map (fun _ => h.mapKeywords rfl rfl) ht
    | exact h.readMap (fun _ => rfl) ht
    | exact h.readList (fun _ => rfl) ht
    | exact h.readOne rfl ht
    | exact h.readOther ht
    | (cases ht; exact h)
    | (cases ht; exact h.mapKeywords rfl rfl)

theorem readMembersBy {nameOf : String → Option String} (h : s.Undeclaring) {ms : List Member}
    (hspelled : ∀ m ∈ ms, ∀ name, nameOf m.key = some name → m.key = name)
    (hms : ∀ m ∈ ms, m.key ∉ Keywords.declaring) (ht : readMembersBy nameOf read s ms = some t) :
    t.Undeclaring := by
  have hlast (s : Schema) (hs : s.Undeclaring) :
      (if ms.all fun m => Keywords.names.contains m.key then s
        else s.mapKeywords ({ · with others := true })).Undeclaring := by
    split
    · exact hs
    · exact hs.mapKeywords rfl rfl
  have htype : lastOfBy nameOf "type" ms = none := by
    rw [lastOfBy, Option.map_eq_none_iff, List.getLast?_eq_none_iff, List.filter_eq_nil_iff]
    intro m hm hname
    have hkey := hspelled m hm _ (beq_iff_eq.mp hname)
    exact hms m hm (hkey ▸ by decide)
  unfold Schema.readMembersBy at ht
  rw [htype] at ht
  obtain ⟨u, hu, ht⟩ := Option.bind_eq_some_iff.mp ht
  have hus : u.Undeclaring := by
    refine keeps_foldlM (P := Undeclaring) (fun s m hm u hs hu => ?_) h hu
    split at hu
    · next name hname =>
      exact hs.readKeyword (hspelled m hm _ hname ▸ hms m hm) hu
    · cases hu
      exact hs
  obtain ⟨v, hv, ht⟩ := Option.bind_eq_some_iff.mp ht
  cases hv
  dsimp only at ht
  split at ht
  · obtain ⟨w, hw, ht⟩ := Option.bind_eq_some_iff.mp ht
    cases ht
    exact hlast w (of_map (fun _ => hus.mapKeywords rfl rfl) hw)
  · obtain ⟨w, hw, ht⟩ := Option.bind_eq_some_iff.mp ht
    cases hw
    cases ht
    exact hlast u hus

theorem of_ofJsonTextBy {nameOf : String → Option String} {cs : List Char} {v : Json}
    (hv : Json.parse? cs = some v)
    (hspelled : ∀ names ∈ v.names?, ∀ key ∈ names, ∀ name, nameOf key = some name → key = name)
    (hkeys : ∀ names ∈ v.names?, ∀ key ∈ names, key ∉ Keywords.declaring)
    (h : ofJsonTextBy nameOf cs = .ok s) : s.Undeclaring := by
  unfold ofJsonTextBy at h
  rw [hv] at h
  split at h
  · next t ht =>
    cases h
    obtain ⟨_, _, ht⟩ := Option.bind_eq_some_iff.mp (show ofJsonBy? nameOf v = some s from ht)
    unfold readIntoBy at ht
    split at ht
    · cases ht
      exact .blank
    · cases ht
      exact .never
    · cases ht
      exact .never
    · exact readMembersBy .blank (fun m hm => hspelled _ rfl _ (List.mem_map_of_mem hm))
        (fun m hm => hkeys _ rfl _ (List.mem_map_of_mem hm)) ht
    · cases ht
  · exact absurd h Result.fail_ne_ok

/-! #### Recording and resolving -/

theorem recordAt (h : s.Undeclaring) (record : Record) (n : Yaml.Node) (l : Location) :
    (recordAt record n s l).Undeclaring := by
  unfold Schema.recordAt
  split
  · exact h
  · next c _ hc => exact h.setChild (h.children _ (mem_of_child? hc)) _
  · exact h

theorem recordKey (h : s.Undeclaring) (record : Record) (key : String) (n : Yaml.Node) :
    (recordKey record s key n).Undeclaring := by
  have hnote : (s.noteOrder key n).Undeclaring := by
    unfold noteOrder
    split
    · exact h.mapKeywords rfl rfl
    · exact h.mapKeywords rfl rfl
    · exact h.mapKeywords rfl rfl
    · exact h
  rw [recordKey_eq]
  exact keeps_foldl (P := Undeclaring) (fun s m hs => hs.recordAt record m.2 m.1) _ hnote

theorem withOrder (h : s.Undeclaring) (y : Option Yaml.Document) :
    (s.withOrder y).Undeclaring := by
  have hrecord (anchors : Yaml.Anchors) (fuel : Nat) (n : Yaml.Node) :
      (recordOrder anchors fuel n s).Undeclaring := by
    cases fuel with
    | zero => exact h
    | succ fuel =>
      exact keeps_foldl (P := Undeclaring) (fun s e hs => hs.recordKey _ e.1.text e.2) _ h
  unfold Schema.withOrder
  split
  · exact h
  · split
    · exact h
    · exact hrecord _ _ _

theorem of_resolveFiles (h : s.Undeclaring) {read : ReadFile} {fuel : Nat} {folder : Text}
    {stack : List Text} (ht : resolveFiles read fuel folder stack s = .ok t) : t.Undeclaring := by
  have hfile : s.isFileRef = false := by rw [isFileRef, h.ref]; rfl
  cases inlined_of_resolveFiles ht with
  | null => exact h
  | kept _ hlocations _ =>
    refine ⟨h.ref, h.type, fun d hd => ?_⟩
    have hmem := hlocations ▸ List.mem_map_of_mem hd
    obtain ⟨c, hc, heq⟩ := List.mem_map.mp hmem
    exact heq ▸ h.children c hc
  | file hs => cases hfile.symm.trans hs

/-! #### Importing -/

theorem filterMap_children (h : s.Undeclaring) {f : Location × Schema → Option String}
    (hf : ∀ c, c.1.isDeclaring = false → f c = none) : s.children.filterMap f = [] :=
  List.filterMap_eq_nil_iff.mpr fun c hc => hf c (h.children c hc)

theorem propertyKeys_eq_nil (h : s.Undeclaring) : s.propertyKeys = [] := by
  refine h.filterMap_children fun c hc => ?_
  split
  · next heq =>
    rw [heq] at hc
    cases hc
  · rfl

theorem defKeys_eq_nil (h : s.Undeclaring) : s.defKeys = [] := by
  rw [defKeys, h.filterMap_children, h.filterMap_children]
  · simp [mergeKeys]
  all_goals
    intro c hc
    split
    · next heq =>
      rw [heq] at hc
      cases hc
    · rfl

theorem isObject_eq_false (h : s.Undeclaring) : s.isObject = false := by
  rw [isObject, h.type, h.propertyKeys_eq_nil]
  simp

/-- Such a schema is imported without any declaration. -/
theorem names_of_toDocument (h : s.Undeclaring) {name : Text} {d : Document}
    (hd : s.toDocument name = .ok d) : d.names = [] := by
  have hnever : (List.contains [] : String → Bool) = fun _ => false := rfl
  have horder : s.orderedDefs = [] := by
    simp [orderedDefs, orderedKeys, h.defKeys_eq_nil, hnever, firstOccurrences]
  obtain ⟨⟨_, st⟩, hst, hd⟩ := Result.bind_eq_ok.mp hd
  cases hd
  obtain ⟨mid, hmid, hrest⟩ := Import.document_split hst
  rw [h.isObject_eq_false] at hrest
  obtain rfl : mid = st := hrest
  rw [Import.definitions, horder] at hmid
  cases hmid
  rfl

end Undeclaring

/-- A schema as it is imported: as it was read, or with the files in place that it refers to. -/
def ResolvesTo (s r : Schema) : Prop :=
  r = s ∨ ∃ read fuel folder stack, resolveFiles read fuel folder stack s = .ok r

/-- A schema that leads to a declaration was read from an object with one of the five keywords. -/
theorem declaring_of_parseBy {nameOf : String → Option String} {format : Format} {t : Text}
    (hspelled : SpelledOut nameOf format t) {s r : Schema} {name : Text} {d : Document}
    (hs : parseBy nameOf format t = .ok s) (hr : s.ResolvesTo r) (hd : r.toDocument name = .ok d)
    (hnames : d.names ≠ []) :
    ∃ names, rootNames? format t = some names ∧ ∃ key ∈ names, key ∈ Keywords.declaring := by
  obtain ⟨u, hu, hs⟩ := Result.bind_eq_ok.mp hs
  obtain ⟨y, _, hs⟩ := Result.bind_eq_ok.mp hs
  cases hs
  obtain ⟨cs, hcs, hu⟩ := Result.bind_eq_ok.mp hu
  cases hv : Json.parse? cs with
  | none =>
    unfold ofJsonTextBy at hu
    rw [hv] at hu
    exact absurd hu Result.fail_ne_ok
  | some v =>
    have hroot : rootNames? format t = v.names? := by
      rw [rootNames?, hcs]
      exact congrArg (Option.bind · Json.names?) hv
    by_contra hno
    have hkeys : ∀ names ∈ v.names?, ∀ key ∈ names, key ∉ Keywords.declaring :=
      fun names hnames key hkey hdecl => hno ⟨names, hroot.trans hnames, key, hkey, hdecl⟩
    have hread := Undeclaring.of_ofJsonTextBy hv
      (fun names hnames => hspelled names (hroot.trans hnames)) hkeys hu
    obtain rfl | ⟨read, fuel, folder, stack, hresolve⟩ := hr
    · exact hnames ((hread.withOrder y).names_of_toDocument hd)
    · exact hnames (((hread.withOrder y).of_resolveFiles hresolve).names_of_toDocument hd)

end Schema

end SchemaLoom

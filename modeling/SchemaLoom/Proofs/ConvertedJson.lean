import SchemaLoom.Proofs.Readings
import SchemaLoom.Proofs.WrittenJson
import SchemaLoom.Yaml.Json

/-!
# YAML documents as JSON

The value a YAML document denotes has words for numbers, so that its text is read back as
what it is. Without a merge key, the names of its object are what the keys of the root
denote.
-/

namespace SchemaLoom

set_option autoImplicit false

open Json (isWordChar)

theorem exists_of_mem_mapM {α β : Type} {f : α → Option β} {xs : List α} {ys : List β}
    (h : xs.mapM f = some ys) : ∀ y ∈ ys, ∃ x ∈ xs, f x = some y := by
  induction xs generalizing ys with
  | nil =>
    cases h
    exact nofun
  | cons x xs ih =>
    rw [List.mapM_cons] at h
    obtain ⟨y, hy, h⟩ := Option.bind_eq_some_iff.mp h
    obtain ⟨zs, hzs, h⟩ := Option.bind_eq_some_iff.mp h
    cases h
    refine List.forall_mem_cons.mpr ⟨⟨x, List.mem_cons_self, hy⟩, fun z hz => ?_⟩
    obtain ⟨w, hw, heq⟩ := ih hzs z hz
    exact ⟨w, List.mem_cons_of_mem x hw, heq⟩

/-! ### Numbers -/

theorem isWordChar_toString_nat (n : Nat) : ∀ c ∈ (toString n).toList, isWordChar c = true := by
  rw [Nat.toString_eq_repr, Nat.toList_repr]
  intro c hc
  exact Json.isWordChar_of_isDigit (Nat.isDigit_of_mem_toDigits (by decide) (by decide) hc)

theorem isWordChar_toString_int (z : Int) : ∀ c ∈ (toString z).toList, isWordChar c = true := by
  cases z with
  | ofNat n => exact isWordChar_toString_nat n
  | negSucc n =>
    have htext : toString (Int.negSucc n) = "-" ++ toString (n + 1) := rfl
    rw [htext, String.toList_append]
    exact List.forall_mem_append.mpr ⟨List.all_eq_true.mp rfl, isWordChar_toString_nat (n + 1)⟩

namespace Double

theorem isWordChar_digits (x : Double) : ∀ c ∈ x.digits.1, isWordChar c = true :=
  isWordChar_toString_nat _

theorem isWordChar_placePoint {ds : List Char} (hds : ∀ c ∈ ds, isWordChar c = true) (p : Int) :
    ∀ c ∈ placePoint ds p, isWordChar c = true := by
  have hzeros (n : Nat) : ∀ c ∈ List.replicate n '0', isWordChar c = true := by
    intro c hc
    rw [List.eq_of_mem_replicate hc]
    rfl
  unfold placePoint
  dsimp only
  split
  · exact List.forall_mem_append.mpr ⟨hds, hzeros _⟩
  · split
    · rw [List.splitAt_eq]
      refine List.forall_mem_append.mpr ⟨fun c hc => hds c (List.mem_of_mem_take hc), ?_⟩
      exact List.forall_mem_cons.mpr ⟨rfl, fun c hc => hds c (List.mem_of_mem_drop hc)⟩
    · exact List.forall_mem_cons.mpr ⟨rfl, List.forall_mem_cons.mpr
        ⟨rfl, List.forall_mem_append.mpr ⟨hzeros _, hds⟩⟩⟩

theorem isWordChar_signText (x : Double) : ∀ c ∈ x.signText.toList, isWordChar c = true := by
  unfold signText
  split
  · exact List.all_eq_true.mp rfl
  · exact List.all_eq_true.mp rfl

theorem isWordChar_positional (x : Double) : ∀ c ∈ x.positional.toList, isWordChar c = true := by
  unfold positional
  split
  · rw [String.toList_append]
    exact List.forall_mem_append.mpr ⟨x.isWordChar_signText, List.all_eq_true.mp rfl⟩
  · dsimp only
    rw [String.toList_append, String.toList_ofList]
    exact List.forall_mem_append.mpr
      ⟨x.isWordChar_signText, isWordChar_placePoint x.isWordChar_digits _⟩

theorem isWordChar_text (x : Double) : ∀ c ∈ x.text.toList, isWordChar c = true := by
  have hdigits := x.isWordChar_digits
  unfold text
  dsimp only
  split
  · simp only [String.toList_append, List.forall_mem_append]
    refine ⟨⟨⟨⟨⟨x.isWordChar_signText, ?_⟩, List.all_eq_true.mp rfl⟩, ?_⟩, ?_⟩,
      isWordChar_toString_nat _⟩
    · generalize x.digits.1 = ds at hdigits
      split
      · exact nofun
      · rwa [String.toList_ofList]
      · rw [String.toList_ofList]
        obtain ⟨hfirst, hrest⟩ := List.forall_mem_cons.mp hdigits
        exact List.forall_mem_cons.mpr ⟨hfirst, List.forall_mem_cons.mpr ⟨rfl, hrest⟩⟩
    · split <;> exact List.all_eq_true.mp rfl
    · split <;> exact List.all_eq_true.mp rfl
  · exact x.isWordChar_positional

end Double

namespace Yaml

/-- A form in JSON, if there is one, has words for numbers. -/
def Converted.Wordy (c : Converted) : Prop := ∀ j, c = some j → j.Wordy

namespace Decode

/-! ### Values -/

theorem gives_convertScalar {tag text : String} : Gives (convertScalar tag text) fun c =>
    ∀ j, c = some j → j.Wordy ∧ j.names? = none := by
  refine .right fun v => ?_
  cases v with
  | null =>
    refine .pure ?_
    rintro _ ⟨⟩
    exact ⟨.null, rfl⟩
  | bool b =>
    refine .pure ?_
    rintro _ ⟨⟩
    exact ⟨.bool b, rfl⟩
  | int n =>
    refine .pure ?_
    rintro _ ⟨⟩
    exact ⟨.number (isWordChar_toString_int n), rfl⟩
  | float x inf neg =>
    cases x with
    | none => exact .pure nofun
    | some x =>
      refine .pure ?_
      rintro _ ⟨⟩
      exact ⟨.number x.isWordChar_text, rfl⟩
  | moment m =>
    refine .pure fun j hj => ?_
    split at hj
    · cases hj
    · cases hj
      exact ⟨.string _, rfl⟩
  | string t =>
    refine .right fun x => .pure ?_
    rintro _ ⟨⟩
    exact ⟨.string _, rfl⟩

theorem gives_mergeInto {σ : Type} {J : σ → Prop}
    {into : Scope → List (Node × Node) → Option (List String) → σ →
      Decode (Option (σ × Option (List String)))}
    (hinto : ∀ scope entries merged s, J s →
      Gives (into scope entries merged s) fun o => ∀ p ∈ o, J p.1)
    {scope : Scope} {entries : List (Node × Node)} {merged : Option (List String)} {s : σ}
    (hs : J s) : Gives (mergeInto into scope entries merged s) fun o => ∀ p ∈ o, J p.1 := by
  have hsome {s : σ} {merged : Option (List String)} (hs : J s) :
      ∀ p ∈ some (s, merged), J p.1 := by
    rintro _ ⟨⟩
    exact hs
  have hsources (start : List String) (source : Node) : Gives (do
      let sources ← mergeSources scope source
      let acc ← sources.foldlM
        (fun (acc : σ × Option (List String)) n => do
          let q ← enter scope n
          return (← into q.1 q.2.entries acc.2 acc.1).getD acc)
        (s, some start)
      pure (some (acc.1, if merged.isSome then acc.2 else none)) :
        Decode (Option (σ × Option (List String)))) fun o => ∀ p ∈ o, J p.1 := by
    refine .right fun sources => ?_
    refine .bind (P := fun acc => J acc.1) (.foldlM (fun acc n hacc => ?_) hs) fun acc hacc => ?_
    · refine .right fun q => (hinto q.1 q.2.entries acc.2 acc.1 hacc).bind fun o ho => .pure ?_
      cases o with
      | none => exact hacc
      | some p => exact ho p rfl
    · exact .pure (hsome hacc)
  unfold mergeInto
  split
  · exact .pure (hsome hs)
  · cases merged with
    | none => exact .right fun start => hsources start _
    | some ks => exact hsources ks _

section Mappings
variable {α : Type} {P : α → Prop} {I : Option String × α → Prop}

theorem forall_mem_set {es : Entries α} (hes : ∀ e ∈ es, I e) {key : Option String} {a : α}
    (ha : I (key, a)) : ∀ e ∈ es.set key a, I e := by
  unfold Entries.set
  split
  · refine List.forall_mem_map.mpr fun e he => ?_
    split
    · exact ha
    · exact hes e he
  · exact List.forall_mem_append.mpr ⟨hes, List.forall_mem_singleton.mpr ha⟩

variable {value : Reader α} (hvalue : ∀ scope n, Gives (value scope n) fun o => ∀ a ∈ o, P a)
include hvalue

/-- What is read of the entries of a mapping: a key is what a key there denotes. -/
theorem gives_readEntries {nullKeys : Bool} {scope : Scope} {entries : List (Node × Node)}
    {merged : Option (List String)} {es : Entries α} (hes : ∀ e ∈ es, I e)
    (hI : ∀ e ∈ entries, ∀ key a, (∀ name ∈ key, e.1.key? scope.anchors = some name) → P a →
      I (key, a)) :
    Gives (readEntries nullKeys value scope entries merged es) fun p => ∀ e ∈ p.1, I e := by
  induction entries generalizing merged es with
  | nil => exact .pure hes
  | cons e rest ih =>
    obtain ⟨k, v⟩ := e
    obtain ⟨hset, hI⟩ := List.forall_mem_cons.mp hI
    have ih {merged : Option (List String)} {es : Entries α} (hes : ∀ e ∈ es, I e) :
        Gives (readEntries nullKeys value scope rest merged es) fun p => ∀ e ∈ p.1, I e :=
      ih hes hI
    unfold readEntries
    refine .ite (ih hes) (.ite .fatal ?_)
    refine Gives.key?.bind fun key hkey => ?_
    cases key with
    | none =>
      refine .ite ((hvalue scope v).bind fun o ho => ?_) (ih hes)
      cases o with
      | none => exact ih hes
      | some a => exact ih (forall_mem_set hes (hset none a nofun (ho a rfl)))
    | some key =>
      refine .ite (ih hes) ((hvalue scope v).bind fun o ho => ?_)
      cases o with
      | none => exact ih hes
      | some a =>
        refine ih (forall_mem_set hes (hset (some key.toDisplay) a ?_ (ho a rfl)))
        rintro _ ⟨⟩
        exact hkey key rfl

theorem gives_readMapping {nullKeys : Bool} {fuel : Nat} {scope : Scope}
    {entries : List (Node × Node)} {merged : Option (List String)} {es : Entries α}
    (hes : ∀ e ∈ es, P e.2) :
    Gives (readMapping nullKeys value fuel scope entries merged es) fun o =>
      ∀ p ∈ o, ∀ e ∈ p.1, P e.2 := by
  induction fuel generalizing scope entries merged es with
  | zero => exact .fatal
  | succ fuel ih =>
    unfold readMapping
    refine .right fun ok => .ite (.pure nofun) ?_
    refine (gives_readEntries hvalue hes fun _ _ _ _ _ ha => ha).bind fun p hp => ?_
    exact gives_mergeInto (J := fun es : Entries α => ∀ e ∈ es, P e.2)
      (fun _ _ _ _ hes => ih hes) hp

omit hvalue in
/-- Without a merge key, the keys that are set are what the keys of the mapping denote. -/
theorem keys_readMapping {nullKeys : Bool} {fuel : Nat} {scope : Scope}
    {entries : List (Node × Node)} (hmerge : ∀ e ∈ entries, isMergeKey e.1 = false) :
    Gives (readMapping nullKeys value fuel scope entries none []) fun o => ∀ p ∈ o, ∀ e ∈ p.1,
      ∀ name ∈ e.1, ∃ e ∈ entries, e.1.key? scope.anchors = some name := by
  cases fuel with
  | zero => exact .fatal
  | succ fuel =>
    have hnone : (entries.filter fun e => isMergeKey e.1).getLast? = none := by
      rw [List.getLast?_eq_none_iff, List.filter_eq_nil_iff]
      exact fun e he => by simp [hmerge e he]
    unfold readMapping
    refine .right fun ok => .ite (.pure nofun) ?_
    have hentries : Gives (readEntries nullKeys value scope entries none []) fun p =>
        ∀ e ∈ p.1, ∀ name ∈ e.1, ∃ e ∈ entries, e.1.key? scope.anchors = some name :=
      gives_readEntries (P := fun _ => True) (fun _ _ _ _ _ _ _ _ => trivial)
        (List.forall_mem_nil _) fun e he key a hkey _ name hname => ⟨e, he, hkey name hname⟩
    refine hentries.bind fun p hp => ?_
    unfold mergeInto
    rw [hnone]
    refine .pure ?_
    rintro _ ⟨⟩
    exact hp

end Mappings

theorem exists_of_member? {e : Option String × Converted} {m : Member} (h : member? e = some m) :
    e.1 = some m.key ∧ e.2 = some m.value := by
  unfold member? at h
  split at h
  · cases h
    exact ⟨rfl, rfl⟩
  · cases h

/-- The members that a mapping has in JSON, if it has a form there. -/
theorem mem_members {anchors : Anchors} {entries : List (Node × Node)} {es : Entries Converted}
    {ms : List Member}
    (h : (if hasStringKeys anchors entries then es.mapM member? else none) = some ms) :
    hasStringKeys anchors entries = true ∧
      ∀ m ∈ ms, ∃ e ∈ es, e.1 = some m.key ∧ e.2 = some m.value := by
  obtain ⟨hkeys, h⟩ := Option.ite_none_right_eq_some.mp h
  refine ⟨hkeys, fun m hm => ?_⟩
  obtain ⟨e, he, hmember⟩ := exists_of_mem_mapM h m hm
  exact ⟨e, he, exists_of_member? hmember⟩

theorem wordy_convertNode {inner : Reader Converted}
    (hinner : ∀ scope n, Gives (inner scope n) fun o => ∀ c ∈ o, c.Wordy) {fuel : Nat}
    {scope : Scope} {n : Node} :
    Gives (convertNode inner fuel scope n) fun o => ∀ c ∈ o, c.Wordy := by
  have hsome {c : Converted} (hc : c.Wordy) : ∀ c' ∈ some c, c'.Wordy := by
    rintro _ ⟨⟩
    exact hc
  cases n with
  | scalar line tag text =>
    exact gives_convertScalar.bind fun c hc => .pure (hsome fun j hj => (hc j hj).1)
  | sequence line tag items =>
    refine (Gives.mapM (hinner scope)).bind fun cs hcs => .pure (hsome fun j hj => ?_)
    obtain ⟨js, hjs, rfl⟩ := Option.map_eq_some_iff.mp hj
    refine .array fun j hj => ?_
    obtain ⟨c, hc, rfl⟩ := exists_of_mem_mapM hjs j hj
    obtain ⟨o, ho, rfl⟩ := List.mem_filterMap.mp hc
    exact hcs _ ho _ rfl j rfl
  | mapping line tag entries =>
    refine (gives_readMapping hinner (List.forall_mem_nil _)).bind fun o ho => ?_
    cases o with
    | none => exact .pure nofun
    | some p =>
      refine .pure (hsome fun j hj => ?_)
      obtain ⟨ms, hms, rfl⟩ := Option.map_eq_some_iff.mp hj
      refine .object fun m hm => ?_
      obtain ⟨e, he, _, hvalue⟩ := (mem_members hms).2 m hm
      exact ho p rfl e he m.value hvalue
  | aliasOf => exact .fatal

theorem wordy_convert {fuel : Nat} {scope : Scope} {n : Node} :
    Gives (convert fuel scope n) fun o => ∀ c ∈ o, c.Wordy := by
  induction fuel generalizing scope n with
  | zero => exact .fatal
  | succ fuel ih => exact .through fun m expanding _ => wordy_convertNode fun _ _ => ih

/-- Without a merge key, the names of an object are what the keys of its mapping denote, and
those are strings. -/
theorem names_convertNode {inner : Reader Converted} {fuel : Nat} {scope : Scope} {n : Node}
    (hmerge : ∀ e ∈ n.entries, isMergeKey e.1 = false) :
    Gives (convertNode inner fuel scope n) fun o => ∀ j, o = some (some j) →
      ∀ names ∈ j.names?, hasStringKeys scope.anchors n.entries = true ∧
        ∀ name ∈ names, ∃ e ∈ n.entries, e.1.key? scope.anchors = some name := by
  cases n with
  | scalar line tag text =>
    refine gives_convertScalar.bind fun c hc => .pure ?_
    rintro j ⟨⟩ names hnames
    exact nomatch (hc j rfl).2.symm.trans hnames
  | sequence line tag items =>
    refine .right fun cs => .pure fun j hj names hnames => ?_
    obtain ⟨js, _, rfl⟩ := Option.map_eq_some_iff.mp (Option.some.inj hj)
    cases hnames
  | mapping line tag entries =>
    refine (keys_readMapping hmerge).bind fun o ho => ?_
    cases o with
    | none => exact .pure nofun
    | some p =>
      refine .pure fun j hj names hnames => ?_
      obtain ⟨ms, hms, rfl⟩ := Option.map_eq_some_iff.mp (Option.some.inj hj)
      obtain ⟨hstrings, hmembers⟩ := mem_members hms
      cases hnames
      refine ⟨hstrings, List.forall_mem_map.mpr fun m hm => ?_⟩
      obtain ⟨e, he, hkey, _⟩ := hmembers m hm
      exact ho p rfl e he m.key hkey
  | aliasOf => exact .fatal

end Decode

namespace Document
variable {y : Document} {j : Json}

theorem gives_of_json (h : y.json = .ok (some j)) {P : Option Converted → Prop}
    (hroot : Decode.Gives (Decode.convert (y.depth + 1) ⟨y.anchors, false, []⟩ y.root) P) :
    P (some (some j)) ∨ j = .null := by
  obtain ⟨c, hc, h⟩ := Result.bind_eq_ok.mp h
  have hP := (Decode.Clean.run hc).of_gives hroot
  cases c with
  | none =>
    cases h
    exact .inr rfl
  | some c =>
    cases h
    exact .inl hP

/-- The JSON form of a document has words for numbers. -/
theorem wordy_of_json (h : y.json = .ok (some j)) : j.Wordy := by
  obtain hwordy | rfl := gives_of_json h Decode.wordy_convert
  · exact hwordy _ rfl j rfl
  · exact .null

/-- Without a merge key at the root, the names of the JSON form of a document are strings that
the keys of the root denote. -/
theorem names_of_json (h : y.json = .ok (some j))
    (hroot : y.root.behind? y.anchors = some y.root)
    (hmerge : ∀ e ∈ y.root.entries, Decode.isMergeKey e.1 = false) {names : List String}
    (hnames : j.names? = some names) : Decode.hasStringKeys y.anchors y.root.entries = true ∧
      ∀ name ∈ names, ∃ e ∈ y.root.entries, e.1.key? y.anchors = some name := by
  have hroot : Decode.Gives (Decode.convert (y.depth + 1) ⟨y.anchors, false, []⟩ y.root) fun o =>
      ∀ j, o = some (some j) → ∀ names ∈ j.names?,
        Decode.hasStringKeys y.anchors y.root.entries = true ∧
          ∀ name ∈ names, ∃ e ∈ y.root.entries, e.1.key? y.anchors = some name := by
    refine .through fun m expanding hm => ?_
    cases hroot.symm.trans hm
    exact Decode.names_convertNode hmerge
  obtain hkeys | rfl := gives_of_json h hroot
  · exact hkeys j rfl names hnames
  · cases hnames

end Document

end Yaml

end SchemaLoom

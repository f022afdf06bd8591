import SchemaLoom.JsonSchema.Load
import SchemaLoom.Proofs.FreshNames
import SchemaLoom.Proofs.Result

/-!
# Subschemas in order

A schema that was loaded keeps its subschemas in the order of their locations, with
at most one at each, and so do the subschemas, all the way down. Every step of the reader
and of the recording of key orders preserves that. Nothing is said about the keywords.
-/

namespace SchemaLoom

set_option autoImplicit false

namespace Location

/-- The location with a rank, an index and a key. -/
def ofCode (rank index : Nat) (key : String) : Location :=
  match rank with
  | 0 => property key
  | 1 => patternProperty key
  | 2 => additionalProperties
  | 3 => propertyNames
  | 4 => unevaluatedProperties
  | 5 => items
  | 6 => prefixItem index
  | 7 => additionalItems
  | 8 => contains
  | 9 => unevaluatedItems
  | 10 => allOf index
  | 11 => anyOf index
  | 12 => oneOf index
  | 13 => not
  | 14 => cond
  | 15 => thenBranch
  | 16 => elseBranch
  | 17 => dependentSchema key
  | 18 => contentSchema
  | 19 => def_ key
  | _ => definition key

theorem ofCode_self (a : Location) : ofCode a.rank a.index a.key = a := by
  cases a <;> rfl

theorem before_iff {a b : Location} : a.before b = true ↔
    a.rank < b.rank ∨ a.rank = b.rank ∧
      (a.index < b.index ∨ a.index = b.index ∧ a.key < b.key) := by
  simp [before]

theorem before_irrefl (a : Location) : a.before a = false := by
  rw [Bool.eq_false_iff, Ne, before_iff]
  have hkey := String.lt_irrefl a.key
  rintro (h | ⟨_, h | ⟨_, h⟩⟩)
  · omega
  · omega
  · exact hkey h

theorem before_trans {a b c : Location} (hab : a.before b = true) (hbc : b.before c = true) :
    a.before c = true := by
  rw [before_iff] at hab hbc ⊢
  rcases hab with hab | ⟨hrank, hab⟩
  · rcases hbc with hbc | ⟨hrank', _⟩
    · exact .inl (by omega)
    · exact .inl (by omega)
  · rcases hbc with hbc | ⟨hrank', hbc⟩
    · exact .inl (by omega)
    · refine .inr ⟨by omega, ?_⟩
      rcases hab with hab | ⟨hindex, hab⟩
      · rcases hbc with hbc | ⟨hindex', _⟩
        · exact .inl (by omega)
        · exact .inl (by omega)
      · rcases hbc with hbc | ⟨hindex', hbc⟩
        · exact .inl (by omega)
        · exact .inr ⟨by omega, String.lt_trans hab hbc⟩

/-- Of two different locations one is before the other. -/
theorem before_of_ne {a b : Location} (hne : a ≠ b) (hnot : a.before b = false) :
    b.before a = true := by
  rw [Bool.eq_false_iff, Ne, before_iff] at hnot
  rw [before_iff]
  by_contra hback
  have hrank : a.rank = b.rank := by omega
  have hindex : a.index = b.index := by omega
  have hkey : a.key = b.key := by
    apply String.le_antisymm
    · exact String.not_lt.mp fun hlt => hback (.inr ⟨hrank.symm, .inr ⟨hindex.symm, hlt⟩⟩)
    · exact String.not_lt.mp fun hlt => hnot (.inr ⟨hrank, .inr ⟨hindex, hlt⟩⟩)
  apply hne
  rw [← ofCode_self a, ← ofCode_self b, hrank, hindex, hkey]

end Location

namespace Schema

/-- The subschemas stand in the order of their locations. -/
def Sorted (s : Schema) : Prop := s.children.Pairwise fun c d => c.1.before d.1 = true

theorem Sorted.distinct {s : Schema} (h : s.Sorted) : s.Distinct := by
  rw [Distinct, List.Nodup, List.pairwise_map]
  apply h.imp
  intro c d hcd heq
  rw [heq, Location.before_irrefl] at hcd
  cases hcd

theorem mem_insertAt {l : Location} {s : Schema} {cs : List (Location × Schema)}
    {c : Location × Schema} (h : c ∈ insertAt l s cs) : c = (l, s) ∨ c ∈ cs := by
  induction cs with
  | nil => exact .inl (List.mem_singleton.mp h)
  | cons d cs ih =>
    rw [insertAt] at h
    split at h
    · exact (List.mem_cons.mp h).imp_right (List.mem_cons_of_mem d)
    · split at h
      · exact List.mem_cons.mp h
      · rcases List.mem_cons.mp h with rfl | h
        · exact .inr List.mem_cons_self
        · exact (ih h).imp_right (List.mem_cons_of_mem d)

theorem pairwise_insertAt {l : Location} {s : Schema} {cs : List (Location × Schema)}
    (h : cs.Pairwise fun c d => c.1.before d.1 = true) :
    (insertAt l s cs).Pairwise fun c d => c.1.before d.1 = true := by
  induction cs with
  | nil => exact List.pairwise_singleton _ _
  | cons c cs ih =>
    obtain ⟨hfirst, hrest⟩ := List.pairwise_cons.mp h
    rw [insertAt]
    split
    · rename_i hl
      exact List.pairwise_cons.mpr ⟨hl ▸ hfirst, hrest⟩
    · rename_i hl
      split
      · rename_i hbefore
        refine List.pairwise_cons.mpr ⟨?_, h⟩
        intro d hd
        rcases List.mem_cons.mp hd with rfl | hd
        · exact hbefore
        · exact Location.before_trans hbefore (hfirst d hd)
      · rename_i hbefore
        have hback : c.1.before l = true :=
          Location.before_of_ne (fun heq => hl heq.symm) (Bool.eq_false_iff.mpr hbefore)
        refine List.pairwise_cons.mpr ⟨?_, ih hrest⟩
        intro d hd
        rcases mem_insertAt hd with rfl | hd
        · exact hback
        · exact hfirst d hd

/-- The subschemas stand in the order of their locations at every level. -/
inductive Tidy : Schema → Prop
  | null : Tidy .null
  | node {k : Keywords} {cs : List (Location × Schema)} : (node k cs).Sorted →
      (∀ c ∈ cs, Tidy c.2) → Tidy (node k cs)

theorem tidy_iff {s : Schema} : s.Tidy ↔ s.Sorted ∧ ∀ c ∈ s.children, c.2.Tidy := by
  constructor
  · rintro (_ | ⟨hsorted, hchildren⟩)
    · exact ⟨List.Pairwise.nil, nofun⟩
    · exact ⟨hsorted, hchildren⟩
  · rintro ⟨hsorted, hchildren⟩
    cases s with
    | null => exact .null
    | node k cs => exact .node hsorted hchildren

namespace Tidy
variable {s c : Schema}

theorem sorted (h : s.Tidy) : s.Sorted := (tidy_iff.mp h).1

theorem child (h : s.Tidy) {l : Location} (hc : s.child? l = some c) : c.Tidy :=
  (tidy_iff.mp h).2 _ (mem_of_child? hc)

/-- The subschema at a location, or null where there is none. -/
theorem childD (h : s.Tidy) (l : Location) : ((s.child? l).getD .null).Tidy := by
  cases hc : s.child? l with
  | none => exact .null
  | some c => exact h.child hc

theorem blank : Schema.blank.Tidy := .node List.Pairwise.nil nofun

theorem never : Schema.never.Tidy :=
  .node (List.pairwise_singleton _ _) (List.forall_mem_singleton.mpr .blank)

theorem setChild (h : s.Tidy) (l : Location) (hc : c.Tidy) : (s.setChild l c).Tidy := by
  obtain ⟨hsorted, hchildren⟩ := tidy_iff.mp h
  refine .node (pairwise_insertAt hsorted) fun d hd => ?_
  rcases mem_insertAt hd with rfl | hd
  · exact hc
  · exact hchildren d hd

theorem dropChildren (h : s.Tidy) (p : Location → Bool) : (s.dropChildren p).Tidy := by
  obtain ⟨hsorted, hchildren⟩ := tidy_iff.mp h
  exact .node (hsorted.filter _) fun c hc => hchildren c (List.mem_filter.mp hc).1

theorem mapKeywords (h : s.Tidy) (f : Keywords → Keywords) : (s.mapKeywords f).Tidy := by
  obtain ⟨hsorted, hchildren⟩ := tidy_iff.mp h
  exact .node hsorted hchildren

end Tidy

/-! ### Reading -/

section Reading
variable {s : Schema} {read : ReadInto}

/-- What each step keeps, a run of steps keeps. -/
theorem keeps_foldlM {P : Schema → Prop} {α : Type} {f : Schema → α → Option Schema}
    {xs : List α} (hf : ∀ s, ∀ x ∈ xs, ∀ t, P s → f s x = some t → P t) {t : Schema}
    (hs : P s) (h : xs.foldlM f s = some t) : P t := by
  induction xs generalizing s with
  | nil =>
    cases h
    exact hs
  | cons x xs ih =>
    rw [List.foldlM_cons] at h
    obtain ⟨u, hu, h⟩ := Option.bind_eq_some_iff.mp h
    exact ih (fun s y hy => hf s y (List.mem_cons_of_mem x hy))
      (hf s x List.mem_cons_self u hs hu) h

theorem keeps_foldl {P : Schema → Prop} {α : Type} {f : Schema → α → Schema}
    (hf : ∀ s x, P s → P (f s x)) (xs : List α) (hs : P s) : P (xs.foldl f s) := by
  induction xs generalizing s with
  | nil => exact hs
  | cons x xs ih => exact ih (hf s x hs)

theorem of_map {P : Schema → Prop} {α : Type} {o : Option α} {f : α → Schema} {t : Schema}
    (hf : ∀ a, P (f a)) (h : o.map f = some t) : P t := by
  obtain ⟨a, _, rfl⟩ := Option.map_eq_some_iff.mp h
  exact hf a

theorem tidy_readOther (hs : s.Tidy) {given : Option Bool} {t : Schema}
    (h : s.readOther given = some t) : t.Tidy := by
  refine of_map (fun g => ?_) h
  split
  · exact hs.mapKeywords _
  · exact hs

theorem tidy_readType (hs : s.Tidy) {j : Json} {t : Schema} (h : s.readType j = some t) :
    t.Tidy := by
  unfold readType at h
  split at h
  · cases h
    exact hs.mapKeywords _
  · exact of_map (fun _ => hs.mapKeywords _) h
  · cases h

variable (hread : ∀ s j t, s.Tidy → read s j = some t → t.Tidy)
include hread

theorem tidy_readChild (hs : s.Tidy) {j : Json} {t : Schema} (h : readChild read s j = some t) :
    t.Tidy := by
  unfold readChild at h
  split at h
  · cases h
    exact .null
  · refine hread _ j t ?_ h
    split
    · exact .blank
    · exact hs

/-- The same place again, with what is read into the subschema there. -/
theorem tidy_setChild_readChild (hs : s.Tidy) {old : Schema} (hold : old.Tidy) {l : Location}
    {j : Json} {t : Schema} (h : (readChild read old j).map (s.setChild l) = some t) : t.Tidy := by
  obtain ⟨c, hc, rfl⟩ := Option.map_eq_some_iff.mp h
  exact hs.setChild l (tidy_readChild hread hold hc)

theorem tidy_readOne (hs : s.Tidy) {l : Location} {j : Json} {t : Schema}
    (h : readOne read s l j = some t) : t.Tidy := by
  unfold readOne at h
  split at h
  · cases h
    exact hs.dropChildren _
  · exact tidy_setChild_readChild hread hs (hs.childD l) h

theorem tidy_readList (hs : s.Tidy) {at_ : Nat → Location} {j : Json} {t : Schema}
    (h : readList read s at_ j = some t) : t.Tidy := by
  unfold readList at h
  split at h
  · cases h
    exact hs.dropChildren _
  · refine keeps_foldlM (P := Tidy) (fun s x _ t hs h => ?_) ?_ h
    · exact tidy_setChild_readChild hread hs (hs.childD _) h
    · split
      · exact (hs.dropChildren _).mapKeywords _
      · exact hs.dropChildren _
  · cases h

theorem tidy_readMap (hs : s.Tidy) {at_ : String → Location} {j : Json} {t : Schema}
    (h : readMap read s at_ j = some t) : t.Tidy := by
  unfold readMap at h
  split at h
  · cases h
    exact hs.dropChildren _
  · refine keeps_foldlM (P := Tidy) (fun s x _ t hs h => ?_) ?_ h
    · exact tidy_setChild_readChild hread hs .null h
    · split
      · exact hs.mapKeywords _
      · exact hs
  · cases h

theorem tidy_readKeyword (hs : s.Tidy) {name source : String} {j : Json} {t : Schema}
    (h : readKeyword read s name source j = some t) : t.Tidy := by
  have hmap : ∀ {α : Type} {o : Option α} {f : α → Keywords → Keywords},
      o.map (fun a => s.mapKeywords (f a)) = some t → t.Tidy :=
    fun h => of_map (fun a => hs.mapKeywords _) h
  unfold readKeyword at h
  split at h
  case h_9 =>
    split at h
    · cases h
      exact hs.mapKeywords _
    · exact hmap h
    · cases h
  case h_18 =>
    split at h
    · cases h
      exact hs.mapKeywords _
    · exact hmap h
  case h_44 =>
    split at h
    · cases h
      exact hs
    · exact tidy_readOther hs h
    · cases h
  -- the other keywords are of seven kinds, by what they change
  all_goals first
    | exact hmap h
    | exact tidy_readMap hread hs h
    | exact tidy_readList hread hs h
    | exact tidy_readOne hread hs h
    | exact tidy_readOther hs h
    | (cases h; exact hs)
    | (cases h; exact hs.mapKeywords _)

theorem tidy_readMembers (hs : s.Tidy) {ms : List Member} {t : Schema}
    (h : readMembers read s ms = some t) : t.Tidy := by
  have hlast : ∀ s : Schema, s.Tidy → (if ms.all fun m => Keywords.names.contains m.key then s
      else s.mapKeywords ({ · with others := true })).Tidy := by
    intro s hs
    split
    · exact hs
    · exact hs.mapKeywords _
  unfold readMembers at h
  obtain ⟨u, hu, h⟩ := Option.bind_eq_some_iff.mp h
  have hsu : u.Tidy := by
    refine keeps_foldlM (P := Tidy) ?_ hs hu
    intro s m _ u hs hu
    split at hu
    · exact tidy_readKeyword hread hs hu
    · cases hu
      exact hs
  dsimp only at h
  split at h
  all_goals
    obtain ⟨v, hv, h⟩ := Option.bind_eq_some_iff.mp h
    have hsv : v.Tidy := by
      first
        | exact tidy_readType hsu hv
        | (cases hv; exact hsu)
    split at h
    · obtain ⟨w, hw, h⟩ := Option.bind_eq_some_iff.mp h
      cases h
      exact hlast w (of_map (fun _ => hsv.mapKeywords _) hw)
    · obtain ⟨w, hw, h⟩ := Option.bind_eq_some_iff.mp h
      cases hw
      cases h
      exact hlast v hsv

omit hread in
theorem tidy_readInto {fuel : Nat} (hs : s.Tidy) {j : Json} {t : Schema}
    (h : readInto fuel s j = some t) : t.Tidy := by
  induction fuel generalizing s j t with
  | zero => cases h
  | succ fuel ih =>
    unfold readInto at h
    split at h
    · cases h
      exact .blank
    · cases h
      exact .never
    · cases h
      exact .never
    · exact tidy_readMembers (fun s j t hs h => ih hs h) hs h
    · cases h

end Reading

/-! ### Recording the order of keys -/

section Recording
variable {s : Schema} {record : Record} (hrecord : ∀ n s, s.Tidy → (record n s).Tidy)
include hrecord

theorem tidy_recordAt (hs : s.Tidy) (n : Yaml.Node) (l : Location) :
    (recordAt record n s l).Tidy := by
  unfold recordAt
  split
  · exact hs
  · rename_i c _ hc
    exact hs.setChild l (hrecord n c (hs.child hc))
  · exact hs

theorem tidy_recordMap (hs : s.Tidy) (n : Yaml.Node) (at_ : String → Location) :
    (recordMap record n s at_).Tidy :=
  keeps_foldl (P := Tidy) (fun _ _ hs => tidy_recordAt hrecord hs _ _) _ hs

theorem tidy_recordList (hs : s.Tidy) (n : Yaml.Node) (at_ : Nat → Location) :
    (recordList record n s at_).Tidy := by
  unfold recordList
  split
  · exact keeps_foldl (P := Tidy) (fun _ _ hs => tidy_recordAt hrecord hs _ _) _ hs
  · exact hs

theorem tidy_recordKey (hs : s.Tidy) (key : String) (n : Yaml.Node) :
    (recordKey record s key n).Tidy := by
  unfold recordKey
  split
  case h_1 => exact tidy_recordMap hrecord (hs.mapKeywords _) n _
  case h_2 => exact tidy_recordMap hrecord (hs.mapKeywords _) n _
  case h_3 => exact tidy_recordMap hrecord (hs.mapKeywords _) n _
  all_goals first
    | exact tidy_recordMap hrecord hs n _
    | exact tidy_recordAt hrecord hs n _
    | exact tidy_recordList hrecord hs n _
    | exact hs

omit hrecord in
theorem tidy_recordOrder (anchors : Yaml.Anchors) (fuel : Nat) (n : Yaml.Node) (hs : s.Tidy) :
    (recordOrder anchors fuel n s).Tidy := by
  induction fuel generalizing n s with
  | zero => exact hs
  | succ fuel ih =>
    refine keeps_foldl (P := Tidy) (fun _ _ hs => ?_) _ hs
    exact tidy_recordKey (fun n s hs => ih n hs) hs _ _

omit hrecord in
theorem tidy_withOrder (hs : s.Tidy) (d : Option Yaml.Document) : (s.withOrder d).Tidy := by
  unfold withOrder
  split
  · exact hs
  · split
    · exact hs
    · exact tidy_recordOrder _ _ _ hs

end Recording

/-- A schema that was read has its subschemas in order. -/
theorem tidy_of_parse {format : Format} {t : Text} {s : Schema} (h : parse format t = .ok s) :
    s.Tidy := by
  obtain ⟨u, hu, h⟩ := Result.bind_eq_ok.mp h
  obtain ⟨d, _, h⟩ := Result.bind_eq_ok.mp h
  cases h
  have htext : ∀ cs, ofJsonText cs = .ok u → u.Tidy := by
    intro cs hcs
    unfold ofJsonText at hcs
    split at hcs
    · rename_i v hv
      cases hcs
      obtain ⟨j, _, hj⟩ := Option.bind_eq_some_iff.mp hv
      obtain ⟨_, _, hj⟩ := Option.bind_eq_some_iff.mp hj
      exact tidy_readInto .blank hj
    · exact absurd hcs Result.fail_ne_ok
  apply tidy_withOrder
  unfold decode at hu
  split at hu
  · obtain ⟨cs, _, hu⟩ := Result.bind_eq_ok.mp hu
    exact htext cs hu
  · exact htext _ hu

/-- A loaded schema has its subschemas in order. -/
theorem tidy_of_load {read : ReadFile} {path : Text} {s : Schema}
    (h : load read path = .ok s) : s.Tidy := by
  obtain ⟨t, _, h⟩ := Result.bind_eq_ok.mp h
  exact tidy_of_parse (Result.within_eq_ok.mp h)

theorem sorted_of_load {read : ReadFile} {path : Text} {s : Schema}
    (h : load read path = .ok s) : s.Sorted := (tidy_of_load h).sorted

end Schema

end SchemaLoom

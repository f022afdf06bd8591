import SchemaLoom.JsonSchema.Traverse
import SchemaLoom.Proofs.Locations

/-!
# Recorded orders of keys

The order of keys is recorded along the source: each node is followed to the subschemas
that its keys lead to, and a schema that several nodes lead to has the order of the last
one. So at every position the recorded order is that of the last mapping of properties that
stands there in the source.

A mapping behind an alias has no keys here. Whether the schema was read from the same
source is not asked.
-/

namespace SchemaLoom.Schema

set_option autoImplicit false

/-! ### Nodes of the source -/

/-- The nodes under one key of a schema, with the locations they stand at. -/
def placedUnder (key : String) (n : Yaml.Node) : List (Location × Yaml.Node) :=
  match key with
  | "properties" => map .property
  | "$defs" => map .def_
  | "definitions" => map .definition
  | "patternProperties" => map .patternProperty
  | "dependentSchemas" => map .dependentSchema
  | "items" => [(.items, n)]
  | "additionalProperties" => [(.additionalProperties, n)]
  | "additionalItems" => [(.additionalItems, n)]
  | "not" => [(.not, n)]
  | "if" => [(.cond, n)]
  | "then" => [(.thenBranch, n)]
  | "else" => [(.elseBranch, n)]
  | "prefixItems" => list .prefixItem
  | "allOf" => list .allOf
  | "anyOf" => list .anyOf
  | "oneOf" => list .oneOf
  | _ => []
where
  map (at_ : String → Location) : List (Location × Yaml.Node) :=
    n.entries.map fun e => (at_ e.1.text, e.2)
  list (at_ : Nat → Location) : List (Location × Yaml.Node) :=
    match n with
    | .sequence _ _ items => (items.zip (List.range items.length)).map fun (m, i) => (at_ i, m)
    | _ => []

/-- The nodes one step below a node. -/
def placed (anchors : Yaml.Anchors) (n : Yaml.Node) : List (Location × Yaml.Node) :=
  (dereference anchors n).entries.flatMap fun e => placedUnder e.1.text e.2

/-- The nodes at one location below a node. -/
def nodesBelow (anchors : Yaml.Anchors) (l : Location) (n : Yaml.Node) : List Yaml.Node :=
  ((placed anchors n).filter (·.1 = l)).map (·.2)

/-- The nodes at a position below a node, in the order of the source. -/
def nodesAt (anchors : Yaml.Anchors) : Position → Yaml.Node → List Yaml.Node
  | [], n => [n]
  | l :: ls, n => (nodesBelow anchors l n).flatMap (nodesAt anchors ls)

/-- What stands under `properties` in a node. -/
def propertiesIn (anchors : Yaml.Anchors) (n : Yaml.Node) : List Yaml.Node :=
  ((dereference anchors n).entries.filter (·.1.text = "properties")).map (·.2)

/-- The mappings of properties at a position of a document. -/
def propertiesAt (y : Option Yaml.Document) (p : Position) : List Yaml.Node :=
  match y with
  | none => []
  | some y => (nodesAt y.anchors p y.root).flatMap (propertiesIn y.anchors)

/-! ### Locations -/

section Locations
variable {s c : Schema} {l l' : Location}

theorem lookup_cons_eq (d : Location × Schema) (cs : List (Location × Schema)) :
    (d :: cs).lookup l = if l = d.1 then some d.2 else cs.lookup l := by
  rw [List.lookup_cons]
  by_cases hl : l = d.1
  · simp [hl]
  · rw [beq_false_of_ne hl, if_neg hl]

theorem lookup_insertAt (cs : List (Location × Schema)) :
    (insertAt l c cs).lookup l' = if l' = l then some c else cs.lookup l' := by
  induction cs with
  | nil => rw [insertAt, lookup_cons_eq]
  | cons d cs ih =>
    rw [insertAt]
    split
    · rename_i hd
      rw [lookup_cons_eq, lookup_cons_eq, hd]
      split <;> rfl
    · rename_i hd
      split
      · rw [lookup_cons_eq]
      · rw [lookup_cons_eq, lookup_cons_eq, ih]
        by_cases hl : l' = l
        · have hne : l ≠ d.1 := fun h => hd h.symm
          simp [hl, hne]
        · simp [hl]

theorem child?_setChild : (s.setChild l c).child? l' = if l' = l then some c else s.child? l' :=
  lookup_insertAt _

theorem child?_of_mem (hs : s.Distinct) (h : (l, c) ∈ s.children) : s.child? l = some c := by
  obtain ⟨before, after, hsplit⟩ := List.append_of_mem h
  refine List.lookup_eq_some_iff.mpr ⟨before, after, hsplit, ?_⟩
  intro d hd
  have hnodup : (s.children.map (·.1)).Nodup := hs
  rw [hsplit, List.map_append, List.map_cons] at hnodup
  have hne := (List.nodup_append.mp hnodup).2.2 d.1 (List.mem_map_of_mem hd) l List.mem_cons_self
  simpa using fun h => hne h.symm

theorem at?_append (s : Schema) (p q : Position) :
    s.at? (p ++ q) = (s.at? p).bind fun c => c.at? q := by
  induction p generalizing s with
  | nil => rfl
  | cons l p ih =>
    rw [List.cons_append, at?, at?, Option.bind_assoc]
    exact congrArg _ (funext fun c => ih c)

theorem depth_child (h : s.child? l = some c) : c.depth < s.depth := by
  have hmem := mem_of_child? h
  cases s with
  | null => cases hmem
  | node k cs =>
    rw [depth]
    have hle : ∀ cs : List (Location × Schema), (l, c) ∈ cs → c.depth ≤ depthAll cs := by
      intro cs
      induction cs with
      | nil => exact nofun
      | cons d cs ih =>
        intro h
        rw [depthAll]
        rcases List.mem_cons.mp h with rfl | h
        · exact Nat.le_max_left _ _
        · exact Nat.le_trans (ih h) (Nat.le_max_right _ _)
    exact Nat.lt_succ_of_le (hle cs hmem)

theorem length_lt_depth {p : Position} (h : s.at? p = some c) : p.length < s.depth := by
  induction p generalizing s with
  | nil => cases s <;> simp [depth]
  | cons l p ih =>
    obtain ⟨d, hd, h⟩ := Option.bind_eq_some_iff.mp h
    have hlt := depth_child hd
    have := ih h
    rw [List.length_cons]
    omega

end Locations

/-! ### Recording -/

/-- Records in a schema, but not in null. -/
def recordIn (record : Record) (s : Schema) (n : Yaml.Node) : Schema :=
  if s.isNull then s else record n s

section Recording
variable {record : Record} {s : Schema}

theorem child?_recordAt (n : Yaml.Node) (l l' : Location) :
    (recordAt record n s l).child? l' =
      (s.child? l').map fun c => if l = l' then recordIn record c n else c := by
  unfold recordAt
  split
  · rename_i hnull
    by_cases hl : l = l'
    · subst hl
      simp [hnull, recordIn, isNull]
    · simp [hl]
  · rename_i c hnull hc
    rw [child?_setChild]
    by_cases hl : l = l'
    · subst hl
      have hfull : c.isNull = false := by
        cases c with
        | null => exact absurd rfl hnull
        | node => rfl
      simp [hc, recordIn, hfull]
    · have hne : l' ≠ l := fun h => hl h.symm
      simp [hl, hne]
  · rename_i hnone
    by_cases hl : l = l'
    · subst hl
      simp [hnone]
    · simp [hl]

theorem keywords_recordAt (n : Yaml.Node) (l : Location) :
    (recordAt record n s l).keywords = s.keywords := by
  unfold recordAt
  split <;> rfl

/-- Records at the places of several nodes, one after another. -/
def recordPlaced (record : Record) (s : Schema) (ns : List (Location × Yaml.Node)) : Schema :=
  ns.foldl (fun s n => recordAt record n.2 s n.1) s

theorem child?_recordPlaced (ns : List (Location × Yaml.Node)) (l : Location) :
    (recordPlaced record s ns).child? l =
      (s.child? l).map fun c => ((ns.filter (·.1 = l)).map (·.2)).foldl (recordIn record) c := by
  induction ns generalizing s with
  | nil => simp [recordPlaced]
  | cons n ns ih =>
    rw [recordPlaced, List.foldl_cons, ← recordPlaced, ih, child?_recordAt, Option.map_map]
    congr 1
    funext c
    by_cases hl : n.1 = l <;> simp [hl]

theorem keywords_recordPlaced (ns : List (Location × Yaml.Node)) :
    (recordPlaced record s ns).keywords = s.keywords := by
  induction ns generalizing s with
  | nil => rfl
  | cons n ns ih => exact ih.trans (keywords_recordAt _ _)

/-- What one key tells of the order of the schema itself. -/
def noteOrder (s : Schema) (key : String) (n : Yaml.Node) : Schema :=
  match key with
  | "properties" => s.mapKeywords ({ · with propertyOrder := some (keysOf n) })
  | "$defs" | "definitions" => s.addDefOrder (keysOf n)
  | _ => s

theorem child?_noteOrder (key : String) (n : Yaml.Node) (l : Location) :
    (s.noteOrder key n).child? l = s.child? l := by
  unfold noteOrder
  split <;> rfl

theorem propertyOrder_noteOrder (key : String) (n : Yaml.Node) :
    (s.noteOrder key n).keywords.propertyOrder =
      if key = "properties" then some (keysOf n) else s.keywords.propertyOrder := by
  unfold noteOrder
  split
  · rfl
  · rfl
  · rfl
  · simp_all

/-- A key tells the order of the schema itself, and leads to subschemas. -/
theorem recordKey_eq (key : String) (n : Yaml.Node) :
    recordKey record s key n = recordPlaced record (s.noteOrder key n) (placedUnder key n) := by
  have hmap : ∀ (s : Schema) (at_ : String → Location),
      recordMap record n s at_ = recordPlaced record s (placedUnder.map n at_) := by
    intro s at_
    rw [recordMap, recordPlaced, placedUnder.map, List.foldl_map]
  have hlist : ∀ at_ : Nat → Location,
      recordList record n s at_ = recordPlaced record s (placedUnder.list n at_) := by
    intro at_
    cases n with
    | sequence =>
      rw [recordPlaced, placedUnder.list, List.foldl_map]
      rfl
    | _ => rfl
  unfold recordKey
  split
  case h_1 | h_2 | h_3 | h_4 | h_5 => exact hmap _ _
  case h_13 | h_14 | h_15 | h_16 => exact hlist _
  case h_17 =>
    have hnote : s.noteOrder key n = s := by
      unfold noteOrder
      split <;> first | rfl | contradiction
    have hplaced : placedUnder key n = [] := by
      unfold placedUnder
      split <;> first | rfl | contradiction
    rw [hnote, hplaced]
    rfl
  all_goals rfl

variable {anchors : Yaml.Anchors} {fuel : Nat}

theorem child?_recordOrder (n : Yaml.Node) (l : Location) :
    (recordOrder anchors (fuel + 1) n s).child? l = (s.child? l).map fun c =>
      (nodesBelow anchors l n).foldl (recordIn (recordOrder anchors fuel)) c := by
  rw [recordOrder, nodesBelow, placed]
  generalize (dereference anchors n).entries = es
  induction es generalizing s with
  | nil => simp
  | cons e es ih =>
    rw [List.foldl_cons, ih, recordKey_eq, child?_recordPlaced, child?_noteOrder, Option.map_map]
    simp [Function.comp_def]

theorem propertyOrder_recordOrder (n : Yaml.Node) :
    (recordOrder anchors (fuel + 1) n s).keywords.propertyOrder =
      ((propertiesIn anchors n).getLast?.map keysOf).or s.keywords.propertyOrder := by
  rw [recordOrder, propertiesIn]
  generalize (dereference anchors n).entries = es
  induction es generalizing s with
  | nil => rfl
  | cons e es ih =>
    rw [List.foldl_cons, ih, recordKey_eq, keywords_recordPlaced, propertyOrder_noteOrder]
    by_cases he : e.1.text = "properties"
    · simp only [he, decide_true, List.filter_cons_of_pos, List.map_cons, List.getLast?_cons]
      cases ((es.filter (·.1.text = "properties")).map (·.2)).getLast? <;> simp
    · simp [he]

theorem isNull_recordPlaced (hs : s.isNull = false) (ns : List (Location × Yaml.Node)) :
    (recordPlaced record s ns).isNull = false := by
  induction ns generalizing s with
  | nil => exact hs
  | cons n ns ih =>
    apply ih
    change (recordAt record n.2 s n.1).isNull = false
    unfold recordAt
    split <;> first | exact hs | rfl

theorem isNull_recordOrder (hs : s.isNull = false) (n : Yaml.Node) :
    (recordOrder anchors fuel n s).isNull = false := by
  cases fuel with
  | zero => exact hs
  | succ fuel =>
    rw [recordOrder]
    generalize (dereference anchors n).entries = es
    induction es generalizing s with
    | nil => exact hs
    | cons e es ih =>
      rw [List.foldl_cons, recordKey_eq]
      apply ih
      apply isNull_recordPlaced
      unfold noteOrder
      split <;> first | exact hs | rfl

/-! ### Positions -/

/-- Records several nodes in one schema, one after another. -/
def recordNodes (anchors : Yaml.Anchors) (fuel : Nat) (ns : List Yaml.Node) (s : Schema) : Schema :=
  ns.foldl (recordIn (recordOrder anchors fuel)) s

theorem recordNodes_cons (hs : s.isNull = false) (n : Yaml.Node) (ns : List Yaml.Node) :
    recordNodes anchors fuel (n :: ns) s =
      recordNodes anchors fuel ns (recordOrder anchors fuel n s) := by
  rw [recordNodes, List.foldl_cons, recordIn, hs]
  rfl

theorem recordNodes_zero (ns : List Yaml.Node) : recordNodes anchors 0 ns s = s := by
  induction ns generalizing s with
  | nil => rfl
  | cons n ns ih =>
    cases s with
    | null => exact ih
    | node => exact ih

theorem recordNodes_null (ns : List Yaml.Node) : recordNodes anchors fuel ns .null = .null := by
  induction ns with
  | nil => rfl
  | cons n ns ih => exact ih

theorem child?_recordNodes (ns : List Yaml.Node) (l : Location) :
    (recordNodes anchors (fuel + 1) ns s).child? l =
      (s.child? l).map (recordNodes anchors fuel (ns.flatMap (nodesBelow anchors l))) := by
  cases hs : s.isNull with
  | true =>
    cases s with
    | null => rw [recordNodes_null]; rfl
    | node => cases hs
  | false =>
    induction ns generalizing s with
    | nil =>
      have hid : recordNodes anchors fuel [] = id := rfl
      rw [List.flatMap_nil, hid, Option.map_id]
      rfl
    | cons n ns ih =>
      rw [recordNodes_cons hs, ih (isNull_recordOrder hs n), child?_recordOrder, Option.map_map,
        List.flatMap_cons]
      congr 1
      funext c
      exact (List.foldl_append ..).symm

/-- What is recorded at a position is what the nodes at that position tell. -/
theorem at?_recordNodes (p : Position) (ns : List Yaml.Node) :
    (recordNodes anchors fuel ns s).at? p =
      (s.at? p).map (recordNodes anchors (fuel - p.length) (ns.flatMap (nodesAt anchors p))) := by
  induction p generalizing fuel ns s with
  | nil =>
    have hself : ns.flatMap (nodesAt anchors []) = ns := by simp [nodesAt]
    rw [hself]
    rfl
  | cons l p ih =>
    cases fuel with
    | zero =>
      have hid : recordNodes anchors 0 (ns.flatMap (nodesAt anchors (l :: p))) = id :=
        funext fun _ => recordNodes_zero _
      rw [recordNodes_zero, Nat.zero_sub, hid, Option.map_id]
      rfl
    | succ fuel =>
      rw [at?, at?, child?_recordNodes]
      cases s.child? l with
      | none => rfl
      | some c =>
        have hnodes : ns.flatMap (nodesAt anchors (l :: p)) =
            (ns.flatMap (nodesBelow anchors l)).flatMap (nodesAt anchors p) := by
          rw [List.flatMap_assoc]
          rfl
        rw [hnodes, List.length_cons, Nat.add_sub_add_right]
        exact ih _

theorem propertyOrder_recordNodes (hs : s.isNull = false) (ns : List Yaml.Node) :
    (recordNodes anchors (fuel + 1) ns s).keywords.propertyOrder =
      ((ns.flatMap (propertiesIn anchors)).getLast?.map keysOf).or s.keywords.propertyOrder := by
  induction ns generalizing s with
  | nil => rfl
  | cons n ns ih =>
    rw [recordNodes_cons hs, ih (isNull_recordOrder hs n), propertyOrder_recordOrder,
      List.flatMap_cons, List.getLast?_append, Option.map_or, Option.or_assoc]

end Recording

/-- The order known at a position is that of the last mapping of properties there. -/
theorem propertyOrder_withOrder {s t : Schema} {y : Option Yaml.Document} {p : Position}
    {m : Yaml.Node} (ht : (s.withOrder y).at? p = some t) (hnull : t.isNull = false)
    (hm : (propertiesAt y p).getLast? = some m) : t.keywords.propertyOrder = some (keysOf m) := by
  cases y with
  | none => cases hm
  | some y =>
    cases hs : s.isNull with
    | true =>
      cases s with
      | node => cases hs
      | null =>
        cases p with
        | nil =>
          cases ht
          cases hnull
        | cons => cases ht
    | false =>
      have hrecord : s.withOrder (some y) = recordNodes y.anchors s.depth [y.root] s := by
        rw [recordNodes_cons hs, withOrder, hs]
        rfl
      rw [hrecord, at?_recordNodes] at ht
      obtain ⟨c, hc, rfl⟩ := Option.map_eq_some_iff.mp ht
      have hdepth := length_lt_depth hc
      obtain ⟨fuel, hfuel⟩ := Nat.exists_eq_add_one.mpr (Nat.sub_pos_of_lt hdepth)
      rw [hfuel] at hnull ⊢
      have hfull : c.isNull = false := by
        cases c with
        | null => rwa [recordNodes_null] at hnull
        | node => rfl
      rw [propertyOrder_recordNodes hfull, List.flatMap_singleton]
      rw [propertiesAt] at hm
      rw [hm]
      rfl

end SchemaLoom.Schema

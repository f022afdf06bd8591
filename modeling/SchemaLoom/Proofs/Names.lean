import Mathlib.Data.List.Find
import SchemaLoom.Graph.Link
import SchemaLoom.Proofs.Result

/-!
# Declared names

Declaring the names of a document succeeds exactly when no name is empty, taken by
a built-in type or declared twice. What a name then denotes is read off the
document: the declaration with that name, else the built-in type.
-/

namespace SchemaLoom

set_option autoImplicit false

/-- What a name of a document denotes: its declaration, else a built-in type. -/
def Document.kind? (d : Document) (name : Text) : Option Kind :=
  if name ∈ d.scalars.map (·.name) then some .scalar
  else if name ∈ d.models.map (·.name) then some .model
  else if name ∈ d.enums.map (·.name) then some .enum
  else if name ∈ d.unions.map (·.name) then some .union
  else (builtInNodes.find? (·.name == name)).map (·.kind)

theorem mem_builtInNames {x : Text} : x ∈ builtInNames ↔ (Graph.builtin? x).isSome = true := by
  simp [Graph.builtin?, List.findIdx?_isSome]

namespace Graph

/-! ### The store -/

theorem node_of_node? {g : Graph} {i : NodeId} {n : Node} (h : g.node? i = some n) :
    g.node i = n := by simp [node, h]

theorem node_of_size_le {g : Graph} {i : NodeId} (h : g.nodes.size ≤ i) :
    g.node i = { kind := .unknown } := by
  simp [node, node?, Array.getElem?_eq_none h]

theorem node?_of_lt {g : Graph} {i : NodeId} (h : i < g.nodes.size) :
    g.node? i = some (g.node i) := by
  simp [node, node?, Array.getElem?_eq_getElem h]

theorem lt_of_node? {g : Graph} {i : NodeId} {n : Node} (h : g.node? i = some n) :
    i < g.nodes.size := (Array.getElem?_eq_some_iff.mp h).1

@[simp] theorem push_fst (g : Graph) (n : Node) : (g.push n).1 = g.nodes.size := rfl

@[simp] theorem size_push (g : Graph) (n : Node) :
    (g.push n).2.nodes.size = g.nodes.size + 1 := by simp [push]

@[simp] theorem declarations_push (g : Graph) (n : Node) :
    (g.push n).2.declarations = g.declarations := rfl

theorem node?_push (g : Graph) (n : Node) (i : NodeId) :
    (g.push n).2.node? i = if i = g.nodes.size then some n else g.node? i := by
  simp [push, node?, Array.getElem?_push]

theorem node_push_of_lt (g : Graph) (n : Node) {i : NodeId} (h : i < g.nodes.size) :
    (g.push n).2.node i = g.node i := by
  simp [node, node?_push, Nat.ne_of_lt h]

@[simp] theorem node_push_self (g : Graph) (n : Node) : (g.push n).2.node g.nodes.size = n := by
  simp [node, node?_push]

@[simp] theorem size_modify (g : Graph) (i : NodeId) (f : Node → Node) :
    (g.modify i f).nodes.size = g.nodes.size := by simp [modify]

@[simp] theorem declarations_modify (g : Graph) (i : NodeId) (f : Node → Node) :
    (g.modify i f).declarations = g.declarations := rfl

theorem node?_modify (g : Graph) (i : NodeId) (f : Node → Node) (j : NodeId) :
    (g.modify i f).node? j = if i = j then (g.node? j).map f else g.node? j := by
  simp [modify, node?, Array.getElem?_modify]

/-! ### Growing -/

/-- Nodes are added and bodies filled in; what is there keeps its kind and name. -/
structure Grows (g h : Graph) : Prop where
  declarations : h.declarations = g.declarations
  size_le : g.nodes.size ≤ h.nodes.size
  kind : ∀ i < g.nodes.size, (h.node i).kind = (g.node i).kind
  name : ∀ i < g.nodes.size, (h.node i).name = (g.node i).name

namespace Grows
variable {g h k : Graph}

theorem refl (g : Graph) : g.Grows g := ⟨rfl, Nat.le_refl _, fun _ _ => rfl, fun _ _ => rfl⟩

theorem trans (hgh : g.Grows h) (hhk : h.Grows k) : g.Grows k where
  declarations := hhk.declarations.trans hgh.declarations
  size_le := Nat.le_trans hgh.size_le hhk.size_le
  kind := fun i hi => (hhk.kind i (Nat.lt_of_lt_of_le hi hgh.size_le)).trans (hgh.kind i hi)
  name := fun i hi => (hhk.name i (Nat.lt_of_lt_of_le hi hgh.size_le)).trans (hgh.name i hi)

theorem push (g : Graph) (n : Node) : g.Grows (g.push n).2 where
  declarations := rfl
  size_le := by simp
  kind := fun i hi => by rw [node_push_of_lt g n hi]
  name := fun i hi => by rw [node_push_of_lt g n hi]

theorem modify (g : Graph) (i : NodeId) {f : Node → Node} (hkind : ∀ n, (f n).kind = n.kind)
    (hname : ∀ n, (f n).name = n.name) : g.Grows (g.modify i f) where
  declarations := rfl
  size_le := by simp
  kind := fun j hj => by
    rw [node, node?_modify, node?_of_lt hj]
    split <;> simp [hkind]
  name := fun j hj => by
    rw [node, node?_modify, node?_of_lt hj]
    split <;> simp [hname]

end Grows

/-- Declarations are nodes of the store. -/
def Kept (g : Graph) : Prop := ∀ i ∈ g.declarations, i < g.nodes.size

theorem Grows.kept {g h : Graph} (hgh : g.Grows h) (hg : g.Kept) : h.Kept := by
  intro i hi
  rw [hgh.declarations] at hi
  exact Nat.lt_of_lt_of_le (hg i hi) hgh.size_le

theorem Grows.declaration? {g h : Graph} (hgh : g.Grows h) (hg : g.Kept) (name : Text) :
    h.declaration? name = g.declaration? name := by
  unfold Graph.declaration?
  rw [hgh.declarations]
  apply List.find?_congr
  intro i hi
  simp only [nameOf, hgh.name i (hg i hi)]

theorem Grows.lookup? {g h : Graph} (hgh : g.Grows h) (hg : g.Kept) (name : Text) :
    h.lookup? name = g.lookup? name := by
  simp only [Graph.lookup?, hgh.declaration? hg]

theorem mem_of_declaration? {g : Graph} {name : Text} {i : NodeId}
    (h : g.declaration? name = some i) : i ∈ g.declarations ∧ (g.node i).name = name := by
  refine ⟨List.mem_of_find?_eq_some h, ?_⟩
  simpa [nameOf] using List.find?_some h

/-! ### Declaring names -/

/-- The names of the declarations, in order. -/
def names (g : Graph) : List Text := g.declarations.map g.nameOf

theorem isSome_declaration? {g : Graph} {name : Text} :
    (g.declaration? name).isSome = true ↔ name ∈ g.names := by
  simp [declaration?, names, List.find?_isSome]

/-- A name a document may declare. -/
structure Declarable (name : Text) : Prop where
  ne_nil : name ≠ []
  not_builtin : builtin? name = none

/-- A name that can still be declared. -/
def Free (g : Graph) (name : Text) : Prop := Declarable name ∧ name ∉ g.names

/-- The graph with more names, each declared as a node of a kind. -/
def withNames (g : Graph) (kind : Kind) (names : List Text) : Graph :=
  { nodes := g.nodes ++ (names.map fun name => { kind, name : Node }).toArray
    declarations := g.declarations ++ List.range' g.nodes.size names.length }

section WithNames
variable {g : Graph} {kind : Kind} {names : List Text}

theorem withNames_nil : g.withNames kind [] = g := by simp [withNames]

theorem withNames_cons (name : Text) :
    g.withNames kind (name :: names) = (g.withNames kind [name]).withNames kind names := by
  simp [withNames, List.range'_succ]

theorem size_withNames : (g.withNames kind names).nodes.size = g.nodes.size + names.length := by
  simp [withNames]

theorem kept_withNames (hg : g.Kept) : (g.withNames kind names).Kept := by
  intro i hi
  rw [size_withNames]
  rcases List.mem_append.mp hi with hi | hi
  · exact Nat.lt_of_lt_of_le (hg i hi) (Nat.le_add_right _ _)
  · exact (List.mem_range'_1.mp hi).2

theorem node?_withNames_of_lt {i : NodeId} (hi : i < g.nodes.size) :
    (g.withNames kind names).node? i = g.node? i := by
  simp [withNames, node?, Array.getElem?_append_left hi]

theorem node?_withNames_add {j : Nat} :
    (g.withNames kind names).node? (g.nodes.size + j) =
      names[j]?.map fun name => { kind, name : Node } := by
  simp [withNames, node?, Array.getElem?_append_right]

theorem declarations_withNames : (g.withNames kind names).declarations =
    g.declarations ++ List.range' g.nodes.size names.length := rfl

theorem map_node_withNames (hg : g.Kept) :
    (g.withNames kind names).declarations.map (g.withNames kind names).node =
      g.declarations.map g.node ++ names.map fun name => { kind, name : Node } := by
  have hold : ∀ i ∈ g.declarations, (g.withNames kind names).node i = g.node i := by
    intro i hi
    simp only [node, node?_withNames_of_lt (hg i hi)]
  have hnew : (List.range' g.nodes.size names.length).map (g.withNames kind names).node =
      names.map fun name => { kind, name : Node } := by
    rw [List.range'_eq_map_range, List.map_map]
    apply List.ext_getElem?
    intro j
    by_cases hj : j < names.length
    · simp [hj, node, node?_withNames_add]
    · simp [hj]
  rw [declarations_withNames, List.map_append, hnew, List.map_congr_left hold]

theorem names_withNames (hg : g.Kept) : (g.withNames kind names).names = g.names ++ names := by
  have hnodes := congrArg (List.map (·.name)) (@map_node_withNames g kind names hg)
  simp only [List.map_append, List.map_map, Function.comp_def, List.map_id'] at hnodes
  exact hnodes

theorem declare_push_eq_ok (hg : g.Kept) {name : Text} {h : Graph} :
    (g.push { kind, name }).2.declare g.nodes.size = .ok h ↔
      h = g.withNames kind [name] ∧ g.Free name := by
  have hgrow := Grows.push g { kind, name }
  have hname : (g.push { kind, name }).2.nameOf g.nodes.size = name := by simp [nameOf]
  have hsome : ((g.push { kind, name }).2.declaration? name).isSome = true ↔ name ∈ g.names := by
    rw [hgrow.declaration? hg, isSome_declaration?]
  have heq : { (g.push { kind, name }).2 with
      declarations := (g.push { kind, name }).2.declarations ++ [g.nodes.size] } =
      g.withNames kind [name] := by simp [push, withNames]
  simp only [declare, hname]
  constructor
  · intro hok
    split at hok
    · simp at hok
    · rename_i hempty
      split at hok
      · simp at hok
      · rename_i hnew
        split at hok
        · simp at hok
        · rename_i hstd
          cases hok
          refine ⟨heq, ⟨⟨by simpa using hempty, ?_⟩, fun hin => hnew (hsome.mpr hin)⟩⟩
          simpa using hstd
  · rintro ⟨rfl, hfree⟩
    rw [if_neg (by simpa using hfree.1.ne_nil), if_neg (fun hs => hfree.2 (hsome.mp hs)),
      if_neg (by simp [hfree.1.not_builtin]), heq]

/-- Names are declared exactly when all are free and none comes twice. -/
theorem declareAll_eq_ok (hg : g.Kept) {h : Graph} :
    g.declareAll kind names = .ok h ↔
      h = g.withNames kind names ∧ (∀ name ∈ names, g.Free name) ∧ names.Nodup := by
  induction names generalizing g with
  | nil =>
    simp only [declareAll, List.foldlM_nil, withNames_nil]
    constructor
    · intro hok
      cases hok
      simp
    · rintro ⟨rfl, _⟩
      rfl
  | cons name names ih =>
    have hstep : g.declareAll kind (name :: names) =
        (g.push { kind, name }).2.declare g.nodes.size >>= fun g => g.declareAll kind names := rfl
    rw [hstep, Result.bind_eq_ok, withNames_cons]
    constructor
    · rintro ⟨a, ha, hrest⟩
      obtain ⟨rfl, hfree⟩ := (declare_push_eq_ok hg).mp ha
      obtain ⟨rfl, hall, hnodup⟩ := (ih (kept_withNames hg)).mp hrest
      have hnew : ∀ x ∈ names, x ∉ g.names ∧ x ≠ name := by
        intro x hx
        have hnew := (hall x hx).2
        simpa [names_withNames hg] using hnew
      refine ⟨rfl, ?_, List.nodup_cons.mpr ⟨fun hmem => (hnew name hmem).2 rfl, hnodup⟩⟩
      intro x hx
      rcases List.mem_cons.mp hx with rfl | hx
      · exact hfree
      · exact ⟨(hall x hx).1, (hnew x hx).1⟩
    · rintro ⟨rfl, hall, hnodup⟩
      rw [List.nodup_cons] at hnodup
      refine ⟨_, (declare_push_eq_ok hg).mpr ⟨rfl, hall name List.mem_cons_self⟩,
        (ih (kept_withNames hg)).mpr ⟨rfl, ?_, hnodup.2⟩⟩
      intro x hx
      have hfree := hall x (List.mem_cons_of_mem _ hx)
      refine ⟨hfree.1, ?_⟩
      rw [names_withNames hg, List.mem_append, List.mem_singleton, not_or]
      refine ⟨hfree.2, ?_⟩
      rintro rfl
      exact hnodup.1 hx

theorem node_withNames_of_mem {i : NodeId} (hi : i ∈ List.range' g.nodes.size names.length) :
    ((g.withNames kind names).node i).kind = kind ∧
      ((g.withNames kind names).node i).name ∈ names := by
  obtain ⟨hle, hlt⟩ := List.mem_range'_1.mp hi
  obtain ⟨j, rfl⟩ := Nat.exists_eq_add_of_le hle
  have hj : j < names.length := Nat.lt_of_add_lt_add_left hlt
  have hnode : (g.withNames kind names).node (g.nodes.size + j) = { kind, name := names[j] } := by
    simp [node, node?_withNames_add, hj]
  simp [hnode]

theorem declaration?_withNames (hg : g.Kept) (name : Text) :
    (g.withNames kind names).declaration? name =
      (g.declaration? name).or ((List.range' g.nodes.size names.length).find? fun i =>
        (g.withNames kind names).nameOf i == name) := by
  have hold : ∀ i ∈ g.declarations, (g.withNames kind names).nameOf i = g.nameOf i := by
    intro i hi
    simp only [nameOf, node, node?_withNames_of_lt (hg i hi)]
  have hfind : g.declarations.find? (fun i => (g.withNames kind names).nameOf i == name) =
      g.declaration? name := by
    apply List.find?_congr
    intro i hi
    rw [hold i hi]
  rw [← hfind]
  exact List.find?_append

theorem kind_withNames (hg : g.Kept) (name : Text) :
    ((g.withNames kind names).declaration? name).map
        (fun i => ((g.withNames kind names).node i).kind) =
      ((g.declaration? name).map fun i => (g.node i).kind).or
        (if name ∈ names then some kind else none) := by
  rw [declaration?_withNames hg]
  cases hold : g.declaration? name with
  | some i =>
    have hi := hg i (mem_of_declaration? hold).1
    simp [node, node?_withNames_of_lt hi]
  | none =>
    simp only [Option.none_or, Option.map_none]
    cases hnew : (List.range' g.nodes.size names.length).find? fun i =>
        (g.withNames kind names).nameOf i == name with
    | some i =>
      have hmem : ((g.withNames kind names).node i).kind = kind ∧ _ :=
        node_withNames_of_mem (List.mem_of_find?_eq_some hnew)
      have heq : ((g.withNames kind names).node i).name = name := by
        simpa [nameOf] using List.find?_some hnew
      rw [heq] at hmem
      simp [hmem]
    | none =>
      have hnot : name ∉ names := by
        intro hmem
        obtain ⟨j, hj, rfl⟩ := List.getElem_of_mem hmem
        rw [List.find?_eq_none] at hnew
        refine hnew (g.nodes.size + j) (List.mem_range'_1.mpr ⟨?_, ?_⟩) ?_
        · exact Nat.le_add_right _ _
        · exact Nat.add_lt_add_left hj _
        · simp [nameOf, node, node?_withNames_add, hj]
      simp [hnot]

end WithNames

/-! ### Declaring a document -/

/-- The graph of the names of a document. -/
def ofNames (d : Document) : Graph :=
  (((empty.withNames .scalar (d.scalars.map (·.name))).withNames .model
    (d.models.map (·.name))).withNames .enum (d.enums.map (·.name))).withNames .union
    (d.unions.map (·.name))

theorem kept_empty : empty.Kept := by simp [Kept, empty]

theorem kept_ofNames (d : Document) : (ofNames d).Kept :=
  kept_withNames (kept_withNames (kept_withNames (kept_withNames kept_empty)))

theorem names_ofNames (d : Document) : (ofNames d).names = d.names := by
  simp only [ofNames, names_withNames kept_empty, names_withNames (kept_withNames kept_empty),
    names_withNames (kept_withNames (kept_withNames kept_empty)),
    names_withNames (kept_withNames (kept_withNames (kept_withNames kept_empty)))]
  rfl

theorem declareAll_bind_eq_ok {g h : Graph} (hg : g.Kept) {kind : Kind} {names : List Text}
    {f : Graph → Result Graph} :
    (g.declareAll kind names >>= f) = .ok h ↔
      (∀ name ∈ names, g.Free name) ∧ names.Nodup ∧ f (g.withNames kind names) = .ok h := by
  rw [Result.bind_eq_ok]
  constructor
  · rintro ⟨a, ha, hf⟩
    obtain ⟨rfl, hfree, hnodup⟩ := (declareAll_eq_ok hg).mp ha
    exact ⟨hfree, hnodup, hf⟩
  · rintro ⟨hfree, hnodup, hf⟩
    exact ⟨_, (declareAll_eq_ok hg).mpr ⟨rfl, hfree, hnodup⟩, hf⟩

/-- The names of a document are declared exactly when each can be and none comes twice. -/
theorem declareNames_eq_ok {d : Document} {g : Graph} :
    declareNames d = .ok g ↔
      g = ofNames d ∧ (∀ name ∈ d.names, Declarable name) ∧ d.names.Nodup := by
  have h₁ : (empty.withNames .scalar (d.scalars.map (·.name))).Kept := kept_withNames kept_empty
  have h₂ : (Graph.withNames _ .model (d.models.map (·.name))).Kept := kept_withNames h₁
  have h₃ : (Graph.withNames _ .enum (d.enums.map (·.name))).Kept := kept_withNames h₂
  have hnone : empty.names = [] := rfl
  unfold declareNames
  rw [declareAll_bind_eq_ok kept_empty, declareAll_bind_eq_ok h₁, declareAll_bind_eq_ok h₂,
    declareAll_eq_ok h₃]
  simp only [Free, names_withNames kept_empty, names_withNames h₁, names_withNames h₂, hnone,
    Document.names, List.nodup_append, List.mem_append, List.nil_append]
  constructor
  · rintro ⟨hs, hsn, hm, hmn, he, hen, rfl, hu, hun⟩
    refine ⟨rfl, ?_, ⟨⟨hsn, hmn, ?_⟩, hen, ?_⟩, hun, ?_⟩
    · rintro name (((h | h) | h) | h)
      · exact (hs name h).1
      · exact (hm name h).1
      · exact (he name h).1
      · exact (hu name h).1
    · rintro a ha b hb rfl
      exact (hm a hb).2 ha
    · rintro a ha b hb rfl
      exact (he a hb).2 ha
    · rintro a ha b hb rfl
      exact (hu a hb).2 ha
  · rintro ⟨rfl, hall, ⟨⟨hsn, hmn, hsm⟩, hen, hse⟩, hun, hsu⟩
    refine ⟨fun a ha => ⟨hall a (.inl (.inl (.inl ha))), by simp⟩, hsn,
      fun a ha => ⟨hall a (.inl (.inl (.inr ha))), fun hb => hsm a hb a ha rfl⟩, hmn,
      fun a ha => ⟨hall a (.inl (.inr ha)), fun hb => hse a hb a ha rfl⟩, hen, rfl,
      fun a ha => ⟨hall a (.inr ha), fun hb => hsu a hb a ha rfl⟩, hun⟩

/-! ### What names denote -/

theorem node?_ofNames_of_lt (d : Document) {i : NodeId} (hi : i < builtInNodes.length) :
    (ofNames d).node? i = builtInNodes[i]? := by
  have hlt : i < empty.nodes.size := by simpa [empty] using hi
  have hle : ∀ {g : Graph} {kind : Kind} {names : List Text}, i < g.nodes.size →
      i < (g.withNames kind names).nodes.size := by
    intro g kind names hg
    rw [size_withNames]
    exact Nat.lt_of_lt_of_le hg (Nat.le_add_right _ _)
  rw [ofNames, node?_withNames_of_lt (hle (hle (hle hlt))), node?_withNames_of_lt (hle (hle hlt)),
    node?_withNames_of_lt (hle hlt), node?_withNames_of_lt hlt]
  simp [empty, node?]

/-- A built-in type stands where its name does among the built-in names. -/
theorem builtin?_eq_some {name : Text} {i : NodeId} (h : builtin? name = some i) :
    i < builtInNodes.length ∧ builtInNodes[i]? = builtInNodes.find? (·.name == name) := by
  unfold builtin? builtInNames at h
  rw [List.findIdx?_map, List.findIdx?_eq_some_iff_getElem] at h
  obtain ⟨hi, heq, hfirst⟩ := h
  refine ⟨hi, ?_⟩
  rw [List.getElem?_eq_getElem hi, eq_comm, List.find?_eq_some_iff_getElem]
  refine ⟨heq, i, hi, rfl, ?_⟩
  intro j hj
  simpa using hfirst j hj

theorem builtin?_eq_none {name : Text} (h : builtin? name = none) :
    builtInNodes.find? (·.name == name) = none := by
  unfold builtin? builtInNames at h
  rw [List.findIdx?_map, List.findIdx?_eq_none_iff] at h
  rw [List.find?_eq_none]
  intro n hn
  simpa using h n hn

/-- What a name denotes in the graph of the names is what it denotes in the document. -/
theorem kind_lookup?_ofNames (d : Document) (name : Text) :
    ((ofNames d).lookup? name).map (fun i => ((ofNames d).node i).kind) = d.kind? name := by
  have hdecl : ((ofNames d).declaration? name).map (fun i => ((ofNames d).node i).kind) =
      if name ∈ d.scalars.map (·.name) then some .scalar
      else if name ∈ d.models.map (·.name) then some .model
      else if name ∈ d.enums.map (·.name) then some .enum
      else if name ∈ d.unions.map (·.name) then some .union else none := by
    have h₁ : (empty.withNames .scalar (d.scalars.map (·.name))).Kept := kept_withNames kept_empty
    have h₂ : (Graph.withNames _ .model (d.models.map (·.name))).Kept := kept_withNames h₁
    have h₃ : (Graph.withNames _ .enum (d.enums.map (·.name))).Kept := kept_withNames h₂
    unfold ofNames
    rw [kind_withNames h₃, kind_withNames h₂, kind_withNames h₁, kind_withNames kept_empty]
    have hnone : empty.declaration? name = none := rfl
    rw [hnone]
    split_ifs <;> rfl
  have hstd : (builtin? name).map (fun i => ((ofNames d).node i).kind) =
      (builtInNodes.find? (·.name == name)).map (·.kind) := by
    cases hb : builtin? name with
    | none => rw [builtin?_eq_none hb]; rfl
    | some i =>
      obtain ⟨hi, hfind⟩ := builtin?_eq_some hb
      rw [← hfind, List.getElem?_eq_getElem hi]
      simp [node, node?_ofNames_of_lt d hi, List.getElem?_eq_getElem hi]
  unfold lookup? Document.kind?
  rw [Option.map_or, hdecl, hstd]
  split_ifs <;> rfl

end Graph

end SchemaLoom

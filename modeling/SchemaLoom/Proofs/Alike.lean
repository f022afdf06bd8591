import SchemaLoom.Proofs.Linkable

/-!
# Alike graphs

Two graphs can say the same with their nodes at different positions. Declarations are
compared by name, built-in types by position, and anything else by what it holds.

While two documents are linked the graphs are not finished, and a declaration that is
filled in already in one may be empty in the other. So what is kept on the way is what
lasts: two nodes that will be the same however the declarations are filled in.
-/

namespace SchemaLoom

set_option autoImplicit false

/-! ### Lists and options -/

section Related
variable {α β : Type} {R S : α → β → Prop}

theorem optionRel_mono (h : ∀ a b, R a b → S a b) {x : Option α} {y : Option β}
    (hxy : Option.Rel R x y) : Option.Rel S x y := by
  cases hxy with
  | some hab => exact .some (h _ _ hab)
  | none => exact .none

theorem optionRel_or {x x' : Option α} {y y' : Option β} (h : Option.Rel R x y)
    (h' : Option.Rel R x' y') : Option.Rel R (x.or x') (y.or y') := by
  cases h with
  | some hab => exact .some hab
  | none => exact h'

theorem find?_forall₂ {p : α → Bool} {q : β → Bool} (hpq : ∀ a b, R a b → p a = q b)
    {xs : List α} {ys : List β} (h : List.Forall₂ R xs ys) :
    Option.Rel R (xs.find? p) (ys.find? q) := by
  induction h with
  | nil => exact .none
  | @cons a b xs ys hab _ ih =>
    rw [List.find?_cons, List.find?_cons, ← hpq a b hab]
    cases p a with
    | true => exact .some hab
    | false => exact ih

end Related

/-! ### Nodes -/

-- in the three relations `b` comes first, so that the nodes are indices: `Same` nests them

/-- Element shapes whose parts are related. -/
@[mk_iff]
inductive Indexer.Alike (R : NodeId → NodeId → Prop) : Indexer → Indexer → Prop
  | intro {b a : Indexer} : Option.Rel R a.key b.key → Option.Rel R a.value b.value → Alike R a b

/-- Encodings of one name whose types are related. -/
@[mk_iff]
inductive Encoding.Alike (R : NodeId → NodeId → Prop) : Encoding → Encoding → Prop
  | intro {b a : Encoding} : a.name = b.name → Option.Rel R a.type b.type → Alike R a b

/-- Nodes that differ at most in what they mention, and there by related nodes. -/
@[mk_iff]
inductive Node.Alike (R : NodeId → NodeId → Prop) : Node → Node → Prop
  | intro {b a : Node} (kind : a.kind = b.kind) (name : a.name = b.name)
      (builtIn : a.builtIn = b.builtIn) (base : Option.Rel R a.base b.base)
      (properties : List.Forall₂ R a.properties b.properties)
      (indexer : Option.Rel (Indexer.Alike R) a.indexer b.indexer)
      (variants : List.Forall₂ R a.variants b.variants)
      (discriminator : a.discriminator = b.discriminator)
      (members : List.Forall₂ R a.members b.members) (parent : Option.Rel R a.parent b.parent)
      (elements : List.Forall₂ R a.elements b.elements) (type : Option.Rel R a.type b.type)
      (optional : a.optional = b.optional) (default : a.default = b.default)
      (literal : a.literal = b.literal) (decorators : a.decorators = b.decorators)
      (encoding : Option.Rel (Encoding.Alike R) a.encoding b.encoding) : Alike R a b

namespace Node.Alike
variable {R S : NodeId → NodeId → Prop} {a b : Node}

theorem mono (h : ∀ i j, R i j → S i j) (hab : Alike R a b) : Alike S a b := by
  have hindexer : ∀ x y, Indexer.Alike R x y → Indexer.Alike S x y := by
    rintro x y ⟨hkey, hvalue⟩
    exact ⟨optionRel_mono h hkey, optionRel_mono h hvalue⟩
  have hencoding : ∀ x y, Encoding.Alike R x y → Encoding.Alike S x y := by
    rintro x y ⟨hname, htype⟩
    exact ⟨hname, optionRel_mono h htype⟩
  obtain ⟨hkind, hname, hbuiltIn, hbase, hproperties, hix, hvariants, hdiscriminator, hmembers,
    hparent, helements, htype, hoptional, hdefault, hliteral, hdecorators, henc⟩ := hab
  exact ⟨hkind, hname, hbuiltIn, optionRel_mono h hbase, hproperties.imp h,
    optionRel_mono hindexer hix, hvariants.imp h, hdiscriminator, hmembers.imp h,
    optionRel_mono h hparent, helements.imp h, optionRel_mono h htype, hoptional, hdefault,
    hliteral, hdecorators, optionRel_mono hencoding henc⟩

theorem kind_eq (h : Alike R a b) : a.kind = b.kind := by
  cases h
  assumption

theorem name_eq (h : Alike R a b) : a.name = b.name := by
  cases h
  assumption

theorem base_rel (h : Alike R a b) : Option.Rel R a.base b.base := by
  cases h
  assumption

theorem members_rel (h : Alike R a b) : List.Forall₂ R a.members b.members := by
  cases h
  assumption

theorem of_base (kind : Kind) (name : Text) (builtIn : Bool) (literal : Option Value)
    {base base' : Option NodeId} (h : Option.Rel R base base') :
    Alike R { kind, name, builtIn, literal, base }
      { kind, name, builtIn, literal, base := base' } := by
  simp [alike_iff, h]

end Node.Alike

namespace Graph

/-- Node `i` of one graph and node `j` of another say the same. -/
inductive Same (g h : Graph) : NodeId → NodeId → Prop
  | builtIn {i : NodeId} : i < builtInNodes.length → Same g h i i
  | declared {i j : NodeId} : i ∈ g.declarations → j ∈ h.declarations →
      g.nameOf i = h.nameOf j → Same g h i j
  | anonymous {i j : NodeId} : builtInNodes.length ≤ i → builtInNodes.length ≤ j →
      i ∉ g.declarations → j ∉ h.declarations → (g.node i).Alike (Same g h) (h.node j) →
      Same g h i j

/-! ### What changes -/

/-- Nodes are added, and of those that are there only declarations whose names are in `N`
change. -/
structure GrowsAt (N : Text → Prop) (g h : Graph) : Prop extends g.Grows h where
  same : ∀ i < g.nodes.size, (i ∈ g.declarations → ¬ N (g.nameOf i)) → h.node i = g.node i

abbrev Adds (g h : Graph) : Prop := GrowsAt (fun _ => False) g h

abbrev Fills (g h : Graph) : Prop := GrowsAt (fun _ => True) g h

section Changes
variable {g h k : Graph} {M N : Text → Prop}

theorem GrowsAt.refl (N : Text → Prop) (g : Graph) : GrowsAt N g g := ⟨.refl g, fun _ _ _ => rfl⟩

theorem GrowsAt.trans (hgh : GrowsAt N g h) (hhk : GrowsAt N h k) : GrowsAt N g k where
  toGrows := hgh.toGrows.trans hhk.toGrows
  same := by
    intro i hi hnot
    rw [hhk.same i (Nat.lt_of_lt_of_le hi hgh.size_le), hgh.same i hi hnot]
    intro hmem
    rw [hgh.declarations] at hmem
    rw [nameOf, hgh.name i hi]
    exact hnot hmem

theorem GrowsAt.mono (h : ∀ x, M x → N x) {k : Graph} (hgk : GrowsAt M g k) : GrowsAt N g k where
  toGrows := hgk.toGrows
  same := fun i hi hnot => hgk.same i hi fun hmem hM => hnot hmem (h _ hM)

theorem GrowsAt.fills (hgk : GrowsAt N g k) : g.Fills k := hgk.mono fun _ _ => trivial

theorem Adds.growsAt (hgk : g.Adds k) : GrowsAt N g k := hgk.mono nofun

theorem Adds.node (hgk : g.Adds k) {i : NodeId} (hi : i < g.nodes.size) : k.node i = g.node i :=
  hgk.same i hi fun _ => id

theorem GrowsAt.push (g : Graph) (n : Node) : GrowsAt N g (g.push n).2 where
  toGrows := .push g n
  same := fun _ hi _ => node_push_of_lt g n hi

theorem node_modify_of_ne {i j : NodeId} (hij : i ≠ j) (f : Node → Node) :
    (g.modify i f).node j = g.node j := by
  rw [node, node?_modify, if_neg hij, node]

theorem node_modify_self {i : NodeId} (hi : i < g.nodes.size) (f : Node → Node) :
    (g.modify i f).node i = f (g.node i) := by
  rw [node, node?_modify, if_pos rfl, node?_of_lt hi]
  rfl

theorem GrowsAt.modify {i : NodeId} (hi : i ∈ g.declarations) {f : Node → Node}
    (hkind : ∀ n, (f n).kind = n.kind) (hname : ∀ n, (f n).name = n.name) :
    GrowsAt (· = g.nameOf i) g (g.modify i f) where
  toGrows := .modify g i hkind hname
  same := by
    intro j _ hnot
    apply node_modify_of_ne
    rintro rfl
    exact hnot hi rfl

end Changes

/-! ### What lasts -/

/-- Two nodes are the same, and stay the same however declarations are filled in. -/
def Lasting (g h : Graph) (i j : NodeId) : Prop :=
  ∀ k l, g.Fills k → h.Fills l → k.Same l i j

section Lasting
variable {g h k l : Graph} {i j : NodeId}

theorem Lasting.same (hij : g.Lasting h i j) : g.Same h i j := hij g h (.refl _ g) (.refl _ h)

theorem Lasting.fills (hij : g.Lasting h i j) (hgk : g.Fills k) (hhl : h.Fills l) :
    k.Lasting l i j := fun k' l' hk hl => hij k' l' (hgk.trans hk) (hhl.trans hl)

/-- Alike nodes that are added without being declared. -/
theorem Lasting.push {n m : Node} (hg : g.Kept) (hh : h.Kept)
    (hgsize : builtInNodes.length ≤ g.nodes.size) (hhsize : builtInNodes.length ≤ h.nodes.size)
    (hnm : n.Alike (g.Lasting h) m) :
    (g.push n).2.Lasting (h.push m).2 (g.push n).1 (h.push m).1 := by
  intro k l hk hl
  have hgnot : g.nodes.size ∉ g.declarations := fun hmem => Nat.lt_irrefl _ (hg _ hmem)
  have hhnot : h.nodes.size ∉ h.declarations := fun hmem => Nat.lt_irrefl _ (hh _ hmem)
  have hgnode : k.node g.nodes.size = n := by
    rw [hk.same _ (by simp) fun hmem => absurd hmem hgnot, node_push_self]
  have hhnode : l.node h.nodes.size = m := by
    rw [hl.same _ (by simp) fun hmem => absurd hmem hhnot, node_push_self]
  refine .anonymous hgsize hhsize ?_ ?_ ?_
  · rw [hk.declarations]
    exact hgnot
  · rw [hl.declarations]
    exact hhnot
  · rw [push_fst, push_fst, hgnode, hhnode]
    exact hnm.mono fun i j hij =>
      hij k l ((GrowsAt.push g n).trans hk) ((GrowsAt.push h m).trans hl)

end Lasting

end Graph

/-! ### Documents with the same declarations -/

/-- The documents have the same declarations, those of one kind in any order. -/
structure Document.Permuted (d e : Document) : Prop where
  scalars : d.scalars.Perm e.scalars
  models : d.models.Perm e.models
  enums : d.enums.Perm e.enums
  unions : d.unions.Perm e.unions

namespace Document.Permuted
variable {d e : Document}

theorem symm (h : d.Permuted e) : e.Permuted d :=
  ⟨h.scalars.symm, h.models.symm, h.enums.symm, h.unions.symm⟩

theorem names (h : d.Permuted e) : d.names.Perm e.names :=
  (((h.scalars.map _).append (h.models.map _)).append (h.enums.map _)).append (h.unions.map _)

theorem kind? (h : d.Permuted e) (name : Text) : d.kind? name = e.kind? name := by
  simp only [Document.kind?, (h.scalars.map (·.name)).mem_iff, (h.models.map (·.name)).mem_iff,
    (h.enums.map (·.name)).mem_iff, (h.unions.map (·.name)).mem_iff]

end Document.Permuted

namespace Graph

/-- Two graphs on the way from the same declarations. -/
structure Paired (d e : Document) (g h : Graph) : Prop where
  permuted : d.Permuted e
  left : Linking d g
  right : Linking e h

/-- What a name denotes is alike in both graphs. -/
def AlikeAt (g h : Graph) (name : Text) : Prop :=
  ∀ i j, g.lookup? name = some i → h.lookup? name = some j →
    (g.node i).Alike (g.Lasting h) (h.node j)

section Paired
variable {d e : Document} {g h k l : Graph} {name : Text} {i j : NodeId}

theorem Linking.lookup?_of_mem (hg : Linking d g) (hname : name ∈ d.names) :
    g.declared name ∈ g.declarations ∧ g.nameOf (g.declared name) = name ∧
      g.lookup? name = some (g.declared name) := by
  obtain ⟨i, hi, hnameOf, hdecl⟩ := hg.declaration? hname
  have heq : g.declared name = i := by rw [Graph.declared, hdecl]; rfl
  rw [heq]
  exact ⟨hi, hnameOf, by rw [lookup?, hdecl]; rfl⟩

theorem Linking.lookup?_of_not_mem (hg : Linking d g) (hname : name ∉ d.names) :
    g.lookup? name = builtin? name := by
  rw [← hg.names, ← isSome_declaration?, Bool.not_eq_true, Option.isSome_eq_false_iff,
    Option.isNone_iff_eq_none] at hname
  rw [lookup?, hname]
  rfl

/-- A built-in type stays as it is but for what it holds. -/
theorem Linking.builtIn_node (hg : Linking d g) (hi : i < builtInNodes.length) :
    (g.node i).kind = (empty.node i).kind ∧ (g.node i).name = (empty.node i).name := by
  have hlt : i < (ofNames d).nodes.size :=
    Nat.lt_of_lt_of_le hi (fit_ofNames hg.declarable).size_le
  have hnode : (ofNames d).node i = empty.node i := by
    rw [node, node?_ofNames_of_lt d hi]
    simp [node, node?, empty]
  rw [hg.grows.kind i hlt, hg.grows.name i hlt, hnode]
  exact ⟨rfl, rfl⟩

theorem Linking.kind_declared (hg : Linking d g) (hi : i ∈ g.declarations) :
    d.kind? (g.nameOf i) = some (g.node i).kind := by
  have hname : g.nameOf i ∈ d.names := by
    rw [← hg.names]
    exact List.mem_map_of_mem hi
  obtain ⟨hmem, hnameOf, hlookup⟩ := hg.lookup?_of_mem hname
  rw [← hg.kind_lookup?, hlookup, Option.map_some, hg.eq_of_nameOf hmem hi hnameOf]

theorem Linking.nameOf_lookup? (hg : Linking d g) (hi : g.lookup? name = some i) :
    g.nameOf i = name := by
  by_cases hname : name ∈ d.names
  · obtain ⟨_, hnameOf, hlookup⟩ := hg.lookup?_of_mem hname
    rw [hlookup] at hi
    cases hi
    exact hnameOf
  · rw [hg.lookup?_of_not_mem hname] at hi
    obtain ⟨hlt, hfind⟩ := builtin?_eq_some hi
    rw [List.getElem?_eq_getElem hlt, eq_comm] at hfind
    have hfound : (empty.node i).name = name := by
      have hnode : empty.node i = builtInNodes[i] := by simp [node, node?, empty, hlt]
      rw [hnode]
      simpa using List.find?_some hfind
    rw [nameOf, (hg.builtIn_node hlt).2, hfound]

theorem Linking.declared_grows (hg : Linking d g) (hname : name ∈ d.names) (hgk : g.Grows k) :
    k.declared name = g.declared name := by
  obtain ⟨i, _, _, hi⟩ := hg.declaration? hname
  simp only [Graph.declared, hgk.declaration? hg.fit.kept, hi, Option.getD_some]

/-- A declaration is filled in after nodes were added. -/
theorem GrowsAt.fill (hg : Linking d g) (hname : name ∈ d.names) (hgk : g.Adds k)
    {f : Node → Node} (hkind : ∀ n, (f n).kind = n.kind) (hnamed : ∀ n, (f n).name = n.name) :
    GrowsAt (· = name) g (k.modify (k.declared name) f) := by
  obtain ⟨hmem, hnameOf, _⟩ := hg.lookup?_of_mem hname
  have hk : k.nameOf (g.declared name) = name := by
    rw [nameOf, hgk.name _ (hg.fit.kept _ hmem)]
    exact hnameOf
  rw [← hgk.declarations] at hmem
  have hmodify := GrowsAt.modify hmem hkind hnamed
  rw [hk] at hmodify
  rw [hg.declared_grows hname hgk.toGrows]
  exact hgk.growsAt.trans hmodify

namespace Paired

/-- A name denotes the same in both graphs. -/
theorem lookup? (h' : Paired d e g h) (name : Text) :
    Option.Rel (g.Lasting h) (g.lookup? name) (h.lookup? name) := by
  by_cases hname : name ∈ d.names
  · obtain ⟨hi, hiname, hg⟩ := h'.left.lookup?_of_mem hname
    obtain ⟨hj, hjname, hh⟩ := h'.right.lookup?_of_mem (h'.permuted.names.mem_iff.mp hname)
    rw [hg, hh]
    refine .some ?_
    intro k l hk hl
    refine .declared ?_ ?_ ?_
    · rwa [hk.declarations]
    · rwa [hl.declarations]
    · rw [nameOf, hk.name _ (h'.left.fit.kept _ hi), nameOf, hl.name _ (h'.right.fit.kept _ hj)]
      exact hiname.trans hjname.symm
  · rw [h'.left.lookup?_of_not_mem hname,
      h'.right.lookup?_of_not_mem (mt h'.permuted.names.mem_iff.mpr hname)]
    cases hb : builtin? name with
    | none => exact .none
    | some i => exact .some fun _ _ _ _ => .builtIn (builtin?_eq_some hb).1

theorem eq_of_same (h' : Paired d e g h) (hij : g.Same h i j) :
    (g.node i).kind = (h.node j).kind ∧ g.nameOf i = h.nameOf j := by
  cases hij with
  | builtIn hi =>
    obtain ⟨hgkind, hgname⟩ := h'.left.builtIn_node hi
    obtain ⟨hhkind, hhname⟩ := h'.right.builtIn_node hi
    exact ⟨hgkind.trans hhkind.symm, hgname.trans hhname.symm⟩
  | declared hi hj hname =>
    refine ⟨?_, hname⟩
    have hkind := h'.permuted.kind? (g.nameOf i)
    rw [h'.left.kind_declared hi, hname, h'.right.kind_declared hj] at hkind
    exact Option.some.inj hkind
  | anonymous _ _ _ _ hnodes => exact ⟨hnodes.kind_eq, hnodes.name_eq⟩

end Paired

/-- What is alike stays alike while other declarations are filled in. -/
theorem AlikeAt.growsAt (hgh : Paired d e g h) (halike : AlikeAt g h name)
    (hgk : GrowsAt (· ≠ name) g k) (hhl : GrowsAt (· ≠ name) h l) : AlikeAt k l name := by
  intro i j hi hj
  rw [hgk.lookup? hgh.left.fit.kept] at hi
  rw [hhl.lookup? hgh.right.fit.kept] at hj
  rw [hgk.same i (hgh.left.fit.lookup?_lt hi) fun _ hne => hne (hgh.left.nameOf_lookup? hi),
    hhl.same j (hgh.right.fit.lookup?_lt hj) fun _ hne => hne (hgh.right.nameOf_lookup? hj)]
  exact (halike i j hi hj).mono fun _ _ hab => hab.fills hgk.fills hhl.fills

theorem AlikeAt.modify (hgh : Paired d e g h) (hname : name ∈ d.names) {f f' : Node → Node}
    (hkind : ∀ n, (f n).kind = n.kind) (hnamed : ∀ n, (f n).name = n.name)
    (hkind' : ∀ n, (f' n).kind = n.kind) (hnamed' : ∀ n, (f' n).name = n.name)
    (hf : ∀ n m, n.Alike (g.Lasting h) m → (f n).Alike (g.Lasting h) (f' m))
    (halike : AlikeAt g h name) :
    AlikeAt (g.modify (g.declared name) f) (h.modify (h.declared name) f') name := by
  obtain ⟨hi, hiname, hg⟩ := hgh.left.lookup?_of_mem hname
  obtain ⟨hj, hjname, hh⟩ := hgh.right.lookup?_of_mem (hgh.permuted.names.mem_iff.mp hname)
  have hleft := GrowsAt.modify hi hkind hnamed
  have hright := GrowsAt.modify hj hkind' hnamed'
  intro a b ha hb
  rw [hleft.lookup? hgh.left.fit.kept, hg] at ha
  rw [hright.lookup? hgh.right.fit.kept, hh] at hb
  cases ha
  cases hb
  rw [node_modify_self (hgh.left.fit.kept _ hi), node_modify_self (hgh.right.fit.kept _ hj)]
  exact (hf _ _ (halike _ _ hg hh)).mono fun _ _ hab => hab.fills hleft.fills hright.fills

end Paired

end Graph

end SchemaLoom

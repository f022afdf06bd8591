import SchemaLoom.Proofs.Assembly
import SchemaLoom.Proofs.Expansion
import SchemaLoom.Proofs.Inheritance

/-!
# Built-in scalars

Linking leaves the built-in scalars alone and makes no others: a scalar of a linked graph
is one of them, as it was, or it is declared. So what is built in on a base chain can be
read off the built-in types, whatever the document declares.

Arrays and maps are built in as well, but no scalar derives from them.
-/

namespace SchemaLoom

set_option autoImplicit false

namespace Graph
open Result

variable {d : Document} {g h k : Graph}

/-! ### No scalar is added -/

/-- Nodes are added and bodies filled in; none of the nodes that are added is a scalar. -/
structure AddsNoScalar (g k : Graph) : Prop extends g.Grows k where
  fresh : ∀ i, g.nodes.size ≤ i → (k.node i).kind ≠ .scalar

namespace AddsNoScalar

theorem refl (g : Graph) : AddsNoScalar g g where
  toGrows := .refl g
  fresh := by
    intro i hi
    rw [node_of_size_le hi]
    simp

theorem trans (hgh : AddsNoScalar g h) (hhk : AddsNoScalar h k) : AddsNoScalar g k where
  toGrows := hgh.toGrows.trans hhk.toGrows
  fresh := by
    intro i hi
    by_cases hlt : i < h.nodes.size
    · rw [hhk.kind i hlt]
      exact hgh.fresh i hi
    · exact hhk.fresh i (Nat.le_of_not_lt hlt)

theorem push {n : Node} (hn : n.kind ≠ .scalar) : AddsNoScalar g (g.push n).2 where
  toGrows := .push g n
  fresh := by
    intro i hi
    rw [node, node?_push]
    split
    · exact hn
    · rw [← node, node_of_size_le hi]
      simp

theorem modify (i : NodeId) {f : Node → Node} (hkind : ∀ n, (f n).kind = n.kind)
    (hname : ∀ n, (f n).name = n.name) : AddsNoScalar g (g.modify i f) where
  toGrows := .modify g i hkind hname
  fresh := by
    intro j hj
    rw [node_of_size_le (by simpa using hj)]
    simp

end AddsNoScalar

theorem kind_ne_of_appended {Q : List Property → Prop} {n : Node} (hn : n.Appended Q g) :
    n.kind ≠ .scalar := by
  cases hn with
  | literal v hkind => rcases hkind with rfl | rfl | rfl <;> simp
  | array elem => simp [arrayNode]
  | record value => simp [recordNode]
  | property t _ _ => simp [propertyNode]
  | _ => simp

theorem Change.addsNoScalar (hgh : Change d g h) : AddsNoScalar g h := by
  cases hgh with
  | append hgh =>
    cases hgh with
    | intro hn => exact .push (kind_ne_of_appended hn)
  | copy src _ => exact .modify _ (fun _ => rfl) fun _ => rfl
  | _ => exact .modify _ (fun _ => rfl) fun _ => rfl

theorem addsNoScalar_of_link (hok : link d = .ok g) : AddsNoScalar (ofNames d) g :=
  (changes_of_link hok).preserves (P := AddsNoScalar (ofNames d))
    (fun _ _ hadds hchange => hadds.trans hchange.addsNoScalar) (.refl _)

/-! ### Nothing but declarations changes -/

theorem linkBodies_fills (hg : Linking d g) (hok : g.linkBodies d = .ok h) : g.Fills h := by
  obtain ⟨a, ha, hok⟩ := bind_eq_ok.mp hok
  obtain ⟨b, hb, hok⟩ := bind_eq_ok.mp hok
  obtain ⟨hlinked, hscalars⟩ := (steps_linkScalar d).run hg ha
  obtain ⟨hlinked, henums⟩ := (steps_linkEnum d).run hlinked
    (List.foldlM_pure (f := linkEnum) (l := d.enums))
  obtain ⟨hlinked, hmodels⟩ := (steps_linkModel d _).run (.refl hlinked) hb
  obtain ⟨_, hunions⟩ := (steps_linkUnion d _).run (.refl hlinked.linking) hok
  exact ((hscalars.fills.trans henums.fills).trans hmodels.fills).trans hunions.fills

/-! ### Linked graphs -/

/-- The built-in types are as they were, and no other scalar is built in. -/
structure Standard (g : Graph) : Prop extends Linked g where
  same : ∀ i < builtInNodes.length, g.node i = empty.node i
  only : ∀ i, (g.node i).kind = .scalar → (g.node i).builtIn = true → i < builtInNodes.length

theorem lt_of_builtIn_ofNames (d : Document) {i : NodeId}
    (h : ((ofNames d).node i).builtIn = true) : i < builtInNodes.length := by
  obtain ⟨kind, name, builtIn, base, hn, _, hlt⟩ := unlinked_ofNames d i
  rw [hn] at h
  exact hlt h

theorem standard_of_link (h : link d = .ok g) : g.Standard := by
  obtain ⟨b, hnames, hb, hbodies, hcopies, hg, _⟩ := link_phases h
  have hfills : (ofNames d).Fills g :=
    (linkBodies_fills hnames hb).trans (expandCopies_expanded hbodies hcopies).onward.fills
  have hadds := addsNoScalar_of_link h
  have hkept : ∀ i < builtInNodes.length, g.node i = (ofNames d).node i := by
    intro i hi
    refine hfills.same i (Nat.lt_of_lt_of_le hi hnames.fit.size_le) fun hmem => ?_
    -- no declaration has the name of a built-in type
    have hname : (ofNames d).nameOf i ∈ d.names := by
      rw [← names_ofNames d]
      exact List.mem_map_of_mem hmem
    have hnone := (hnames.declarable _ hname).not_builtin
    rw [nameOf, (hnames.builtIn_node hi).2] at hnone
    have hsome : ∀ i < builtInNodes.length, builtin? (empty.node i).name ≠ none := by decide
    exact absurd hnone (hsome i hi)
  refine ⟨linked_of_link h, ?_, ?_⟩
  · intro i hi
    rw [hkept i hi, node, node?_ofNames_of_lt d hi]
    simp [node, node?, empty]
  · intro i hkind hbuiltIn
    have hlt : i < (ofNames d).nodes.size := by
      by_contra hge
      exact hadds.fresh i (Nat.le_of_not_lt hge) hkind
    have hnot : i ∉ (ofNames d).declarations := by
      rw [← hfills.declarations]
      intro hmem
      have hreferred := (hg.fit.fits_of_lt (hg.fit.kept i hmem)).declared_iff.mpr hmem
      simp [Node.isReferred, hbuiltIn] at hreferred
    rw [hfills.same i hlt fun hmem => absurd hmem hnot] at hbuiltIn
    exact lt_of_builtIn_ofNames d hbuiltIn

/-! ### Base chains -/

section Chains
variable {n a : NodeId}

theorem Linked.baseChain_cons (hg : g.Linked) (hn : n < g.nodes.size)
    (hbase : (g.node n).base = some a) : g.baseChain n = n :: g.baseChain a := by
  have hlen : (g.ancestors (g.nodes.size + 1) n).length ≤ g.nodes.size := by
    simpa [baseLoops] using baseLoops_eq_false_iff.mpr (hg.base_ends hn)
  rw [baseChain, ← ancestors_succ hlen, ancestors, node?_of_lt hn]
  simp only [hbase, baseChain]

theorem baseChain_last (hn : n < g.nodes.size) (hbase : (g.node n).base = none) :
    g.baseChain n = [n] := by
  rw [baseChain_of_lt hn, hbase]

theorem linked_empty : empty.Linked := ⟨fit_empty, by simp [empty]⟩

theorem size_empty : empty.nodes.size = builtInNodes.length := by simp [empty]

/-- A built-in type has the ancestors it always has. -/
theorem Standard.baseChain_builtIn (hg : g.Standard) (ha : a < builtInNodes.length) :
    g.baseChain a = empty.baseChain a := by
  induction a using Nat.strong_induction_on with
  | _ a ih =>
    have hlt : a < g.nodes.size := Nat.lt_of_lt_of_le ha hg.size_le
    have hlt' : a < empty.nodes.size := by rwa [size_empty]
    cases hbase : (empty.node a).base with
    | none =>
      rw [baseChain_last hlt' hbase, baseChain_last hlt (by rw [hg.same a ha, hbase])]
    | some b =>
      have hba : b < a := by
        rcases node?_empty (node?_of_lt hlt') with ⟨name, base, heq, hlower⟩ | ⟨name, heq, _⟩
        · rw [heq] at hbase
          exact (hlower b hbase).1
        · rw [heq] at hbase
          cases hbase
      rw [linked_empty.baseChain_cons hlt' hbase,
        hg.toLinked.baseChain_cons hlt (by rw [hg.same a ha, hbase]),
        ih b hba (Nat.lt_trans hba ha)]

theorem Standard.derives_builtIn (hg : g.Standard) (ha : a < builtInNodes.length) (name : Text) :
    g.derives a name = empty.derives a name := by
  rw [derives, hg.baseChain_builtIn ha, derives, Bool.eq_iff_iff, List.any_eq_true,
    List.any_eq_true]
  apply exists_congr
  intro x
  apply and_congr_right
  intro hx
  rw [hg.same x (by rw [← size_empty]; exact lt_of_mem_ancestors hx)]

theorem builtInBase?_self (hn : n < g.nodes.size) (hkind : (g.node n).kind = .scalar)
    (hbuiltIn : (g.node n).builtIn = true) : g.builtInBase? n = some n := by
  rw [builtInBase?, baseChain_of_lt hn]
  simp [hkind, hbuiltIn]

theorem Linked.builtInBase?_of_base (hg : g.Linked) (hn : n < g.nodes.size)
    (hkind : (g.node n).kind = .scalar) (hbuiltIn : ¬ (g.node n).builtIn = true)
    (hbase : (g.node n).base = some a) : g.builtInBase? n = g.builtInBase? a := by
  rw [builtInBase?, hg.baseChain_cons hn hbase, List.dropWhile_cons_of_pos]
  · rfl
  · simp [hkind, hbuiltIn]

theorem Linked.derives_of_base (hg : g.Linked) (hn : n < g.nodes.size)
    (hbuiltIn : ¬ (g.node n).builtIn = true) (hbase : (g.node n).base = some a) (name : Text) :
    g.derives n name = g.derives a name := by
  rw [derives, hg.baseChain_cons hn hbase, List.any_cons]
  simp [hbuiltIn, derives]

/-- The nearest built-in scalar says what a scalar derives from; without one it is nothing. -/
theorem Standard.nearest (hg : g.Standard) (hn : n < g.nodes.size)
    (hkind : (g.node n).kind = .scalar) :
    (g.builtInBase? n = none ∧ ∀ name, g.derives n name = false) ∨
      ∃ a < builtInNodes.length, g.builtInBase? n = some a ∧
        ∀ name, g.derives n name = empty.derives a name := by
  induction hg.base_ends hn with
  | @last n hbase =>
    by_cases hbuiltIn : (g.node n).builtIn = true
    · have ha := hg.only n hkind hbuiltIn
      exact .inr ⟨n, ha, builtInBase?_self hn hkind hbuiltIn, hg.derives_builtIn ha⟩
    · refine .inl ⟨?_, fun name => ?_⟩
      · simp [builtInBase?, baseChain_last hn hbase, hkind, hbuiltIn]
      · simp [derives, baseChain_last hn hbase, hbuiltIn]
  | @step n b hbase _ ih =>
    by_cases hbuiltIn : (g.node n).builtIn = true
    · have ha := hg.only n hkind hbuiltIn
      exact .inr ⟨n, ha, builtInBase?_self hn hkind hbuiltIn, hg.derives_builtIn ha⟩
    · have hfits := hg.fits_of_lt hn
      have hb := hfits.lt b (Node.mem_mentions_of_base hbase)
      rw [hg.toLinked.builtInBase?_of_base hn hkind hbuiltIn hbase]
      simp only [hg.toLinked.derives_of_base hn hbuiltIn hbase]
      exact ih hb ((hfits.base b hbase).2.trans hkind)

end Chains

end Graph

end SchemaLoom

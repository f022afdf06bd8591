import Mathlib.Data.List.Nodup
import Mathlib.Data.List.Perm.Subperm
import Mathlib.Logic.Relation
import SchemaLoom.Expr.Scalar
import SchemaLoom.Proofs.Linked

/-!
# Chains of bases, of carriers and of elements

Two recursions follow one node to the next with nothing to stop them: from a scalar
to the type that carries it, and from an array to its elements. Each comes to an end
exactly when its chain does, and a chain that ends has no more steps than the graph
has nodes. The chain of bases always ends in a linked graph, also from nodes that
are not declared.
-/

namespace SchemaLoom

set_option autoImplicit false

open Result

/-- Following `next` comes to an end. -/
inductive Ends {α : Type} (next : α → Option α) : α → Prop
  | last {n : α} : next n = none → Ends next n
  | step {n m : α} : next n = some m → Ends next m → Ends next n

/-- Following `next` from a node comes to an end within `fuel` nodes. -/
def endsWithin (next : NodeId → Option NodeId) : Nat → NodeId → Bool
  | 0, _ => false
  | fuel + 1, n =>
    match next n with
    | none => true
    | some m => endsWithin next fuel m

section Ends

theorem Ends.later {α : Type} {next : α → Option α} {n m : α} (h : Ends next n)
    (hnext : next n = some m) : Ends next m := by
  cases h with
  | last hnone =>
    rw [hnext] at hnone
    cases hnone
  | step hstep hends =>
    rw [hnext] at hstep
    cases hstep
    exact hends

theorem Ends.not_loop {α : Type} {next : α → Option α} {n : α} (h : Ends next n) :
    ¬ Relation.TransGen (fun a b => next a = some b) n n := by
  induction h with
  | last hnone =>
    intro hloop
    obtain ⟨_, hstep, _⟩ := Relation.TransGen.head'_iff.mp hloop
    rw [hnone] at hstep
    cases hstep
  | @step n m hnext _ ih =>
    intro hloop
    obtain ⟨b, hstep, hback⟩ := Relation.TransGen.head'_iff.mp hloop
    obtain rfl : m = b := Option.some.inj (hnext.symm.trans hstep)
    exact ih (Relation.TransGen.tail' hback hnext)

variable {next : NodeId → Option NodeId} {n : NodeId}

theorem ends_of_endsWithin {fuel : Nat} (h : endsWithin next fuel n = true) : Ends next n := by
  induction fuel generalizing n with
  | zero => cases h
  | succ fuel ih =>
    rw [endsWithin] at h
    split at h
    · exact .last (by assumption)
    · exact .step (by assumption) (ih h)

/-- A chain that ends passes no node twice, so the nodes bound its length. The induction carries
the nodes passed so far. -/
theorem Ends.endsWithin {bound : Nat} (hbound : ∀ a b, next a = some b → a < bound)
    (h : Ends next n) {passed : List NodeId} (hnodup : passed.Nodup)
    (hlt : ∀ a ∈ passed, a < bound)
    (hpassed : ∀ a ∈ passed, Relation.TransGen (fun a b => next a = some b) a n) {fuel : Nat}
    (hfuel : bound < fuel + passed.length) : endsWithin next fuel n = true := by
  have hlen : ∀ l : List NodeId, l.Nodup → (∀ a ∈ l, a < bound) → l.length ≤ bound := by
    intro l hl hall
    have hsub : l ⊆ List.range bound := fun a ha => List.mem_range.mpr (hall a ha)
    simpa using (hl.subperm hsub).length_le
  induction h generalizing passed fuel with
  | last hnone =>
    cases fuel with
    | zero =>
      have := hlen passed hnodup hlt
      omega
    | succ fuel => rw [SchemaLoom.endsWithin, hnone]
  | @step n m hnext hm ih =>
    have hnot : n ∉ passed := fun hmem => (Ends.step hnext hm).not_loop (hpassed n hmem)
    have hcons : (n :: passed).Nodup := List.nodup_cons.mpr ⟨hnot, hnodup⟩
    have hltCons : ∀ a ∈ n :: passed, a < bound := by
      intro a ha
      rcases List.mem_cons.mp ha with rfl | ha
      · exact hbound a m hnext
      · exact hlt a ha
    cases fuel with
    | zero =>
      have := hlen _ hcons hltCons
      rw [List.length_cons] at this
      omega
    | succ fuel =>
      simp only [SchemaLoom.endsWithin, hnext]
      refine ih hcons hltCons ?_ (by rw [List.length_cons]; omega)
      intro a ha
      rcases List.mem_cons.mp ha with rfl | ha
      · exact .single hnext
      · exact (hpassed a ha).tail hnext

theorem endsWithin_iff {bound : Nat} (hbound : ∀ a b, next a = some b → a < bound) :
    endsWithin next (bound + 1) n = true ↔ Ends next n :=
  ⟨ends_of_endsWithin, fun h => h.endsWithin hbound .nil (by simp) (by simp) (by simp)⟩

end Ends

/-- What is computed along a chain: there is a result if the chain ends within `fuel` nodes, and no
answer if it does not. -/
def Follows {α : Type} (next : NodeId → Option NodeId) (fuel : Nat) (n : NodeId)
    (x : Result α) : Prop :=
  Tells x (endsWithin next fuel n = true) fun e =>
    endsWithin next fuel n = false ∧ e = Failure.of .diverges

namespace Follows
variable {α : Type} {next : NodeId → Option NodeId} {fuel : Nat} {n m : NodeId} {x : Result α}

theorem zero : Follows next 0 n (fail .diverges : Result α) :=
  .of_fail ⟨rfl, rfl⟩

theorem last {a : α} (hnext : next n = none) : Follows next (fuel + 1) n (.ok a : Result α) :=
  .of_ok rfl (by rw [endsWithin, hnext])

theorem step (hnext : next n = some m) (h : Follows next fuel m x) :
    Follows next (fuel + 1) n x := by
  unfold Follows
  simp only [endsWithin, hnext]
  exact h

theorem ok_iff (h : Follows next fuel n x) : (∃ a, x = .ok a) ↔ endsWithin next fuel n = true := by
  apply Tells.ok_iff h
  rintro e ⟨hnot, _⟩
  exact Bool.eq_false_iff.mp hnot

theorem eq_fail (h : Follows next fuel n x) (hnot : ¬ Ends next n) : x = fail .diverges := by
  cases x with
  | ok a => exact absurd (ends_of_endsWithin (h.ok a rfl)) hnot
  | error e =>
    obtain ⟨_, rfl⟩ := h.error e rfl
    rfl

/-- With more fuel than there are nodes, the failure is the chain's. -/
theorem tells {bound : Nat} (hbound : ∀ a b, next a = some b → a < bound)
    (h : Follows next (bound + 1) n x) :
    Tells x (Ends next n) fun e => ¬ Ends next n ∧ e.cause = .diverges := by
  refine h.mono (endsWithin_iff hbound).mp ?_
  rintro e ⟨hnot, rfl⟩
  refine ⟨?_, rfl⟩
  rw [← endsWithin_iff hbound, hnot]
  exact Bool.false_ne_true

end Follows

namespace Graph

variable {g : Graph}

/-! ### Bases -/

/-- A chain that does not end has an ancestor for every number. -/
theorem length_ancestors_of_not_ends {n : NodeId}
    (h : ¬ Ends (fun i => (g.node i).base) n) (fuel : Nat) :
    (g.ancestors fuel n).length = fuel := by
  induction fuel generalizing n with
  | zero => rfl
  | succ fuel ih =>
    cases hbase : (g.node n).base with
    | none => exact absurd (.last hbase) h
    | some b =>
      have hb : ¬ Ends (fun i => (g.node i).base) b := fun hb => h (.step hbase hb)
      cases hnode : g.node? n with
      | none => simp [node, hnode] at hbase
      | some node =>
        rw [node_of_node? hnode] at hbase
        simp [ancestors, hnode, hbase, ih hb]

theorem reflTransGen_of_mem_ancestors {fuel : Nat} {n a : NodeId} (h : a ∈ g.ancestors fuel n) :
    Relation.ReflTransGen (fun x y => (g.node x).base = some y) n a := by
  induction fuel generalizing n with
  | zero => simp [ancestors] at h
  | succ fuel ih =>
    rw [ancestors] at h
    split at h
    · simp at h
    · rename_i node hnode
      rcases List.mem_cons.mp h with rfl | h
      · exact .refl
      · split at h
        · simp at h
        · rename_i b hb
          rw [← node_of_node? hnode] at hb
          exact .head hb (ih h)

theorem nodup_ancestors {n : NodeId} (h : Ends (fun i => (g.node i).base) n) (fuel : Nat) :
    (g.ancestors fuel n).Nodup := by
  induction h generalizing fuel with
  | @last n hnone =>
    cases fuel with
    | zero => exact .nil
    | succ fuel =>
      rw [ancestors]
      split
      · exact .nil
      · rename_i node hnode
        rw [node_of_node? hnode] at hnone
        simp [hnone]
  | @step n m hbase hm ih =>
    cases fuel with
    | zero => exact .nil
    | succ fuel =>
      rw [ancestors]
      split
      · exact .nil
      · rename_i node hnode
        have hnot : n ∉ g.ancestors fuel m := fun hmem => (Ends.step hbase hm).not_loop
          (Relation.TransGen.head' hbase (reflTransGen_of_mem_ancestors hmem))
        rw [node_of_node? hnode] at hbase
        simp only [hbase]
        exact List.nodup_cons.mpr ⟨hnot, ih fuel⟩

/-- The check finds exactly the base chains that do not end. -/
theorem baseLoops_eq_false_iff {n : NodeId} :
    g.baseLoops n = false ↔ Ends (fun i => (g.node i).base) n := by
  rw [baseLoops, decide_eq_false_iff_not, Nat.not_lt]
  constructor
  · intro hle
    by_contra hnot
    rw [length_ancestors_of_not_ends hnot] at hle
    exact Nat.not_succ_le_self _ hle
  · intro hends
    have hsub : g.ancestors (g.nodes.size + 1) n ⊆ List.range g.nodes.size :=
      fun a ha => List.mem_range.mpr (lt_of_mem_ancestors ha)
    simpa using ((nodup_ancestors hends _).subperm hsub).length_le

theorem checkBases_eq_ok :
    g.checkBases = .ok () ↔ ∀ n ∈ g.declarations, Ends (fun i => (g.node i).base) n := by
  have hfind : g.checkBases = .ok () ↔ g.declarations.find? g.baseLoops = none := by
    unfold checkBases
    split <;> simp_all
  rw [hfind, List.find?_eq_none]
  simp only [Bool.not_eq_true, baseLoops_eq_false_iff]

theorem Linked.base_ends (hg : g.Linked) {n : NodeId} (hn : n < g.nodes.size) :
    Ends (fun i => (g.node i).base) n := by
  -- declarations are checked; from any other node the chain goes down the store
  induction n using Nat.strong_induction_on with
  | _ n ih =>
    by_cases hdecl : n ∈ g.declarations
    · exact baseLoops_eq_false_iff.mp (hg.ends n hdecl)
    · cases hbase : (g.node n).base with
      | none => exact .last hbase
      | some b =>
        have hfits := hg.fits_of_lt hn
        have hlt : b < n :=
          (hfits.below hdecl b (Node.mem_mentions_of_base hbase)).resolve_left
            ((hfits.plain hdecl).2 b hbase)
        exact .step hbase (ih b hlt (Nat.lt_trans hlt hn))

/-! ### Carriers -/

theorem lt_of_carrier? {n c : NodeId} (h : g.carrier? n = some c) : n < g.nodes.size := by
  by_contra hge
  have hnone : g.node? n = none := Array.getElem?_eq_none (Nat.le_of_not_lt hge)
  have hchain : g.baseChain n = [] := by
    unfold baseChain
    cases g.nodes.size <;> simp [ancestors, hnone]
  simp [carrier?, builtInBaseName?, builtInBase?, hchain] at h

theorem follows_scalarSchema (fuel : Nat) (n : NodeId) :
    Follows g.carrier? fuel n (g.scalarSchema fuel n) := by
  induction fuel generalizing n with
  | zero => exact .zero
  | succ fuel ih =>
    rw [scalarSchema]
    cases hc : g.carrier? n with
    | none => exact .last hc
    | some c => exact .step hc (ih c)

/-! ### Elements -/

/-- The element type of an array. -/
def element? (g : Graph) (n : NodeId) : Option NodeId :=
  if (g.node n).isArray then (g.node n).indexer.bind (·.value) else none

theorem lt_of_element? {n t : NodeId} (h : g.element? n = some t) : n < g.nodes.size := by
  by_contra hge
  have hnode := node_of_size_le (Nat.le_of_not_lt hge)
  simp [element?, hnode, Node.isArray] at h

theorem Fit.element?_of_isArray (hg : g.Fit) {n : NodeId} (h : (g.node n).isArray = true) :
    ∃ t, (g.node n).indexer.bind (·.value) = some t := by
  unfold Node.isArray at h
  split at h
  · rename_i ix hix
    have hlt : n < g.nodes.size := by
      by_contra hge
      have hnode := node_of_size_le (Nat.le_of_not_lt hge)
      rw [hnode] at hix
      cases hix
    obtain ⟨t, ht⟩ := Option.isSome_iff_exists.mp ((hg.fits_of_lt hlt).valued ix hix)
    exact ⟨t, by rw [hix]; exact ht⟩
  · simp at h

theorem follows_isBig (hg : g.Fit) (fuel : Nat) (n : NodeId) :
    Follows g.element? fuel n (g.isBig fuel (some n)) := by
  induction fuel generalizing n with
  | zero => exact .zero
  | succ fuel ih =>
    rw [isBig]
    by_cases harray : (g.node n).isArray = true
    · obtain ⟨t, ht⟩ := hg.element?_of_isArray harray
      rw [if_pos harray, ht]
      exact .step (by rw [element?, if_pos harray, ht]) (ih t)
    · rw [if_neg harray]
      exact .last (by rw [element?, if_neg harray])

end Graph

end SchemaLoom

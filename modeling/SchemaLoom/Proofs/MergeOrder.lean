import SchemaLoom.Proofs.FieldOccurrence

/-!
# The bases of merges

A model is merged into its base where it is written out, be that in its own declaration or
inside another one. The base of a declared model is declared before it. The order of a
group only heeds the bases of its own members, though: a model that is kept from being
declared takes its base along to wherever it is used, and whether that base comes first
is left to the order of the references.

Overrides may keep a model from being declared here, but may not write anything.
-/

namespace SchemaLoom

set_option autoImplicit false

/-! ### Merges inside expressions -/

namespace Expr

/-- The parts of a chain that begins with a merge into the declaration of `a`. -/
def Starts (a : NodeId) (ps : List Expr) : Prop :=
  ∃ arg rest, ps = .ref a :: .call "merge" [arg] :: rest

/-- Somewhere in the expression a merge is applied to the declaration of `a`. -/
def Merges (a : NodeId) (e : Expr) : Prop := ∃ ps, Starts a ps ∧ (chain ps).Occurs e

/-- The same of the parts of a chain. -/
def MergesAmong (a : NodeId) (ps : List Expr) : Prop := Starts a ps ∨ ∃ e ∈ ps, e.Merges a

section Merges
variable {a : NodeId}

@[simp] theorem merges_ident (name : Text) : ¬ (ident name).Merges a := by
  rintro ⟨ps, _, ⟨⟩⟩

@[simp] theorem merges_raw (text : Text) : ¬ (raw text).Merges a := by
  rintro ⟨ps, _, ⟨⟩⟩

@[simp] theorem merges_ref (n : NodeId) : ¬ (ref n).Merges a := by
  rintro ⟨ps, _, ⟨⟩⟩

@[simp] theorem merges_lazy (n : NodeId) : ¬ (lazy n).Merges a := by
  rintro ⟨ps, _, ⟨⟩⟩

@[simp] theorem merges_call {name : Text} {args : List Expr} :
    (call name args).Merges a ↔ ∃ e ∈ args, e.Merges a := by
  constructor
  · rintro ⟨ps, hps, _ | ⟨he, h⟩⟩
    exact ⟨_, he, ps, hps, h⟩
  · rintro ⟨e, he, ps, hps, h⟩
    exact ⟨ps, hps, .call he h⟩

@[simp] theorem merges_array {elems : List Expr} :
    (array elems).Merges a ↔ ∃ e ∈ elems, e.Merges a := by
  constructor
  · rintro ⟨ps, hps, _ | _ | _ | _ | ⟨he, h⟩⟩
    exact ⟨_, he, ps, hps, h⟩
  · rintro ⟨e, he, ps, hps, h⟩
    exact ⟨ps, hps, .array he h⟩

@[simp] theorem merges_object {props : List (Text × Expr)} :
    (object props).Merges a ↔ ∃ p ∈ props, p.2.Merges a := by
  constructor
  · rintro ⟨ps, hps, _ | _ | _ | ⟨hp, h⟩⟩
    exact ⟨_, hp, ps, hps, h⟩
  · rintro ⟨p, hp, ps, hps, h⟩
    exact ⟨ps, hps, .object hp h⟩

theorem merges_chain {ps : List Expr} : (chain ps).Merges a ↔ MergesAmong a ps := by
  constructor
  · rintro ⟨qs, hqs, _ | _ | ⟨he, h⟩⟩
    · exact .inl hqs
    · exact .inr ⟨_, he, qs, hqs, h⟩
  · rintro (hps | ⟨e, he, qs, hqs, h⟩)
    · exact ⟨ps, hps, .here⟩
    · exact ⟨qs, hqs, .chain he h⟩

theorem not_starts_singleton (e : Expr) : ¬ Starts a [e] := by
  rintro ⟨arg, rest, h⟩
  cases h

theorem mergesAmong_fromZ {name : Text} {args : List Expr} :
    MergesAmong a (fromZ [call name args]) ↔ ∃ e ∈ args, e.Merges a := by
  have hnot : ¬ Starts a [z, call name args] := by
    rintro ⟨arg, rest, h⟩
    cases h
  simp only [MergesAmong, fromZ, hnot]
  simp [z]

/-- A part that begins no merge and has none inside. -/
structure Quiet (e : Expr) : Prop where
  trails : e.Trails
  other : ∀ arg, e ≠ call "merge" [arg]

theorem Trails.not_merges {e : Expr} (h : e.Trails) : ¬ e.Merges a := by
  rintro ⟨ps, _, hoccurs⟩
  exact h.chains (fun _ => False) ps hoccurs

theorem Narrows.quiet {e : Expr} (h : e.Narrows) : e.Quiet := by
  refine ⟨h.trails, ?_⟩
  rintro arg rfl
  rcases h with ⟨name, h⟩ | ⟨name, hname, t, h⟩
  · cases h
  · cases h
    exact absurd hname (by decide)

theorem quiet_of_mem_describe {ns : List Node} {e : Expr} (h : e ∈ describe ns) : e.Quiet := by
  refine ⟨trails_of_mem_describe h, ?_⟩
  obtain ⟨t, rfl⟩ := mem_describe h
  intro arg harg
  cases harg

/-- What follows quietly changes no merges. -/
theorem mergesAmong_append {es rest : List Expr} (hrest : ∀ e ∈ rest, e.Quiet) :
    MergesAmong a (es ++ rest) ↔ MergesAmong a es := by
  have hstarts : Starts a (es ++ rest) ↔ Starts a es := by
    constructor
    · rintro ⟨arg, more, h⟩
      rcases es with _ | ⟨e, _ | ⟨f, es⟩⟩
      · obtain rfl : rest = _ := h
        cases (hrest _ List.mem_cons_self).trails.isCall
      · obtain ⟨_, rfl⟩ := List.cons.inj h
        exact absurd rfl ((hrest _ List.mem_cons_self).other arg)
      · rw [List.cons_append, List.cons_append] at h
        obtain ⟨rfl, htail⟩ := List.cons.inj h
        obtain ⟨rfl, _⟩ := List.cons.inj htail
        exact ⟨arg, es, rfl⟩
    · rintro ⟨arg, more, rfl⟩
      exact ⟨arg, more ++ rest, rfl⟩
  unfold MergesAmong
  rw [hstarts]
  apply or_congr_right
  constructor
  · rintro ⟨e, he, hm⟩
    rcases List.mem_append.mp he with he | he
    · exact ⟨e, he, hm⟩
    · exact absurd hm (hrest e he).trails.not_merges
  · rintro ⟨e, he, hm⟩
    exact ⟨e, List.mem_append_left _ he, hm⟩

/-- Parts that are no chains are joined as they are. -/
theorem merges_ofParts {groups : List (List Expr)} (h : ∀ e ∈ groups.flatten, e.parts = [e]) :
    (ofParts groups).Merges a ↔ MergesAmong a groups.flatten := by
  have hflat : groups.flatten.flatMap parts = groups.flatten := by
    rw [← List.flatMap_singleton' groups.flatten, List.flatMap_assoc]
    exact List.flatMap_congr fun e he => by simp [h e he]
  unfold ofParts
  rw [hflat]
  split
  · rename_i e heq
    rw [heq]
    split
    · exact merges_chain
    · simp [MergesAmong, not_starts_singleton]
  · exact merges_chain

theorem not_mergesAmong_of_keepsAll {Q : NodeId → Prop} {es : List Expr}
    (h : KeepsAll (fun _ => False) Q es) : ¬ MergesAmong a es := by
  rintro (⟨arg, rest, rfl⟩ | ⟨e, he, _, ⟨arg, rest, rfl⟩, hoccurs⟩)
  · exact (h _ List.mem_cons_self).now a .here
  · exact (h e he).now a (.trans (.chain List.mem_cons_self .here) hoccurs)

end Merges

end Expr

open SchemaLoom.Expr

namespace Builder
variable {b : Builder}

theorem merges_parts {a : NodeId} {p : Parts} (hbase : ∀ e ∈ p.base, e.parts = [e])
    (hconstraints : ∀ e ∈ p.constraints, e.Quiet) (hmember : ∀ e ∈ p.member, e.Quiet)
    (hdescription : ∀ e ∈ p.description, e.Quiet) :
    p.expr.Merges a ↔ MergesAmong a p.base := by
  have hrest : ∀ e ∈ p.constraints ++ (p.member ++ p.description), e.Quiet := by
    intro e he
    simp only [List.mem_append] at he
    rcases he with he | he | he
    · exact hconstraints e he
    · exact hmember e he
    · exact hdescription e he
  have hflat : [p.base, p.constraints, p.member, p.description].flatten =
      p.base ++ (p.constraints ++ (p.member ++ p.description)) := by simp
  rw [Parts.expr, merges_ofParts, hflat, mergesAmong_append hrest]
  rw [hflat]
  intro e he
  rcases List.mem_append.mp he with he | he
  · exact hbase e he
  · exact parts_of_isStep (isStep_of_isCall (hrest e he).trails.isCall)

theorem quiet_of_mem_memberParts {prop : Node} {type : Option Subject} {es : List Expr}
    (h : b.memberParts prop type = .ok es) {e : Expr} (he : e ∈ es) : e.Quiet := by
  refine ⟨trails_of_mem_memberParts h he, ?_⟩
  rintro arg rfl
  rcases mem_memberParts h he with heq | ⟨_, _, _, _, _, heq⟩
  · cases heq
  · cases heq

/-! ### Models that are written out -/

/-- `n` is written out in the expression of `m`. -/
inductive Written (b : Builder) : NodeId → NodeId → Prop
  | self (m : NodeId) : Written b m m
  | step {m t n : NodeId} : t ∈ b.inside m → b.refersTo t = false → Written b t n → Written b m n

/-- Where the model `m` is written out, it is merged into the declaration of its base `a`. -/
structure Combines (b : Builder) (m a : NodeId) : Prop where
  kind : (b.graph.node m).kind = .model
  array : (b.graph.node m).isArray = false
  base : b.mergeBase? (b.graph.subject m) = some a

/-- Something that is written out in the expression of `m` is merged into `a`. -/
def MergesWithin (b : Builder) (m a : NodeId) : Prop := ∃ n, b.Written m n ∧ b.Combines n a

def MergesBelow (b : Builder) (m a : NodeId) : Prop :=
  ∃ t ∈ b.inside m, b.refersTo t = false ∧ b.MergesWithin t a

theorem mergesWithin_iff {m a : NodeId} :
    b.MergesWithin m a ↔ b.Combines m a ∨ b.MergesBelow m a := by
  constructor
  · rintro ⟨n, hn, hcombines⟩
    cases hn with
    | self => exact .inl hcombines
    | step ht hnot hn => exact .inr ⟨_, ht, hnot, n, hn, hcombines⟩
  · rintro (h | ⟨t, ht, hnot, n, hn, hcombines⟩)
    · exact ⟨m, .self m, h⟩
    · exact ⟨n, .step ht hnot hn, hcombines⟩

theorem mergesWithin_of_not_combines {m : NodeId}
    (h : (b.graph.node m).kind ≠ .model ∨ (b.graph.node m).isArray = true) (a : NodeId) :
    b.MergesWithin m a ↔ b.MergesBelow m a := by
  rw [mergesWithin_iff, or_iff_right]
  rintro ⟨hkind, harray, _⟩
  rcases h with h | h
  · exact h hkind
  · rw [h] at harray
    cases harray

/-- A base schema has the merges of what is written out. -/
structure Tally (b : Builder) (n : NodeId) (es : List Expr) : Prop where
  single : ∀ e ∈ es, e.parts = [e]
  merges : ∀ a, MergesAmong a es ↔ b.MergesWithin n a

/-- The base schemas of nodes have these merges; the tag of an envelope has none. -/
structure Tallies (b : Builder) (base : BaseOf) : Prop where
  node : ∀ n < b.graph.nodes.size, (b.graph.node n).kind ≠ .modelProperty → ∀ es,
    base (b.graph.subject n) = .ok es → b.Tally n es
  tag : ∀ v es, base { node := { kind := .string, literal := v } } = .ok es →
    (∀ e ∈ es, e.parts = [e]) ∧ ∀ a, ¬ MergesAmong a es

section Steps
variable {base : BaseOf} {m t : NodeId}

theorem not_mergesAmong_refer (n a : NodeId) : ¬ MergesAmong a [b.refer n] := by
  have hrefer : ¬ (b.refer n).Merges a := by
    unfold refer
    split <;> simp
  simp [MergesAmong, not_starts_singleton, hrefer]

theorem single_refer (n : NodeId) : ∀ e ∈ [b.refer n], e.parts = [e] := by
  unfold refer
  split <;> simp [Expr.parts]

/-- A field has the merges of its type, if that is written out. -/
theorem merges_field (hr : b.registry.Silent) (hbase : b.Tallies base)
    (hlt : t < b.graph.nodes.size) (hkind : (b.graph.node t).kind ≠ .modelProperty)
    {prop : Subject} {e : Expr} (h : b.field base prop (some (b.graph.subject t)) = .ok e)
    (a : NodeId) : e.Merges a ↔ b.refersTo t = false ∧ b.MergesWithin t a := by
  obtain ⟨cs, member, hmember, ⟨n, htarget, hcs, rfl⟩ | ⟨htarget, hcs, bs, hbs, rfl⟩⟩ :=
    field_eq_ok hr h
  · obtain ⟨hrefers, rfl⟩ := target?_eq_some.mp htarget
    rw [merges_parts (single_refer t) (fun e he => (narrows_of_mem_constraints hcs he).quiet)
      (fun e he => quiet_of_mem_memberParts hmember he) (fun e he => quiet_of_mem_describe he)]
    simp [not_mergesAmong_refer, hrefers]
  · have htally := hbase.node t hlt hkind bs hbs
    rw [merges_parts htally.single (fun e he => (narrows_of_mem_constraints hcs he).quiet)
      (fun e he => quiet_of_mem_memberParts hmember he) (fun e he => quiet_of_mem_describe he)]
    simp [htally.merges, target?_eq_none.mp htarget]

theorem merges_nested (hr : b.registry.Silent) (hbase : b.Tallies base) {o : Option NodeId}
    (hkind : ∀ t, o = some t → (b.graph.node t).kind ≠ .modelProperty) {e : Expr}
    (h : b.nested base (b.subject? o) = .ok e) (a : NodeId) :
    e.Merges a ↔ ∃ t, o = some t ∧ b.refersTo t = false ∧ b.MergesWithin t a := by
  obtain ⟨t, rfl, hlt, ⟨hrefers, rfl⟩ | ⟨hrefers, h⟩⟩ := nested_eq_ok hr h
  · have hnot := not_mergesAmong_refer (b := b) t a
    simp only [MergesAmong, List.mem_singleton, exists_eq_left, not_or] at hnot
    simp [hnot.2, hrefers]
  · obtain ⟨bs, cs, hbs, hcs, rfl⟩ := inline_eq_ok (hkind t rfl) h
    have htally := hbase.node t hlt (hkind t rfl) bs hbs
    rw [merges_parts htally.single (fun e he => (narrows_of_mem_constraints hcs he).quiet)
      (by simp) (fun e he => quiet_of_mem_describe he)]
    simp [htally.merges, hrefers]

/-- The properties of the model whose types are written out have their merges. -/
theorem merges_objectOf (hg : b.graph.Fit) (hr : b.registry.Silent) (hbase : b.Tallies base)
    {ps : List NodeId} {e : Expr} (h : b.objectOf base ps = .ok e) (a : NodeId) :
    e.Merges a ↔ ∃ p ∈ ps, ∃ t, (b.graph.node p).type = some t ∧ b.refersTo t = false ∧
      b.MergesWithin t a := by
  have hfield : ∀ p x, b.fieldOf base p = .ok x → (x.Merges a ↔
      ∃ t, (b.graph.node p).type = some t ∧ b.refersTo t = false ∧ b.MergesWithin t a) := by
    intro p x hx
    obtain ⟨t, htype, hlt, hx⟩ := fieldOf_eq_ok hr hx
    rw [merges_field hr hbase hlt (hg.kind_slot (Node.mem_slots_of_type htype)) hx]
    simp [htype]
  obtain ⟨fields, rfl, hfields, hall⟩ := fields_of_objectOf h
  rw [merges_object]
  constructor
  · rintro ⟨x, hx, hm⟩
    obtain ⟨p, hp, hpx⟩ := hfields x hx
    exact ⟨p, hp, (hfield p x.2 hpx).mp hm⟩
  · rintro ⟨p, hp, hm⟩
    obtain ⟨x, hx, hpx⟩ := hall p hp
    exact ⟨x, hx, (hfield p x.2 hpx).mpr hm⟩

theorem merges_call_parts {a : NodeId} (name : Text) {args : List Expr} :
    (Expr.ofParts [Expr.fromZ [.call name args]]).Merges a ↔ ∃ e ∈ args, e.Merges a := by
  rw [merges_ofParts (by simp [fromZ, z, Expr.parts]), List.flatten_singleton, mergesAmong_fromZ]

/-- What is inside a model that is no array: the types of its map and of its properties. -/
theorem mergesBelow_iff_of_shape (hkind : (b.graph.node m).kind = .model)
    (harray : (b.graph.node m).isArray = false) (a : NodeId) :
    b.MergesBelow m a ↔
      (∃ ix, b.shapeIndexer? (b.graph.subject m) = some ix ∧
        ∃ t, (ix.key = some t ∨ ix.value = some t) ∧ b.refersTo t = false ∧ b.MergesWithin t a) ∨
      ∃ p ∈ b.shapeProperties (b.graph.subject m), ∃ t, (b.graph.node p).type = some t ∧
        b.refersTo t = false ∧ b.MergesWithin t a := by
  unfold MergesBelow
  simp only [mem_inside_of_shape hkind harray, fields_of_shape hkind harray,
    Option.bind_eq_some_iff]
  constructor
  · rintro ⟨t, ⟨ix, hix, ht⟩ | ⟨ix, hix, ht⟩ | ⟨p, hp, ht⟩, hm⟩
    · exact .inl ⟨ix, hix, t, .inl ht, hm⟩
    · exact .inl ⟨ix, hix, t, .inr ht, hm⟩
    · exact .inr ⟨p, hp, t, ht, hm⟩
  · rintro (⟨ix, hix, t, ht | ht, hm⟩ | ⟨p, hp, t, ht, hm⟩)
    · exact ⟨t, .inl ⟨ix, hix, ht⟩, hm⟩
    · exact ⟨t, .inr (.inl ⟨ix, hix, ht⟩), hm⟩
    · exact ⟨t, .inr (.inr ⟨p, hp, ht⟩), hm⟩

/-- The shape of a model has the merges of what is written out inside it. -/
theorem merges_shape (hg : b.graph.Fit) (hr : b.registry.Silent) (hbase : b.Tallies base)
    (hm : m < b.graph.nodes.size) (hkind : (b.graph.node m).kind = .model)
    (harray : (b.graph.node m).isArray = false) {es : List Expr}
    (h : b.shape base (b.graph.subject m) = .ok es) :
    ∃ name args, es = Expr.fromZ [.call name args] ∧
      ∀ a, (∃ e ∈ args, e.Merges a) ↔ b.MergesBelow m a := by
  have hrecord : ∀ {ix : Indexer} {key value : Expr} (a : NodeId),
      b.shapeIndexer? (b.graph.subject m) = some ix →
      b.nested base (b.subject? ix.key) = .ok key →
      b.nested base (b.subject? ix.value) = .ok value →
      ((∃ e ∈ [key, value], e.Merges a) ↔
        ∃ t, (ix.key = some t ∨ ix.value = some t) ∧ b.refersTo t = false ∧
          b.MergesWithin t a) := by
    intro ix key value a hix hkey hvalue
    obtain ⟨i, k, v, _, _, hk, hv, hkSlot, hvSlot⟩ := shapeIndexer?_types hg hm hix
    have hkey := merges_nested hr hbase
      (fun t ht => Option.some.inj (hk.symm.trans ht) ▸ hg.kind_slot hkSlot) hkey a
    have hvalue := merges_nested hr hbase
      (fun t ht => Option.some.inj (hv.symm.trans ht) ▸ hg.kind_slot hvSlot) hvalue a
    simp [hkey, hvalue, or_and_right, exists_or]
  simp only [mergesBelow_iff_of_shape hkind harray]
  cases shaped_of_shape h with
  | object hix hobj =>
    refine ⟨_, _, rfl, fun a => ?_⟩
    simp [hix, merges_objectOf hg hr hbase hobj a]
  | record hix hempty hkey hvalue =>
    refine ⟨_, _, rfl, fun a => ?_⟩
    rw [hrecord a hix hkey hvalue]
    simp [hix, hempty]
  | both hix _ hkey hvalue hobj =>
    refine ⟨_, _, rfl, fun a => ?_⟩
    have hobject := merges_objectOf hg hr hbase hobj a
    have hrecord := hrecord a hix hkey hvalue
    rw [← merges_call_parts "record"] at hrecord
    simp [hix, merges_call_parts "object", hobject, hrecord, or_comm]

theorem tally_call {name : Text} {args : List Expr}
    (h : ∀ a, (∃ e ∈ args, e.Merges a) ↔ b.MergesWithin m a) :
    b.Tally m (Expr.fromZ [.call name args]) := by
  refine ⟨by simp [fromZ, z, Expr.parts], fun a => ?_⟩
  rw [mergesAmong_fromZ, h]

theorem merges_tag (hr : b.registry.Silent) (hbase : b.Tallies base) {prop : Subject}
    {v : Option Value} {e : Expr}
    (h : b.field base prop (some { node := { kind := .string, literal := v } }) = .ok e)
    (a : NodeId) : ¬ e.Merges a := by
  obtain ⟨bs, member, ns, hbs, hmember, rfl⟩ := tag_eq_ok hr h
  obtain ⟨hsingle, hnone⟩ := hbase.tag v bs hbs
  rw [merges_parts hsingle (by simp) (fun e he => quiet_of_mem_memberParts hmember he)
    (fun e he => quiet_of_mem_describe he)]
  exact hnone a

theorem merges_variant (hg : b.graph.Fit) (hr : b.registry.Silent) (hbase : b.Tallies base)
    {d : Option Discriminator} {v : NodeId} {e : Expr} (h : b.variant base d v = .ok e)
    (a : NodeId) : e.Merges a ↔
      ∃ t, (b.graph.node v).type = some t ∧ b.refersTo t = false ∧ b.MergesWithin t a := by
  have hkind : ∀ t, (b.graph.node v).type = some t → (b.graph.node t).kind ≠ .modelProperty :=
    fun t ht => hg.kind_slot (Node.mem_slots_of_type ht)
  obtain ⟨_, h⟩ | ⟨d, _, _, h⟩ := variant_eq_ok h
  · exact merges_nested hr hbase hkind h a
  · obtain ⟨tag, payload, t, ht, hlt, htag, hpayload, rfl⟩ := envelope_eq_ok hr h
    have hmerges := merges_field hr hbase hlt (hkind t ht) hpayload a
    rw [merges_call_parts]
    simp [merges_tag hr hbase htag a, hmerges, ht]

/-- The elements of an expression list have the merges of the types they are written for. -/
theorem merges_mapM {xs : List NodeId} {elems : List Expr} {f : NodeId → Result Expr}
    (h : xs.mapM f = .ok elems) {a : NodeId} {P : NodeId → Prop}
    (hf : ∀ x ∈ xs, ∀ e, f x = .ok e → (e.Merges a ↔ P x)) :
    (∃ e ∈ elems, e.Merges a) ↔ ∃ x ∈ xs, P x := by
  constructor
  · rintro ⟨e, he, hm⟩
    obtain ⟨x, hx, he⟩ := Result.exists_of_mem_mapM h he
    exact ⟨x, hx, (hf x hx e he).mp hm⟩
  · rintro ⟨x, hx, hP⟩
    obtain ⟨e, he, hfx⟩ := Result.exists_mem_of_mapM h hx
    exact ⟨e, he, (hf x hx e hfx).mpr hP⟩

/-- Nothing stands inside a node of any other kind. -/
theorem tally_bare (hkind : (b.graph.node m).kind ∉ [Kind.model, .union, .tuple]) {es : List Expr}
    (hsingle : ∀ e ∈ es, e.parts = [e]) (hes : KeepsAll (fun _ => False) (fun _ => True) es) :
    b.Tally m es := by
  refine ⟨hsingle, fun a => iff_of_false (not_mergesAmong_of_keepsAll hes) ?_⟩
  have hmodel : (b.graph.node m).kind ≠ .model := fun h => hkind (by simp [h])
  rw [mergesWithin_of_not_combines (.inl hmodel), MergesBelow, inside_of_bare hkind]
  simp

theorem single_call (name : Text) (args : List Expr) :
    ∀ e ∈ Expr.fromZ [.call name args], e.parts = [e] := by
  simp [fromZ, z, Expr.parts]

/-- One step has the merges of what is written out, if the base schemas of the parts have. -/
theorem tally_baseStep (hg : b.graph.Fit) (hr : b.registry.Silent) (hbase : b.Tallies base)
    (hm : m < b.graph.nodes.size) (hnot : (b.graph.node m).kind ≠ .modelProperty) {es : List Expr}
    (h : b.baseStep base (b.graph.subject m) = .ok es) : b.Tally m es := by
  have hvariants : ∀ d elems, (b.graph.node m).kind = .union →
      (b.graph.node m).variants.mapM (b.variant base d) = .ok elems →
      ∀ a, (∃ e ∈ elems, e.Merges a) ↔ b.MergesWithin m a := by
    intro d elems hkind helems a
    rw [merges_mapM helems fun v _ e he => merges_variant hg hr hbase he a,
      mergesWithin_of_not_combines (.inl (by simp [hkind])), MergesBelow]
    simp only [inside, hkind, List.mem_filterMap]
    constructor
    · rintro ⟨v, hv, t, ht, hm⟩
      exact ⟨t, ⟨v, hv, ht⟩, hm⟩
    · rintro ⟨t, ⟨v, hv, ht⟩, hm⟩
      exact ⟨v, hv, t, ht, hm⟩
  cases composed_of_baseStep h with
  | stock hkind hstock =>
    exact tally_bare hkind (hstock.forall (fun _ => rfl) fun _ => rfl)
      (hstock.forall keeps_ident keeps_method)
  | literal hkind hlit =>
    exact tally_bare hkind (single_call _ _) (by simpa using keeps_ofLiteral hlit)
  | member hkind =>
    have hkind : (b.graph.node m).kind = .enumMember := hkind
    exact tally_bare (by simp [hkind]) (single_call _ _) (by simp)
  | @enum elems hkind helems =>
    have hkind : (b.graph.node m).kind = .enum := hkind
    have helems : KeepsAll (fun _ => False) (fun _ => True) elems := by
      intro e he
      obtain ⟨x, _, he⟩ := Result.exists_of_mem_mapM helems he
      rw [enumMember_eq_ok hr he]
      exact keeps_ofMember _ _
    exact tally_bare (by simp [hkind]) (single_call _ _) (by simpa using helems)
  | tuple hkind helems =>
    have hkind : (b.graph.node m).kind = .tuple := hkind
    apply tally_call
    intro a
    have helem : ∀ t ∈ (b.graph.node m).elements, ∀ e,
        b.nested base (b.graph.subject? t) = .ok e →
        (e.Merges a ↔ b.refersTo t = false ∧ b.MergesWithin t a) := by
      intro t ht e he
      have htkind : ∀ u, some t = some u → (b.graph.node u).kind ≠ .modelProperty := by
        rintro u ⟨⟩
        exact hg.kind_slot (Node.mem_slots_of_element ht)
      rw [merges_nested hr hbase (o := some t) htkind he]
      simp
    rw [mergesWithin_of_not_combines (.inl (by simp [hkind]))]
    simp only [List.mem_singleton, exists_eq_left, merges_array, MergesBelow, inside, hkind]
    exact merges_mapM helems helem
  | untagged hkind _ helems => exact tally_call fun a => by simp [hvariants _ _ hkind helems]
  | tagged hkind _ helems => exact tally_call fun a => by simp [hvariants _ _ hkind helems]
  | @array elem harray helem =>
    have harray : (b.graph.node m).isArray = true := harray
    have hkind := Node.kind_of_isArray harray
    have htypes : ∀ t, (b.graph.node m).indexer.bind (·.value) = some t →
        (b.graph.node t).kind ≠ .modelProperty := by
      intro t ht
      obtain ⟨ix, hix, ht⟩ := Option.bind_eq_some_iff.mp ht
      exact hg.kind_slot (Node.mem_slots_of_value hix ht)
    apply tally_call
    intro a
    have helem := merges_nested hr hbase htypes helem a
    rw [mergesWithin_of_not_combines (.inr harray)]
    simp [helem, MergesBelow, inside, hkind, harray]
  | shape hkind harray hnone hshape =>
    obtain ⟨name, args, rfl, hargs⟩ := merges_shape hg hr hbase hm hkind harray hshape
    apply tally_call
    intro a
    rw [hargs, mergesWithin_iff, or_iff_right]
    rintro ⟨_, _, hbaseOf⟩
    rw [hnone] at hbaseOf
    cases hbaseOf
  | @merged c _ hkind harray hc hshape =>
    obtain ⟨name, args, rfl, hargs⟩ := merges_shape hg hr hbase hm hkind harray hshape
    refine ⟨by simp [Expr.parts], fun a => ?_⟩
    have hstarts : Starts a [.ref c, .call "merge" [.ofParts [Expr.fromZ [.call name args]]]] ↔
        b.Combines m a := by
      constructor
      · rintro ⟨arg, rest, heq⟩
        cases heq
        exact ⟨hkind, harray, hc⟩
      · rintro ⟨_, _, hbaseOf⟩
        cases hc.symm.trans hbaseOf
        exact ⟨_, [], rfl⟩
    rw [MergesAmong, hstarts, mergesWithin_iff]
    simp [merges_call_parts, hargs]
  | property hkind _ _ => exact absurd hkind hnot

end Steps

/-- Base schemas have the merges of what is written out, however deep they are built. -/
theorem tallies_baseSchema (hg : b.graph.Fit) (hr : b.registry.Silent) (fuel : Nat)
    (expanding : List NodeId) : b.Tallies (b.baseSchema fuel expanding) := by
  apply baseSchema_induction
  intro base' hbase'
  constructor
  · intro n hn hkind es h
    obtain ⟨base, hbase, hstep⟩ := hbase' _ es h
    exact tally_baseStep hg hr hbase hn hkind hstep
  · intro v es h
    obtain ⟨base, _, hstep⟩ := hbase' _ es h
    obtain ⟨x, hx, rfl⟩ := literal_of_tag hstep
    refine ⟨single_call _ _, fun a => ?_⟩
    exact not_mergesAmong_of_keepsAll (Q := fun _ => True) (by simpa using keeps_ofLiteral hx)

/-- The declaration of a node has the merges of what is written out in it. -/
theorem merges_declare (hg : b.graph.Fit) (hr : b.registry.Silent) {n : NodeId}
    (hn : n < b.graph.nodes.size) (hkind : (b.graph.node n).kind ≠ .modelProperty) {e : Expr}
    (h : b.declare (b.graph.subject n) = .ok e) (a : NodeId) :
    e.Merges a ↔ b.MergesWithin n a := by
  rw [declare_of_silent hr] at h
  obtain ⟨bs, cs, hbs, hcs, rfl⟩ := inline_eq_ok hkind h
  have htally := (tallies_baseSchema hg hr _ _).node n hn hkind bs hbs
  rw [merges_parts htally.single (fun e he => (narrows_of_mem_constraints hcs he).quiet)
    (by simp) (fun e he => quiet_of_mem_describe he)]
  exact htally.merges a

/-! ### Where the bases come from -/

theorem reaches_of_mem_inside (hg : b.graph.Fit) {m t : NodeId} (hm : m < b.graph.nodes.size)
    (ht : t ∈ b.inside m) : Reaches b.graph.references m t := by
  cases hkind : (b.graph.node m).kind with
  | model =>
    have hancestor : ∀ {x}, x ∈ b.flattened (b.graph.subject m) → ∃ i, x = b.graph.node i ∧
        Reaches b.graph.references m i ∧ (b.graph.node i).kind = .model := by
      intro x hx
      obtain ⟨i, _, hnode, hi⟩ := mem_flattened hm hx
      obtain ⟨hreach, hkindi⟩ := Graph.reaches_of_mem_ancestors hg hi
      exact ⟨i, hnode, hreach, hkindi.trans hkind⟩
    cases harray : (b.graph.node m).isArray with
    | true =>
      have hvalue : (b.graph.node m).indexer.bind (·.value) = some t := by
        simpa [inside, hkind, harray] using ht
      obtain ⟨ix, hix, hvalue⟩ := Option.bind_eq_some_iff.mp hvalue
      exact .edge (Graph.mem_references_of_value hkind hix hvalue)
    | false =>
      have hindexer : ∀ {ix}, b.shapeIndexer? (b.graph.subject m) = some ix → ∃ i,
          (b.graph.node i).indexer = some ix ∧ Reaches b.graph.references m i ∧
            (b.graph.node i).kind = .model := by
        intro ix hix
        obtain ⟨x, hx, hix⟩ := List.exists_of_findSome?_eq_some hix
        obtain ⟨i, rfl, hreach, hkindi⟩ := hancestor hx
        split at hix
        · exact ⟨i, hix, hreach, hkindi⟩
        · cases hix
      rcases (mem_inside_of_shape hkind harray).mp ht with hkey | hvalue | ⟨p, hp, htype⟩
      · obtain ⟨ix, hix, hkey⟩ := Option.bind_eq_some_iff.mp hkey
        obtain ⟨i, hix, hreach, hkindi⟩ := hindexer hix
        exact hreach.trans (.edge (Graph.mem_references_of_key hkindi hix hkey))
      · obtain ⟨ix, hix, hvalue⟩ := Option.bind_eq_some_iff.mp hvalue
        obtain ⟨i, hix, hreach, hkindi⟩ := hindexer hix
        exact hreach.trans (.edge (Graph.mem_references_of_value hkindi hix hvalue))
      · rw [fields_of_shape hkind harray] at hp
        obtain ⟨x, hx, hp⟩ := List.mem_flatMap.mp hp
        obtain ⟨i, rfl, hreach, hkindi⟩ := hancestor (List.mem_reverse.mp hx)
        exact hreach.trans (.edge (Graph.mem_references_of_property hkindi hp htype))
  | union =>
    simp only [inside, hkind, List.mem_filterMap] at ht
    obtain ⟨v, hv, ht⟩ := ht
    exact .edge (Graph.mem_references_of_variant hkind hv ht)
  | tuple =>
    simp only [inside, hkind] at ht
    exact .edge (Graph.mem_references_of_element hkind ht)
  | _ => simp [inside, hkind] at ht

theorem lt_of_mem_inside (hg : b.graph.Fit) {m t : NodeId} (hm : m < b.graph.nodes.size)
    (ht : t ∈ b.inside m) : t < b.graph.nodes.size := by
  obtain ⟨i, hi, hcase⟩ := inside_cases hg hm ht
  have hfits := hg.fits_of_lt (Graph.lt_of_mem_ancestors hi)
  rcases hcase with hslot | ⟨p, hp, hslot⟩
  · exact hfits.lt t (Node.mem_mentions_of_slot hslot)
  · have hplt : p < b.graph.nodes.size := by
      rcases hp with hp | hp
      · exact hfits.lt p (Node.mem_mentions_of_property hp)
      · exact hfits.lt p (Node.mem_mentions_of_variant hp)
    exact (hg.fits_of_lt hplt).lt t (Node.mem_mentions_of_slot hslot)

theorem Written.reaches (hg : b.graph.Fit) {m n : NodeId} (h : b.Written m n)
    (hm : m < b.graph.nodes.size) :
    n < b.graph.nodes.size ∧ Reaches b.graph.references m n := by
  induction h with
  | self m => exact ⟨hm, .refl m⟩
  | step ht _ _ ih =>
    obtain ⟨hn, hreach⟩ := ih (lt_of_mem_inside hg hm ht)
    exact ⟨hn, (reaches_of_mem_inside hg hm ht).trans hreach⟩

/-- What is pending decides nothing about what is written out. -/
theorem Written.congr_pending {pending : List NodeId} {m n : NodeId} :
    ({ b with pending } : Builder).Written m n ↔ b.Written m n := by
  constructor
  · intro h
    induction h with
    | self m => exact .self m
    | step ht hnot _ ih => exact .step ht hnot ih
  · intro h
    induction h with
    | self m => exact .self m
    | step ht hnot _ ih => exact .step ht hnot ih

theorem Combines.congr_pending {pending : List NodeId} {m a : NodeId} :
    ({ b with pending } : Builder).Combines m a ↔ b.Combines m a :=
  ⟨fun h => ⟨h.kind, h.array, h.base⟩, fun h => ⟨h.kind, h.array, h.base⟩⟩

end Builder

/-! ### Plans -/

/-- Every merge, wherever it stands, is applied to an earlier declaration. -/
def MergesEarlier (ds : List Planned) : Prop :=
  ∀ (i : Nat) (p : Planned), ds[i]? = some p → ∀ a, p.expr.Merges a → ∃ q ∈ ds.take i, q.node = a

section Plans
variable {g : Graph} {r : Registry} {ds : List Planned}

/-- The merges of a planned declaration are those of what is written out in it. -/
theorem merges_planned (hg : g.Linked) (hr : r.Silent) (hplan : plan g r = .ok ds) {p : Planned}
    (hp : p ∈ ds) (a : NodeId) :
    p.expr.Merges a ↔ ({ graph := g, registry := r } : Builder).MergesWithin p.node a := by
  have hplans := plans_of_plan hg hplan
  obtain ⟨pending, hdeclare⟩ := hplans.declare p hp
  have hdecl := List.mem_filter.mp ((hplans.planned_iff p.node).mp ⟨p, hp, rfl⟩)
  rw [Builder.merges_declare (b := { graph := g, registry := r, pending }) hg.toFit hr
    (hg.kept _ hdecl.1) (hg.kind_declared hdecl.1) hdeclare]
  unfold Builder.MergesWithin
  exact exists_congr fun n =>
    and_congr (Builder.Written.congr_pending (b := { graph := g, registry := r }))
      (Builder.Combines.congr_pending (b := { graph := g, registry := r }))

/-- What a declaration reaches is declared earlier, unless it leads back. -/
theorem earlier_of_reaches {b : Builder} (hg : b.graph.Linked) {cs : List Group}
    (hcs : IsGrouping b.graph.references b.declared cs) {k i j : Nat} {p : Planned} {c : Group}
    {before after : List NodeId} (hp : b.Stands cs k ds i p j c before after) {n : NodeId}
    (hn : n ∈ b.declared)
    (hreach : Reaches b.graph.references p.node n)
    (hcase : Reaches b.graph.references n p.node → (b.graph.node p.node).base = some n) :
    ∃ q ∈ ds.take i, q.node = n := by
  have hsorted : ∀ c ∈ cs, (b.graph.basesFirst c.nodes).Perm c.nodes ∧
      b.graph.Sorted c.nodes (b.graph.basesFirst c.nodes) := by
    intro c hc
    apply Graph.basesFirst_sorted (hcs.nodup_group hc)
    intro x hx
    exact hg.not_loop (List.mem_filter.mp (hcs.mem_iff.mpr ⟨c, hc, hx⟩)).1
  obtain ⟨hperm, hbases⟩ := hsorted c (List.mem_of_getElem? hp.mem)
  have hpc : p.node ∈ c.nodes := by
    apply hperm.subset
    rw [show b.graph.basesFirst c.nodes = _ from hp.split]
    simp
  obtain ⟨d, hd, hnd⟩ := hcs.mem_iff.mp hn
  obtain ⟨j', hj'⟩ := List.getElem?_of_mem hd
  have hle := hcs.order j j' c d hp.mem hj' p.node hpc n hnd hreach
  rcases Nat.lt_or_eq_of_le hle with hlt | rfl
  · exact hp.earlier j' hlt d hj' n ((hsorted d hd).1.mem_iff.mpr hnd)
  · obtain rfl : c = d := Option.some.inj (hp.mem.symm.trans hj')
    apply hp.before
    have hback := ((hcs.same_iff j' j' c c hp.mem hp.mem p.node hpc n hnd).mp rfl).2
    exact hbases before p.node after hp.split n hnd (hcase hback)

/-- Every merge is applied to an earlier declaration, unless a model that is written out inside a
declaration has a base that leads back there and is not declared before. -/
theorem mergesEarlier_iff {d : Document} (hlink : Graph.link d = .ok g) (hr : r.Silent)
    (hplan : plan g r = .ok ds) :
    MergesEarlier ds ↔ ∀ (i : Nat) (p : Planned), ds[i]? = some p → ∀ m a, m ≠ p.node →
      ({ graph := g, registry := r } : Builder).Written p.node m →
      ({ graph := g, registry := r } : Builder).Combines m a → Reaches g.references a p.node →
      ∃ q ∈ ds.take i, q.node = a := by
  have hg := Graph.linked_of_link hlink
  constructor
  · intro h i p hp m a _ hwritten hcombines _
    exact h i p hp a ((merges_planned hg hr hplan (List.mem_of_getElem? hp) a).mpr
      ⟨m, hwritten, hcombines⟩)
  · intro h i p hp a hmerges
    obtain ⟨m, hwritten, hcombines⟩ :=
      (merges_planned hg hr hplan (List.mem_of_getElem? hp) a).mp hmerges
    by_cases hback : m ≠ p.node ∧ Reaches g.references a p.node
    · exact h i p hp m a hback.1 hwritten hcombines hback.2
    obtain ⟨cs, hcs, hrun⟩ := plan_groups hplan
    obtain ⟨j, c, before, after, hstands⟩ := Builder.planGroups_at hrun hp
    have hplt : p.node < g.nodes.size :=
      hg.kept _ (List.mem_filter.mp (((plans_of_plan hg hplan).planned_iff p.node).mp
        ⟨p, List.mem_of_getElem? hp, rfl⟩)).1
    obtain ⟨hmlt, hreach⟩ := hwritten.reaches hg.toFit hplt
    obtain ⟨hbase, hrefers⟩ := (Builder.mergeBase?_eq_some hg.toFit hmlt).mp hcombines.base
    have halt := (hg.fits_of_lt hmlt).lt a (Node.mem_mentions_of_base hbase)
    refine earlier_of_reaches hg hcs hstands
      ((Builder.mem_declared_iff hg.toFit).mpr ⟨halt, hrefers⟩)
      (hreach.trans (.edge (Graph.mem_references_of_base hg.toFit hbase))) ?_
    intro hleads
    obtain rfl : m = p.node := by
      by_contra hne
      exact hback ⟨hne, hleads⟩
    exact hbase

/-- A model, one that extends it, and one with a property of that. -/
def extendedInside (own : Property) : Document where
  models :=
    [{ name := "B", properties := [own] },
     { name := "I", base := some (.named "B")
       properties := [{ name := "i", type := .named "string" }] },
     { name := "M", properties := [{ name := "x", type := .named "I" }] }]

/-- The base has an identifier of its own, or leads back to the model with the property. -/
def ownId : Property := { name := "id", type := .named "string" }

def backToM : Property := { name := "m", type := .named "M", optional := true }

-- the models stand at 29, 30 and 31, after the built-in types
theorem extendedInside_planned (own : Property) (order : List NodeId)
    (hrun : (Graph.link (extendedInside own) >>= fun g => (plan g (inlining 30)).map fun ds =>
      let b : Builder := { graph := g, registry := inlining 30 }
      (ds.map (·.node) == order && (b.inside 31).contains 30 && !b.refersTo 30 &&
        (g.node 30).kind == .model && !(g.node 30).isArray,
        b.mergeBase? (g.subject 30))) = .ok (true, some 29)) :
    ∃ g ds, Graph.link (extendedInside own) = .ok g ∧ plan g (inlining 30) = .ok ds ∧
      ds.map (·.node) = order ∧
      ({ graph := g, registry := inlining 30 } : Builder).MergesWithin 31 29 := by
  obtain ⟨g, hg, hrun⟩ := Result.bind_eq_ok.mp hrun
  obtain ⟨ds, hds, hrun⟩ := Result.map_eq_ok.mp hrun
  simp only [Prod.mk.injEq, Bool.and_eq_true, beq_iff_eq, Bool.not_eq_true',
    List.contains_iff_mem] at hrun
  obtain ⟨⟨⟨⟨⟨horder, hinside⟩, hnot⟩, hkind⟩, harray⟩, hbase⟩ := hrun
  exact ⟨g, ds, hg, hds, horder, 30, .step hinside hnot (.self 30), hkind, harray, hbase⟩

set_option maxRecDepth 100000 in
/-- Where the base does not lead back, it is declared first, and the merge is into it. -/
theorem mergesEarlier_iff_ownId : ∃ g ds, Graph.link (extendedInside ownId) = .ok g ∧
    (inlining 30).Silent ∧ plan g (inlining 30) = .ok ds ∧
    (∃ p ∈ ds, p.node = 31 ∧ p.expr.Merges 29) ∧ MergesEarlier ds := by
  obtain ⟨g, ds, hg, hds, horder, hwithin⟩ :=
    extendedInside_planned ownId [29, 31] (by decide +kernel)
  have hrun : (Graph.link (extendedInside ownId)).map (fun g =>
      let b : Builder := { graph := g, registry := inlining 30 }
      ((List.range 30).all fun x => (g.references x).all (· < 30),
        (List.range g.nodes.size).filterMap fun m => (b.mergeBase? (g.subject m)).map (m, ·))) =
      .ok (true, [(30, 29)]) := by decide +kernel
  have hr := silent_inlining 30
  have hlinked := Graph.linked_of_link hg
  refine ⟨g, ds, hg, hr, hds, ?_, (mergesEarlier_iff hg hr hds).mpr ?_⟩
  · obtain ⟨p, hp, hnode⟩ := List.mem_map.mp (horder ▸ by simp : 31 ∈ ds.map (·.node))
    exact ⟨p, hp, hnode, (merges_planned hlinked hr hds hp 29).mpr (hnode ▸ hwithin)⟩
  · rw [hg] at hrun
    obtain ⟨hclosed, honly⟩ := Prod.mk.inj (Except.ok.inj hrun)
    have hlow : ∀ {u v}, Reaches g.references u v → u < 30 → v < 30 := by
      intro u v huv
      refine huv.closed (P := (· < 30)) ?_
      intro x hx y hy
      have hall := List.all_eq_true.mp hclosed x (List.mem_range.mpr hx)
      exact of_decide_eq_true (List.all_eq_true.mp hall y hy)
    intro i p hp m a _ hwritten hcombines hback
    have hplt : p.node < g.nodes.size :=
      hlinked.kept _ (List.mem_filter.mp (((plans_of_plan hlinked hds).planned_iff p.node).mp
        ⟨p, List.mem_of_getElem? hp, rfl⟩)).1
    obtain ⟨hmlt, hreach⟩ := hwritten.reaches hlinked.toFit hplt
    have hmem : (m, a) ∈ [((30 : NodeId), (29 : NodeId))] := by
      rw [← honly]
      exact List.mem_filterMap.mpr ⟨m, List.mem_range.mpr hmlt, by rw [hcombines.base]; rfl⟩
    obtain ⟨rfl, rfl⟩ := Prod.mk.inj (List.mem_singleton.mp hmem)
    -- what the base reaches is built in, and nothing there reaches the inlined model
    exact absurd (hlow hreach (hlow hback (by decide))) (by decide)

set_option maxRecDepth 100000 in
/-- Where it does, the model with the property is declared first and merges into what comes
later. -/
theorem backToM_not_mergesEarlier : ∃ g ds, Graph.link (extendedInside backToM) = .ok g ∧
    (inlining 30).Silent ∧ plan g (inlining 30) = .ok ds ∧ ds.map (·.node) = [31, 29] ∧
    ¬ MergesEarlier ds := by
  obtain ⟨g, ds, hg, hds, horder, hwithin⟩ :=
    extendedInside_planned backToM [31, 29] (by decide +kernel)
  have hr := silent_inlining 30
  refine ⟨g, ds, hg, hr, hds, horder, ?_⟩
  intro h
  obtain ⟨p, rest, rfl, hp, _⟩ := List.map_eq_cons_iff.mp horder
  have hmerges := (merges_planned (Graph.linked_of_link hg) hr hds List.mem_cons_self 29).mpr
    (hp ▸ hwithin)
  obtain ⟨q, hq, _⟩ := h 0 p rfl 29 hmerges
  cases hq

end Plans

end SchemaLoom

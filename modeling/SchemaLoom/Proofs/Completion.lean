import Mathlib.Data.List.TakeWhile
import SchemaLoom.Proofs.Chains
import SchemaLoom.Proofs.PlanOrder

/-!
# When a plan is made

Planning a linked graph follows carriers and element types with no guard, so it
comes to an end exactly when they do. Nothing else in it can go on for ever: what is
written out stands lower and lower in the store. Apart from that, planning fails only
at a default value that has no expression.
-/

namespace SchemaLoom

set_option autoImplicit false

open SchemaLoom.Expr Result

/-! ### Values -/

/-- The value has an expression. -/
def Value.Writable (v : Value) : Prop := ∃ x, Expr.ofValue false v = .ok x

theorem tells_ofValue_all (big : Bool) :
    (∀ v, Tells (ofValue big v) v.Writable fun e =>
      ¬ v.Writable ∧ ∃ r, e.cause = .unsupportedValue r) ∧
    (∀ vs, Tells (ofValues big vs) (∃ xs, ofValues false vs = .ok xs) fun e =>
      (¬ ∃ xs, ofValues false vs = .ok xs) ∧ ∃ r, e.cause = .unsupportedValue r) := by
  apply ofValue.mutual_induct
  · exact fun s => .of_ok rfl ⟨_, rfl⟩
  · exact fun n => .of_ok rfl ⟨_, rfl⟩
  · exact fun b => .of_ok rfl ⟨_, rfl⟩
  · exact .of_ok rfl ⟨_, rfl⟩
  · intro vs ih
    have hiff : (∃ xs, ofValues false vs = .ok xs) ↔ (Value.array vs).Writable := by
      constructor
      · rintro ⟨xs, hxs⟩
        exact ⟨.array xs, by rw [ofValue, hxs]; rfl⟩
      · rintro ⟨x, hx⟩
        obtain ⟨xs, hxs, _⟩ := map_eq_ok.mp hx
        exact ⟨xs, hxs⟩
    rw [ofValue, ← hiff]
    exact ih.map
  · exact fun type s => .of_ok rfl ⟨_, rfl⟩
  · intro type constructor args hother
    have hfail : ∀ big, ofValue big (.scalar type constructor args) = Result.fail
        (.unsupportedValue ("unsupported scalar constructor " ++
          (Text.ofString constructor).quoteForMessage)) := by
      intro big
      rw [ofValue]
      exact hother
    rw [hfail big]
    refine .of_fail ⟨?_, _, rfl⟩
    rintro ⟨x, hx⟩
    rw [hfail false] at hx
    exact absurd hx fail_ne_ok
  · refine .of_fail ⟨?_, _, rfl⟩
    rintro ⟨x, hx⟩
    exact absurd hx fail_ne_ok
  · refine .of_fail ⟨?_, _, rfl⟩
    rintro ⟨x, hx⟩
    exact absurd hx fail_ne_ok
  · exact .of_ok rfl ⟨_, rfl⟩
  · intro v vs ihv ihvs
    rw [ofValues]
    have hboth := ihv.bind fun x _ => ihvs.bind_ok fun xs => ⟨x :: xs, rfl⟩
    refine hboth.mono ?_ ?_
    · rintro ⟨⟨x, hx⟩, xs, hxs⟩
      exact ⟨x :: xs, by rw [ofValues, hx, hxs]; rfl⟩
    · rintro e (⟨hnot, hcause⟩ | ⟨hnot, hcause⟩)
      · refine ⟨?_, hcause⟩
        rintro ⟨ys, hys⟩
        obtain ⟨x, hx, _⟩ := bind_eq_ok.mp hys
        exact hnot ⟨x, hx⟩
      · refine ⟨?_, hcause⟩
        rintro ⟨ys, hys⟩
        obtain ⟨x, _, hys⟩ := bind_eq_ok.mp hys
        obtain ⟨xs, hxs, _⟩ := bind_eq_ok.mp hys
        exact hnot ⟨xs, hxs⟩

theorem ofLiteral_ok {v : Value} (hv : v.isPrimitive = true) :
    ∃ x, ofLiteral (some v) = .ok x := by
  cases v <;> simp_all [Value.isPrimitive, ofLiteral, ofValue]

theorem Node.Fits.literal_ok {g : Graph} {i : NodeId} {n : Node} (hn : n.Fits g i)
    (hkind : n.kind = .string ∨ n.kind = .number ∨ n.kind = .boolean) :
    ∃ es, (do
      let x ← ofLiteral n.literal
      .ok (Expr.fromZ [.call "literal" [x]]) : Result (List Expr)) = .ok es := by
  obtain ⟨v, hv, hprimitive⟩ := hn.literal hkind
  obtain ⟨x, hx⟩ := ofLiteral_ok hprimitive
  rw [hv, hx]
  exact ⟨_, rfl⟩

/-! ### Constraints -/

namespace Graph

variable {g : Graph}

theorem builtInRange_ok (hg : g.Fit) {c : NodeId}
    (h : g.derives c (Text.ofString "numeric") = true) :
    (g.node c).kind = .scalar ∧ ∃ r, g.builtInRange c = .ok r := by
  obtain ⟨a, ha, hstd⟩ := List.any_eq_true.mp h
  simp only [Bool.and_eq_true, beq_iff_eq] at hstd
  have hchain : ∀ x ∈ g.baseChain c, (g.node x).kind = (g.node c).kind := fun x hx =>
    (reaches_of_mem_ancestors hg hx).2
  have hlt : a < g.nodes.size := by
    by_contra hge
    rw [node_of_size_le (Nat.le_of_not_lt hge)] at hstd
    simp at hstd
  have hscalar : (g.node c).kind = .scalar := by
    rw [← hchain a ha]
    exact (hg.fits_of_lt hlt).numeric hstd.1 hstd.2
  refine ⟨hscalar, ?_⟩
  -- the chain has a built-in scalar, so looking for the nearest one stops at a scalar
  have hsome : ∃ s, g.builtInBase? c = some s := by
    unfold builtInBase?
    split
    · rename_i x xs hdrop
      have hx : x ∈ g.baseChain c := (List.dropWhile_sublist _).subset (by rw [hdrop]; simp)
      have hkind : ((g.node x).kind == .scalar) = true := by
        simp [hchain x hx, hscalar]
      rw [if_pos hkind]
      exact ⟨x, rfl⟩
    · rename_i hdrop
      have hall := List.dropWhile_eq_nil_iff.mp hdrop a ha
      simp [hstd.1] at hall
  obtain ⟨s, hs⟩ := hsome
  refine ⟨Range.intrinsic (g.nameOf s).toDisplay, ?_⟩
  simp [builtInRange, builtInBaseName?, hs]

theorem numberCalls_ok (ds : List Decorators) (type : Range) (big : Bool) :
    ∃ es, numberCalls ds type big = .ok es := by
  obtain ⟨es, hes, _⟩ := (Range.reconcile type (Range.ofDecorators ds)).calls_ok big
  exact ⟨es, hes⟩

theorem isBig_scalar {c : NodeId} (h : (g.node c).kind = .scalar) (fuel : Nat) :
    g.isBig (fuel + 1) (some c) = .ok (g.isBigScalar c) := by
  simp [isBig, Node.isArray, h]

/-- Constraints are never in the way. -/
theorem constraints_ok (hg : g.Fit) (t : NodeId) (member : Option Decorators) (inlined : Bool) :
    ∃ es, g.constraints t member inlined = .ok es := by
  have hnumber : ∀ c ds, g.derives c (Text.ofString "numeric") = true → ∃ es,
      (do let range ← g.builtInRange c
          let big ← g.isBig (g.nodes.size + 1) (some c)
          numberCalls ds range big) = .ok es := by
    intro c ds hc
    obtain ⟨hkind, range, hrange⟩ := builtInRange_ok hg hc
    obtain ⟨es, hes⟩ := numberCalls_ok ds range (g.isBigScalar c)
    exact ⟨es, by rw [hrange, isBig_scalar hkind]; exact hes⟩
  unfold constraints
  simp only
  split
  · split
    · split
      · exact ⟨_, rfl⟩
      · rename_i c _ hif
        have hboth : inlined = true ∧ g.derives c (Text.ofString "numeric") = true := by
          simpa using hif
        exact hnumber c [] hboth.2
    · split
      · rename_i hnumeric
        split
        · exact hnumber t _ hnumeric
        · obtain ⟨es, hes⟩ := numberCalls_ok (g.sources t member inlined) {} (g.isBigScalar t)
          refine ⟨es, ?_⟩
          rw [isBig_scalar (builtInRange_ok hg hnumeric).1]
          exact hes
      · split <;> exact ⟨_, rfl⟩
  · split <;> exact ⟨_, rfl⟩

end Graph

namespace Builder

variable {b : Builder}

/-! ### What is written out inside a node -/

/-- The properties that are written out with a model. -/
def fields (b : Builder) (m : NodeId) : List NodeId :=
  if (b.graph.node m).kind = .model ∧ (b.graph.node m).isArray = false then
    b.shapeProperties (b.graph.subject m)
  else []

/-- The types of what is written inside a node. -/
def inside (b : Builder) (m : NodeId) : List NodeId :=
  match (b.graph.node m).kind with
  | .model =>
    if (b.graph.node m).isArray then ((b.graph.node m).indexer.bind (·.value)).toList
    else
      ((b.shapeIndexer? (b.graph.subject m)).bind (·.key)).toList ++
        ((b.shapeIndexer? (b.graph.subject m)).bind (·.value)).toList ++
        (b.shapeProperties (b.graph.subject m)).filterMap fun p => (b.graph.node p).type
  | .union => (b.graph.node m).variants.filterMap fun v => (b.graph.node v).type
  | .tuple => (b.graph.node m).elements
  | _ => []

theorem inside_of_bare {m : NodeId}
    (hkind : (b.graph.node m).kind ∉ [Kind.model, .union, .tuple]) : b.inside m = [] := by
  unfold inside
  split <;> simp_all

/-- The chains followed for a node itself come to an end. -/
structure Grounded (b : Builder) (m : NodeId) : Prop where
  carriers : (b.graph.node m).kind = .scalar → Ends b.graph.carrier? m
  elements : ∀ p ∈ b.fields m, (b.graph.node p).default.isSome → ∀ t,
    (b.graph.node p).type = some t → Ends b.graph.element? t

/-- The defaults of a node have expressions. -/
def Writable (b : Builder) (m : NodeId) : Prop :=
  ∀ p ∈ b.fields m, ∀ v, (b.graph.node p).default = some v → v.Writable

/-- The node itself is the reason for a failure. -/
def Spoils (b : Builder) (m : NodeId) (e : Failure) : Prop :=
  (¬ b.Grounded m ∧ e.cause = .diverges) ∨ (¬ b.Writable m ∧ ∃ r, e.cause = .unsupportedValue r)

/-- A type that is written out where it is used has its base schema. -/
def Done (b : Builder) (base : BaseOf) (t : NodeId) : Prop :=
  t ∉ b.graph.declarations → ∃ es, base (b.graph.subject t) = .ok es

/-- A type that is written out where it is used has none. -/
def Stuck (b : Builder) (base : BaseOf) (t : NodeId) (e : Failure) : Prop :=
  t ∉ b.graph.declarations ∧ base (b.graph.subject t) = .error e

/-- The default of a property is no hindrance. -/
def Defaulted (b : Builder) (prop : Node) (t : NodeId) : Prop :=
  ∀ v, prop.default = some v → Ends b.graph.element? t ∧ v.Writable

/-- The default of a property is the reason for a failure. -/
def Misfit (b : Builder) (prop : Node) (t : NodeId) (e : Failure) : Prop :=
  ∃ v, prop.default = some v ∧ ((¬ Ends b.graph.element? t ∧ e.cause = .diverges) ∨
    (¬ v.Writable ∧ ∃ r, e.cause = .unsupportedValue r))

section Steps
variable {base : BaseOf}

theorem tells_memberParts (hg : b.graph.Fit) (prop : Node) (t : NodeId) :
    Tells (b.memberParts prop (some (b.graph.subject t))) (b.Defaulted prop t)
      (b.Misfit prop t) := by
  cases hdefault : prop.default with
  | none =>
    rw [memberParts_none _ hdefault]
    refine .of_ok rfl ?_
    intro v hv
    rw [hdefault] at hv
    cases hv
  | some v =>
    rw [memberParts_some _ hdefault]
    have hbig := (Graph.follows_isBig hg _ t).tells fun _ _ => Graph.lt_of_element?
    have hvalue : ∀ big, Tells (do
        let x ← Expr.ofValue big v
        .ok (optionalParts prop ++ [Expr.call "default" [x]]) : Result (List Expr)) v.Writable
        fun e => ¬ v.Writable ∧ ∃ r, e.cause = .unsupportedValue r := fun big =>
      ((tells_ofValue_all big).1 v).bind_ok fun x => ⟨_, rfl⟩
    refine (hbig.bind fun big _ => hvalue big).mono ?_ ?_
    · rintro ⟨hends, hv⟩ w hw
      obtain rfl : v = w := Option.some.inj (hdefault.symm.trans hw)
      exact ⟨hends, hv⟩
    · exact fun e he => ⟨v, hdefault, he⟩

/-- A field succeeds or fails with its type, if that is written out, and with its default. -/
theorem tells_field (hg : b.graph.Fit) (hr : b.registry = {}) (prop : Subject) {t : NodeId}
    (ht : t < b.graph.nodes.size) :
    Tells (b.field base prop (some (b.graph.subject t)))
      (b.Done base t ∧ b.Defaulted prop.node t)
      fun e => b.Stuck base t e ∨ b.Misfit prop.node t e := by
  rw [field_of_silent (Registry.silent_of_empty hr)]
  apply Tells.map
  have htarget := target?_subject hg hr ht
  have hmember := tells_memberParts hg prop.node t
  by_cases hdecl : t ∈ b.graph.declarations
  · rw [if_pos hdecl] at htarget
    obtain ⟨cs, hcs⟩ := Graph.constraints_ok hg t (some prop.node.decorators) false
    have hcs : b.constraints (b.graph.subject t) (some prop.node) false = .ok cs := hcs
    rw [fieldParts_refer base prop.node htarget, hcs]
    refine (hmember.bind_ok fun member => ⟨_, rfl⟩).mono ?_ ?_
    · exact fun h => ⟨fun hnot => absurd hdecl hnot, h⟩
    · exact fun e => .inr
  · rw [if_neg hdecl] at htarget
    obtain ⟨cs, hcs⟩ := Graph.constraints_ok hg t (some prop.node.decorators) true
    have hcs : b.constraints (b.graph.subject t) (some prop.node) true = .ok cs := hcs
    have hbase : Tells (base (b.graph.subject t)) (b.Done base t) (b.Stuck base t) :=
      ⟨fun es hes _ => ⟨es, hes⟩, fun e he => ⟨hdecl, he⟩⟩
    rw [fieldParts_inline base prop.node htarget, hcs]
    exact hbase.bind fun bs _ => hmember.bind_ok fun member => ⟨_, rfl⟩

theorem tells_inline (hg : b.graph.Fit) {t : NodeId}
    (hkind : (b.graph.node t).kind ≠ .modelProperty) {G : Prop} {B : Failure → Prop}
    (hbase : Tells (base (b.graph.subject t)) G B) :
    Tells (b.inline base (b.graph.subject t)) G B := by
  have hif : ¬ ((b.graph.subject t).node.kind == .modelProperty) = true := by
    simpa [Graph.subject] using hkind
  obtain ⟨cs, hcs⟩ := Graph.constraints_ok hg t none true
  have hcs : b.constraints (b.graph.subject t) none true = .ok cs := hcs
  rw [inline, inlineParts, if_neg hif, hcs]
  exact (hbase.bind_ok fun bs => ⟨_, rfl⟩).map

/-- A use succeeds or fails with the node, if that is written out. -/
theorem tells_nested (base : BaseOf) (hg : b.graph.Fit) (hr : b.registry = {}) {t : NodeId}
    (ht : t < b.graph.nodes.size) (hkind : (b.graph.node t).kind ≠ .modelProperty) :
    Tells (b.nested base (b.subject? (some t))) (b.Done base t) (b.Stuck base t) := by
  rw [subject?_of_lt ht, nested_of_silent (Registry.silent_of_empty hr), target?_subject hg hr ht]
  by_cases hdecl : t ∈ b.graph.declarations
  · rw [if_pos hdecl]
    exact .of_ok rfl fun hnot => absurd hdecl hnot
  · rw [if_neg hdecl]
    exact tells_inline hg hkind
      ⟨fun es hes _ => ⟨es, hes⟩, fun e he => ⟨hdecl, he⟩⟩

theorem exists_type (hg : b.graph.Fit) {p : NodeId} (hp : p < b.graph.nodes.size)
    (hkind : (b.graph.node p).kind = .modelProperty ∨ (b.graph.node p).kind = .unionVariant) :
    ∃ t, (b.graph.node p).type = some t ∧ t < b.graph.nodes.size ∧
      (b.graph.node t).kind ≠ .modelProperty := by
  have hfits := hg.fits_of_lt hp
  obtain ⟨t, ht⟩ := Option.isSome_iff_exists.mp (hfits.typed hkind)
  have hslot := Node.mem_slots_of_type ht
  exact ⟨t, ht, hfits.lt t (Node.mem_mentions_of_slot hslot), hfits.slots t hslot⟩

theorem mem_shapeProperties (hg : b.graph.Fit) {m p : NodeId} (hm : m < b.graph.nodes.size)
    (hp : p ∈ b.shapeProperties (b.graph.subject m)) :
    p < b.graph.nodes.size ∧ (b.graph.node p).kind = .modelProperty := by
  obtain ⟨x, hx, hp⟩ := List.mem_flatMap.mp hp
  obtain ⟨i, hi, rfl, _⟩ := mem_flattened hm (List.mem_reverse.mp hx)
  have hfits := hg.fits_of_lt hi
  exact ⟨hfits.lt p (Node.mem_mentions_of_property hp), hfits.properties p hp⟩

/-- The fields of an object succeed or fail with their types and defaults. -/
theorem tells_objectOf (base : BaseOf) (hg : b.graph.Fit) (hr : b.registry = {}) {ps : List NodeId}
    (hps : ∀ p ∈ ps, p < b.graph.nodes.size ∧ (b.graph.node p).kind = .modelProperty) :
    Tells (b.objectOf base ps)
      (∀ p ∈ ps, ∀ t, (b.graph.node p).type = some t →
        b.Done base t ∧ b.Defaulted (b.graph.node p) t)
      fun e => ∃ p ∈ ps, ∃ t, (b.graph.node p).type = some t ∧
        (b.Stuck base t e ∨ b.Misfit (b.graph.node p) t e) := by
  refine (Tells.mapM (G := fun p => ∀ t, (b.graph.node p).type = some t →
      b.Done base t ∧ b.Defaulted (b.graph.node p) t)
    (B := fun p e => ∃ t, (b.graph.node p).type = some t ∧
      (b.Stuck base t e ∨ b.Misfit (b.graph.node p) t e)) ?_).bind_ok fun fields => ⟨_, rfl⟩
  intro p hp
  obtain ⟨hlt, hkind⟩ := hps p hp
  obtain ⟨t, ht, htlt, _⟩ := exists_type hg hlt (.inl hkind)
  rw [fieldOf_of_type hlt ht htlt]
  refine ((tells_field hg hr (b.graph.subject p) htlt).bind_ok fun x => ⟨_, rfl⟩).mono ?_ ?_
  · intro h u hu
    obtain rfl : t = u := Option.some.inj (ht.symm.trans hu)
    exact h
  · exact fun e he => ⟨t, ht, he⟩

theorem tells_recordOf (base : BaseOf) (hg : b.graph.Fit) (hr : b.registry = {}) {ix : Indexer}
    {key value : NodeId}
    (hkey : ix.key = some key) (hvalue : ix.value = some value)
    (hlt : key < b.graph.nodes.size ∧ value < b.graph.nodes.size)
    (hkind : (b.graph.node key).kind ≠ .modelProperty ∧
      (b.graph.node value).kind ≠ .modelProperty) :
    Tells (b.recordOf base ix) (b.Done base key ∧ b.Done base value)
      fun e => b.Stuck base key e ∨ b.Stuck base value e := by
  rw [recordOf, hkey, hvalue]
  exact (tells_nested base hg hr hlt.1 hkind.1).bind fun k _ =>
    (tells_nested base hg hr hlt.2 hkind.2).bind_ok fun v => ⟨_, rfl⟩

/-- What one node and its parts tell. -/
def StepTells (b : Builder) (base : BaseOf) (m : NodeId) (x : Result (List Expr)) : Prop :=
  Tells x (b.Grounded m ∧ b.Writable m ∧ ∀ t ∈ b.inside m, b.Done base t)
    fun e => b.Spoils m e ∨ ∃ t ∈ b.inside m, b.Stuck base t e

theorem fields_of_not_shape {m : NodeId}
    (h : (b.graph.node m).kind ≠ .model ∨ (b.graph.node m).isArray = true) : b.fields m = [] := by
  unfold fields
  apply if_neg
  rintro ⟨hkind, harray⟩
  rcases h with h | h
  · exact h hkind
  · rw [harray] at h
    cases h

/-- A node with no fields, and no carrier to follow, spoils nothing. -/
theorem StepTells.of_parts {m : NodeId} {x : Result (List Expr)}
    (hkind : (b.graph.node m).kind ≠ .scalar) (hfields : b.fields m = [])
    (h : Tells x (∀ t ∈ b.inside m, b.Done base t)
      fun e => ∃ t ∈ b.inside m, b.Stuck base t e) : b.StepTells base m x := by
  refine h.mono (fun hall => ⟨⟨fun hs => absurd hs hkind, ?_⟩, ?_, hall⟩) fun e => .inr
  · simp [hfields]
  · simp [Writable, hfields]

theorem fields_of_shape {m : NodeId} (hkind : (b.graph.node m).kind = .model)
    (harray : (b.graph.node m).isArray = false) :
    b.fields m = b.shapeProperties (b.graph.subject m) := by
  simp [fields, hkind, harray]

theorem mem_inside_of_shape {m t : NodeId} (hkind : (b.graph.node m).kind = .model)
    (harray : (b.graph.node m).isArray = false) :
    t ∈ b.inside m ↔ (b.shapeIndexer? (b.graph.subject m)).bind (·.key) = some t ∨
      (b.shapeIndexer? (b.graph.subject m)).bind (·.value) = some t ∨
      ∃ p ∈ b.fields m, (b.graph.node p).type = some t := by
  rw [fields_of_shape hkind harray]
  simp [inside, hkind, harray]

/-- The object of its fields tells all about a model but for the map it may be. -/
theorem tells_fields (base : BaseOf) (hg : b.graph.Fit) (hr : b.registry = {}) {m : NodeId}
    (hm : m < b.graph.nodes.size) (hkind : (b.graph.node m).kind = .model)
    (harray : (b.graph.node m).isArray = false) :
    Tells (b.objectOf base (b.fields m))
      (b.Grounded m ∧ b.Writable m ∧
        ∀ p ∈ b.fields m, ∀ t, (b.graph.node p).type = some t → b.Done base t)
      fun e => b.Spoils m e ∨ ∃ t ∈ b.inside m, b.Stuck base t e := by
  have hps : ∀ p ∈ b.fields m,
      p < b.graph.nodes.size ∧ (b.graph.node p).kind = .modelProperty := by
    rw [fields_of_shape hkind harray]
    exact fun p hp => mem_shapeProperties hg hm hp
  refine (tells_objectOf base hg hr hps).mono ?_ ?_
  · intro h
    refine ⟨⟨fun hs => ?_, ?_⟩, ?_, fun p hp t ht => (h p hp t ht).1⟩
    · rw [hkind] at hs
      cases hs
    · intro p hp hsome t ht
      obtain ⟨v, hv⟩ := Option.isSome_iff_exists.mp hsome
      exact ((h p hp t ht).2 v hv).1
    · intro p hp v hv
      obtain ⟨t, ht, _⟩ := exists_type hg (hps p hp).1 (.inl (hps p hp).2)
      exact ((h p hp t ht).2 v hv).2
  · rintro e ⟨p, hp, t, ht, hstuck | ⟨v, hv, ⟨hends, hcause⟩ | ⟨hnot, hcause⟩⟩⟩
    · exact .inr ⟨t, (mem_inside_of_shape hkind harray).mpr (.inr (.inr ⟨p, hp, ht⟩)), hstuck⟩
    · refine .inl (.inl ⟨fun hground => hends (hground.elements p hp ?_ t ht), hcause⟩)
      rw [hv]
      rfl
    · exact .inl (.inr ⟨fun hw => hnot (hw p hp v hv), hcause⟩)

/-- The map of a model has a key and a value type. -/
theorem shapeIndexer?_types (hg : b.graph.Fit) {m : NodeId} (hm : m < b.graph.nodes.size)
    {ix : Indexer} (hix : b.shapeIndexer? (b.graph.subject m) = some ix) :
    ∃ i key value, i ∈ b.graph.ancestors (b.graph.nodes.size + 1) m ∧ i < b.graph.nodes.size ∧
      ix.key = some key ∧ ix.value = some value ∧
      key ∈ (b.graph.node i).slots ∧ value ∈ (b.graph.node i).slots := by
  obtain ⟨x, hx, hrecord⟩ := List.exists_of_findSome?_eq_some hix
  obtain ⟨i, hi, rfl, hmem⟩ := mem_flattened hm hx
  split at hrecord
  · rename_i hisRecord
    obtain ⟨key, hkey⟩ : ∃ key, ix.key = some key := by
      unfold Graph.isRecord at hisRecord
      rw [hrecord] at hisRecord
      cases hk : ix.key with
      | none => simp [hk] at hisRecord
      | some key => exact ⟨key, rfl⟩
    obtain ⟨value, hvalue⟩ :=
      Option.isSome_iff_exists.mp ((hg.fits_of_lt hi).valued ix hrecord)
    exact ⟨i, key, value, hmem, hi, hkey, hvalue, Node.mem_slots_of_key hrecord hkey,
      Node.mem_slots_of_value hrecord hvalue⟩
  · cases hrecord

theorem tells_shape (hg : b.graph.Fit) (hr : b.registry = {}) {m : NodeId}
    (hm : m < b.graph.nodes.size) (hkind : (b.graph.node m).kind = .model)
    (harray : (b.graph.node m).isArray = false) :
    b.StepTells base m (b.shape base (b.graph.subject m)) := by
  have hfields := tells_fields base hg hr hm hkind harray
  have hinside := @mem_inside_of_shape b m
  cases hix : b.shapeIndexer? (b.graph.subject m) with
  | none =>
    rw [shape_none base hix, ← fields_of_shape hkind harray]
    refine hfields.map.mono ?_ fun e he => he
    rintro ⟨hground, hwritable, hall⟩
    refine ⟨hground, hwritable, ?_⟩
    intro t ht
    rw [hinside hkind harray, hix] at ht
    obtain ht | ht | ⟨p, hp, ht⟩ := ht
    · cases ht
    · cases ht
    · exact hall p hp t ht
  | some ix =>
    rw [shape_some base hix, ← fields_of_shape hkind harray]
    obtain ⟨i, key, value, _, hi, hkey, hvalue, hkeySlot, hvalueSlot⟩ :=
      shapeIndexer?_types hg hm hix
    have hfits := hg.fits_of_lt hi
    have hmap := tells_recordOf base hg hr hkey hvalue
      ⟨hfits.lt key (Node.mem_mentions_of_slot hkeySlot),
        hfits.lt value (Node.mem_mentions_of_slot hvalueSlot)⟩
      ⟨hfits.slots key hkeySlot, hfits.slots value hvalueSlot⟩
    have hrest : ∀ r, Tells
        (if (b.fields m).isEmpty then .ok r
          else (b.objectOf base (b.fields m)).map fun obj => Expr.fromZ [.call "intersection"
            [.ofParts [Expr.fromZ [.call "object" [obj]]], .ofParts [r]]] : Result (List Expr))
        (b.Grounded m ∧ b.Writable m ∧
          ∀ p ∈ b.fields m, ∀ t, (b.graph.node p).type = some t → b.Done base t)
        fun e => b.Spoils m e ∨ ∃ t ∈ b.inside m, b.Stuck base t e := by
      intro r
      split
      · rename_i hempty
        refine .of_ok rfl (hfields.ok (.object []) ?_)
        rw [List.isEmpty_iff.mp hempty]
        rfl
      · exact hfields.map
    refine (hmap.bind fun r _ => hrest r).mono ?_ ?_
    · rintro ⟨⟨hdoneKey, hdoneValue⟩, hground, hwritable, hall⟩
      refine ⟨hground, hwritable, ?_⟩
      intro t ht
      rw [hinside hkind harray, hix, Option.bind_some, Option.bind_some, hkey, hvalue] at ht
      obtain ht | ht | ⟨p, hp, ht⟩ := ht
      · cases ht
        exact hdoneKey
      · cases ht
        exact hdoneValue
      · exact hall p hp t ht
    · rintro e ((he | he) | he)
      · exact .inr ⟨key, (hinside hkind harray).mpr (.inl (by rw [hix]; exact hkey)), he⟩
      · exact .inr ⟨value, (hinside hkind harray).mpr (.inr (.inl (by rw [hix]; exact hvalue))), he⟩
      · exact he

theorem tells_modelSchema (hg : b.graph.Fit) (hr : b.registry = {}) {m : NodeId}
    (hm : m < b.graph.nodes.size) (hkind : (b.graph.node m).kind = .model) :
    b.StepTells base m (b.modelSchema base (b.graph.subject m)) := by
  have hnode : (b.graph.subject m).node = b.graph.node m := rfl
  rw [modelSchema, hnode]
  by_cases harray : (b.graph.node m).isArray = true
  · rw [if_pos harray]
    obtain ⟨t, ht⟩ := hg.element?_of_isArray harray
    obtain ⟨ix, hix, hvalue⟩ := Option.bind_eq_some_iff.mp ht
    have hslot := Node.mem_slots_of_value hix hvalue
    have hfits := hg.fits_of_lt hm
    have hinside : b.inside m = [t] := by simp [inside, hkind, harray, ht]
    refine .of_parts (by simp [hkind]) (fields_of_not_shape (.inr harray)) ?_
    rw [ht, hinside]
    refine ((tells_nested base hg hr (hfits.lt t (Node.mem_mentions_of_slot hslot))
      (hfits.slots t hslot)).bind_ok fun elem => ⟨_, rfl⟩).mono ?_ ?_
    · simp
    · simp
  · have hfalse : (b.graph.node m).isArray = false := by simpa using harray
    rw [if_neg harray]
    refine (tells_shape hg hr hm hkind hfalse).bind_ok ?_
    intro shape
    cases b.mergeBase? (b.graph.subject m) with
    | none => exact ⟨_, rfl⟩
    | some a => exact ⟨_, rfl⟩

/-! ### Unions -/

/-- The tag of an envelope has its base schema. -/
def Tagged (base : BaseOf) : Prop :=
  ∀ v, v.isPrimitive = true →
    ∃ es, base { node := { kind := .string, literal := some v } } = .ok es

theorem tag_ok (hr : b.registry = {}) (htag : Tagged base) (prop : Subject) {v : Value}
    (hv : v.isPrimitive = true) (hdefault : prop.node.default = none) :
    ∃ e, b.field base prop (some { node := { kind := .string, literal := some v } }) = .ok e := by
  have htarget : b.target? { node := { kind := .string, literal := some v } } = none := by
    simp [target?, isReferenced_eq hr, Node.isReferred, Node.isDeclaration]
  obtain ⟨es, hes⟩ := htag v hv
  rw [field_of_silent (Registry.silent_of_empty hr), fieldParts_inline base prop.node htarget, hes,
    memberParts_none _ hdefault]
  exact ⟨_, rfl⟩

theorem tells_variant (hg : b.graph.Fit) (hr : b.registry = {}) (htag : Tagged base)
    (d : Option Discriminator) {v t : NodeId} (hv : v < b.graph.nodes.size)
    (ht : (b.graph.node v).type = some t) (hlt : t < b.graph.nodes.size)
    (hkind : (b.graph.node t).kind ≠ .modelProperty) :
    Tells (b.variant base d v) (b.Done base t) (b.Stuck base t) := by
  have hnested := tells_nested base hg hr hlt hkind
  rw [variant, Graph.node?_of_lt hv]
  simp only [ht]
  split
  · exact hnested
  · rename_i d
    split
    · exact hnested
    · obtain ⟨tag, htag⟩ := tag_ok hr htag
        { node := { kind := .modelProperty, name := d.property } }
        (show (Value.string (b.graph.node v).name.toDisplay).isPrimitive = true from rfl) rfl
      have hsubject : b.subject? (some t) = some (b.graph.subject t) := Graph.subject?_of_lt hlt
      rw [envelope, htag, ht, hsubject]
      refine ((tells_field hg hr _ hlt).bind_ok fun payload => ⟨_, rfl⟩).mono And.left ?_
      rintro e (he | ⟨_, hdefault, _⟩)
      · exact he
      · cases hdefault

theorem tells_unionSchema (hg : b.graph.Fit) (hr : b.registry = {}) (htag : Tagged base)
    {m : NodeId} (hm : m < b.graph.nodes.size) (hkind : (b.graph.node m).kind = .union) :
    b.StepTells base m (b.unionSchema base (b.graph.node m)) := by
  have hfits := hg.fits_of_lt hm
  have hinside : ∀ t, t ∈ b.inside m ↔
      ∃ v ∈ (b.graph.node m).variants, (b.graph.node v).type = some t := by
    simp [inside, hkind]
  refine .of_parts (by simp [hkind]) (fields_of_not_shape (.inl (by simp [hkind]))) ?_
  have hvariants : Tells ((b.graph.node m).variants.mapM
      (b.variant base (b.graph.node m).discriminator))
      (∀ v ∈ (b.graph.node m).variants, ∀ t, (b.graph.node v).type = some t → b.Done base t)
      fun e => ∃ v ∈ (b.graph.node m).variants,
        ∃ t, (b.graph.node v).type = some t ∧ b.Stuck base t e := by
    apply Tells.mapM
    intro v hv
    have hlt := hfits.lt v (Node.mem_mentions_of_variant hv)
    obtain ⟨t, ht, htlt, htkind⟩ := exists_type hg hlt (.inr (hfits.variants v hv))
    refine (tells_variant hg hr htag _ hlt ht htlt htkind).mono ?_ ?_
    · intro h u hu
      obtain rfl : t = u := Option.some.inj (ht.symm.trans hu)
      exact h
    · exact fun e he => ⟨t, ht, he⟩
  rw [unionSchema]
  refine (hvariants.bind_ok ?_).mono ?_ ?_
  · intro elems
    cases (b.graph.node m).discriminator with
    | none => exact ⟨_, rfl⟩
    | some d => exact ⟨_, rfl⟩
  · intro h t ht
    obtain ⟨v, hv, ht⟩ := (hinside t).mp ht
    exact h v hv t ht
  · rintro e ⟨v, hv, t, ht, he⟩
    exact ⟨t, (hinside t).mpr ⟨v, hv, ht⟩, he⟩

/-! ### Base schemas -/

theorem StepTells.of_bare {m : NodeId} {x : Result (List Expr)} {k : Kind}
    (hkind : (b.graph.node m).kind = k) (hk : k ∉ [Kind.scalar, .model, .union, .tuple])
    (hx : ∃ es, x = .ok es) : b.StepTells base m x := by
  obtain ⟨es, hx⟩ := hx
  have hinside : b.inside m = [] := inside_of_bare fun h => by simp_all
  have hscalar : (b.graph.node m).kind ≠ .scalar := by
    rintro h
    simp [← hkind, h] at hk
  have hmodel : (b.graph.node m).kind ≠ .model := by
    rintro h
    simp [← hkind, h] at hk
  refine .of_parts hscalar (fields_of_not_shape (.inl hmodel)) (.of_ok hx ?_)
  simp [hinside]

theorem tells_scalarSchema {m : NodeId} (hkind : (b.graph.node m).kind = .scalar) :
    b.StepTells base m (b.graph.scalarSchema (b.graph.nodes.size + 1) m) := by
  have hfields : b.fields m = [] := fields_of_not_shape (.inl (by simp [hkind]))
  have hinside : b.inside m = [] := by simp [inside, hkind]
  refine ((Graph.follows_scalarSchema _ m).tells fun _ _ => Graph.lt_of_carrier?).mono ?_ ?_
  · intro hends
    refine ⟨⟨fun _ => hends, ?_⟩, ?_, ?_⟩
    · simp [hfields]
    · simp [Writable, hfields]
    · simp [hinside]
  · rintro e ⟨hnot, hcause⟩
    exact .inl (.inl ⟨fun hground => hnot (hground.carriers hkind), hcause⟩)

/-- One step tells about the node and its parts. -/
theorem tells_baseStep (hg : b.graph.Fit) (hr : b.registry = {}) (htag : Tagged base) {m : NodeId}
    (hm : m < b.graph.nodes.size) (hnot : (b.graph.node m).kind ≠ .modelProperty) :
    b.StepTells base m (b.baseStep base (b.graph.subject m)) := by
  have hnode : (b.graph.subject m).node = b.graph.node m := rfl
  have hid : (b.graph.subject m).id = some m := rfl
  have hfits := hg.fits_of_lt hm
  simp only [baseStep, hnode, hid]
  cases hkind : (b.graph.node m).kind with
  | intrinsic => exact .of_bare hkind (by decide) ⟨_, rfl⟩
  | string => exact .of_bare hkind (by decide) (hfits.literal_ok (.inl hkind))
  | number => exact .of_bare hkind (by decide) (hfits.literal_ok (.inr (.inl hkind)))
  | boolean => exact .of_bare hkind (by decide) (hfits.literal_ok (.inr (.inr hkind)))
  | scalar => exact tells_scalarSchema hkind
  | model => exact tells_modelSchema hg hr hm hkind
  | union => exact tells_unionSchema hg hr htag hm hkind
  | enum =>
    have hmembers : ∃ es, (b.graph.node m).members.mapM (b.enumMember base) = .ok es := by
      apply exists_mapM_eq_ok
      intro x hx
      exact ⟨_, enumMember_of_silent (Registry.silent_of_empty hr) base
        (hfits.lt x (Node.mem_mentions_of_member hx))⟩
    obtain ⟨es, hes⟩ := hmembers
    rw [hes]
    exact .of_bare hkind (by decide) ⟨_, rfl⟩
  | enumMember => exact .of_bare hkind (by decide) ⟨_, rfl⟩
  | tuple =>
    have hinside : b.inside m = (b.graph.node m).elements := by simp [inside, hkind]
    refine .of_parts (by simp [hkind]) (fields_of_not_shape (.inl (by simp [hkind]))) ?_
    rw [hinside]
    refine Tells.bind_ok ?_ fun elems => ⟨_, rfl⟩
    apply Tells.mapM
    intro t ht
    have hslot := Node.mem_slots_of_element ht
    have hlt := hfits.lt t (Node.mem_mentions_of_slot hslot)
    exact tells_nested base hg hr hlt (hfits.slots t hslot)
  | modelProperty => exact absurd hkind hnot
  | unionVariant => exact .of_bare hkind (by decide) ⟨_, rfl⟩
  | scope => exact .of_bare hkind (by decide) ⟨_, rfl⟩
  | interface => exact .of_bare hkind (by decide) ⟨_, rfl⟩
  | operation => exact .of_bare hkind (by decide) ⟨_, rfl⟩
  | unknown => exact .of_bare hkind (by decide) ⟨_, rfl⟩

end Steps

/-! ### Down the store -/

/-- How high a node stands: declarations above all others. -/
def height (b : Builder) (m : NodeId) : Nat :=
  if m ∈ b.graph.declarations then b.graph.nodes.size else m

section Heights

/-- The ancestors of a node without a declaration stand no higher and have none either. -/
theorem ancestors_below (hg : b.graph.Fit) {fuel : Nat} {m a : NodeId}
    (hm : m ∉ b.graph.declarations) (ha : a ∈ b.graph.ancestors fuel m) :
    a ∉ b.graph.declarations ∧ a ≤ m := by
  induction fuel generalizing m with
  | zero => simp [Graph.ancestors] at ha
  | succ fuel ih =>
    rw [Graph.ancestors] at ha
    split at ha
    · simp at ha
    · rename_i node hnode
      rcases List.mem_cons.mp ha with rfl | ha
      · exact ⟨hm, Nat.le_refl a⟩
      · split at ha
        · simp at ha
        · rename_i c hc
          have hfits := hg.fits m node hnode
          have hnot := (hfits.plain hm).2 c hc
          have hlt := (hfits.below hm c (Node.mem_mentions_of_base hc)).resolve_left hnot
          obtain ⟨hdecl, hle⟩ := ih hnot ha
          exact ⟨hdecl, Nat.le_trans hle (Nat.le_of_lt hlt)⟩

theorem slot_below (hg : b.graph.Fit) {i t : NodeId} (hi : i < b.graph.nodes.size)
    (hnot : i ∉ b.graph.declarations) (ht : t ∈ (b.graph.node i).slots)
    (htnot : t ∉ b.graph.declarations) : t < i :=
  ((hg.fits_of_lt hi).below hnot t (Node.mem_mentions_of_slot ht)).resolve_left htnot

/-- A type inside a node fills a slot of the node, of an ancestor, or of a part of one. -/
theorem inside_cases (hg : b.graph.Fit) {m t : NodeId} (hm : m < b.graph.nodes.size)
    (ht : t ∈ b.inside m) :
    ∃ i ∈ b.graph.ancestors (b.graph.nodes.size + 1) m, t ∈ (b.graph.node i).slots ∨
      ∃ p, (p ∈ (b.graph.node i).properties ∨ p ∈ (b.graph.node i).variants) ∧
        t ∈ (b.graph.node p).slots := by
  have hself : m ∈ b.graph.ancestors (b.graph.nodes.size + 1) m := by
    rw [Graph.ancestors, Graph.node?_of_lt hm]
    exact List.mem_cons_self
  cases hkind : (b.graph.node m).kind with
  | model =>
    cases harray : (b.graph.node m).isArray with
    | true =>
      have ht : (b.graph.node m).indexer.bind (·.value) = some t := by
        simpa [inside, hkind, harray] using ht
      exact ⟨m, hself, .inl (Node.mem_slots.mpr (.inr (.inl ht)))⟩
    | false =>
      rcases (mem_inside_of_shape hkind harray).mp ht with ht | ht | ⟨p, hp, ht⟩
      · obtain ⟨ix, hix, ht⟩ := Option.bind_eq_some_iff.mp ht
        obtain ⟨i, key, value, hi, _, hkey, _, hslot, _⟩ := shapeIndexer?_types hg hm hix
        obtain rfl : key = t := Option.some.inj (hkey.symm.trans ht)
        exact ⟨i, hi, .inl hslot⟩
      · obtain ⟨ix, hix, ht⟩ := Option.bind_eq_some_iff.mp ht
        obtain ⟨i, key, value, hi, _, _, hvalue, _, hslot⟩ := shapeIndexer?_types hg hm hix
        obtain rfl : value = t := Option.some.inj (hvalue.symm.trans ht)
        exact ⟨i, hi, .inl hslot⟩
      · rw [fields_of_shape hkind harray] at hp
        obtain ⟨x, hx, hp⟩ := List.mem_flatMap.mp hp
        obtain ⟨i, _, rfl, hi⟩ := mem_flattened hm (List.mem_reverse.mp hx)
        exact ⟨i, hi, .inr ⟨p, .inl hp, Node.mem_slots_of_type ht⟩⟩
  | union =>
    obtain ⟨v, hv, ht⟩ : ∃ v ∈ (b.graph.node m).variants, (b.graph.node v).type = some t := by
      simpa [inside, hkind] using ht
    exact ⟨m, hself, .inr ⟨v, .inr hv, Node.mem_slots_of_type ht⟩⟩
  | tuple =>
    have ht : t ∈ (b.graph.node m).elements := by simpa [inside, hkind] using ht
    exact ⟨m, hself, .inl (Node.mem_slots_of_element ht)⟩
  | _ => simp [inside, hkind] at ht

/-- What is written out inside a node stands lower than the node. -/
theorem inside_below (hg : b.graph.Fit) {m t : NodeId} (hm : m < b.graph.nodes.size)
    (ht : t ∈ b.inside m) (hnot : t ∉ b.graph.declarations) :
    t < b.graph.nodes.size ∧ (b.graph.node t).kind ≠ .modelProperty ∧ b.height t < b.height m := by
  obtain ⟨i, hi, hcase⟩ := inside_cases hg hm ht
  have hilt := Graph.lt_of_mem_ancestors hi
  have hfits := hg.fits_of_lt hilt
  have hheight : t < b.graph.nodes.size → (m ∉ b.graph.declarations → t < m) →
      b.height t < b.height m := by
    intro hlt hlow
    unfold height
    rw [if_neg hnot]
    split
    · exact hlt
    · rename_i hdecl
      exact hlow hdecl
  rcases hcase with hslot | ⟨p, hp, hslot⟩
  · have hlt := hfits.lt t (Node.mem_mentions_of_slot hslot)
    refine ⟨hlt, hfits.slots t hslot, hheight hlt fun hdecl => ?_⟩
    obtain ⟨hinot, hile⟩ := ancestors_below hg hdecl hi
    exact Nat.lt_of_lt_of_le (slot_below hg hilt hinot hslot hnot) hile
  · have hmention : p ∈ (b.graph.node i).mentions := by
      rcases hp with hp | hp
      · exact Node.mem_mentions_of_property hp
      · exact Node.mem_mentions_of_variant hp
    have hplt := hfits.lt p hmention
    -- properties and variants are never declared
    have hpnot : p ∉ b.graph.declarations := by
      intro hmem
      have hreferred := (hg.fits_of_lt hplt).declared_iff.mpr hmem
      rcases hp with hp | hp
      · simp [Node.isReferred, Node.isDeclaration, hfits.properties p hp] at hreferred
      · simp [Node.isReferred, Node.isDeclaration, hfits.variants p hp] at hreferred
    have hpfits := hg.fits_of_lt hplt
    have hlt := hpfits.lt t (Node.mem_mentions_of_slot hslot)
    refine ⟨hlt, hpfits.slots t hslot, hheight hlt fun hdecl => ?_⟩
    obtain ⟨hinot, hile⟩ := ancestors_below hg hdecl hi
    have hpi := (hfits.below hinot p hmention).resolve_left hpnot
    exact Nat.lt_of_lt_of_le (Nat.lt_trans (slot_below hg hplt hpnot hslot hnot) hpi) hile

end Heights

/-- `n` is written out as a part of `m`. -/
inductive Part (b : Builder) : NodeId → NodeId → Prop
  | self (m : NodeId) : Part b m m
  | step {m t n : NodeId} : t ∈ b.inside m → t ∉ b.graph.declarations → Part b t n → Part b m n

/-- A base schema succeeds or fails with the parts of the node. The induction goes down the store,
so the nodes that are being expanded stand higher and do not come up again. -/
theorem tells_baseSchema (hg : b.graph.Fit) (hr : b.registry = {}) {fuel : Nat}
    {expanding : List NodeId} {m : NodeId} (hm : m < b.graph.nodes.size)
    (hkind : (b.graph.node m).kind ≠ .modelProperty) (hfuel : b.height m + 2 ≤ fuel)
    (hexpanding : ∀ x ∈ expanding, b.height m < b.height x) :
    Tells (b.baseSchema fuel expanding (b.graph.subject m))
      (∀ n, b.Part m n → b.Grounded n ∧ b.Writable n)
      fun e => ∃ n, b.Part m n ∧ b.Spoils n e := by
  induction fuel generalizing expanding m with
  | zero => omega
  | succ fuel ih =>
    have hnot : m ∉ expanding := fun hmem => Nat.lt_irrefl _ (hexpanding m hmem)
    have hstep : b.baseSchema (fuel + 1) expanding (b.graph.subject m) =
        b.baseStep (b.baseSchema fuel (m :: expanding)) (b.graph.subject m) := by
      simp [baseSchema, Graph.subject, hnot]
    have htag : Tagged (b.baseSchema fuel (m :: expanding)) := by
      intro v hv
      obtain ⟨k, rfl⟩ : ∃ k, fuel = k + 1 := ⟨fuel - 1, by omega⟩
      obtain ⟨x, hx⟩ := ofLiteral_ok hv
      exact ⟨Expr.fromZ [.call "literal" [x]], by
        simp [baseSchema, baseStep, hx, bind, Except.bind]⟩
    have hparts : ∀ t ∈ b.inside m, t ∉ b.graph.declarations →
        Tells (b.baseSchema fuel (m :: expanding) (b.graph.subject t))
          (∀ n, b.Part t n → b.Grounded n ∧ b.Writable n)
          fun e => ∃ n, b.Part t n ∧ b.Spoils n e := by
      intro t ht htnot
      obtain ⟨hlt, htkind, hheight⟩ := inside_below hg hm ht htnot
      refine ih hlt htkind (by omega) ?_
      intro x hx
      rcases List.mem_cons.mp hx with rfl | hx
      · exact hheight
      · exact Nat.lt_trans hheight (hexpanding x hx)
    rw [hstep]
    refine (tells_baseStep hg hr htag hm hkind).mono ?_ ?_
    · rintro ⟨hground, hwritable, hdone⟩ n hn
      cases hn with
      | self => exact ⟨hground, hwritable⟩
      | step ht htnot hn =>
        obtain ⟨es, hes⟩ := hdone _ ht htnot
        exact (hparts _ ht htnot).ok es hes n hn
    · rintro e (hspoils | ⟨t, ht, htnot, he⟩)
      · exact ⟨m, .self m, hspoils⟩
      · obtain ⟨n, hn, hspoils⟩ := (hparts t ht htnot).error e he
        exact ⟨n, .step ht htnot hn, hspoils⟩

theorem tells_declare (hg : b.graph.Fit) (hr : b.registry = {}) {m : NodeId}
    (hm : m ∈ b.graph.declarations) :
    Tells (b.declare (b.graph.subject m)) (∀ n, b.Part m n → b.Grounded n ∧ b.Writable n)
      fun e => ∃ n, b.Part m n ∧ b.Spoils n e := by
  rw [declare_eq hr]
  have hkind := hg.kind_declared hm
  refine tells_inline hg hkind (tells_baseSchema hg hr (hg.kept m hm) hkind ?_ (by simp))
  simp [height, hm, depth]

/-! ### Plans -/

theorem Part.congr_pending {pending : List NodeId} {m n : NodeId} :
    ({ b with pending } : Builder).Part m n ↔ b.Part m n := by
  constructor
  · intro h
    induction h with
    | self m => exact .self m
    | step ht hnot _ ih => exact .step ht hnot ih
  · intro h
    induction h with
    | self m => exact .self m
    | step ht hnot _ ih => exact .step ht hnot ih

theorem Grounded.congr_pending {pending : List NodeId} {m : NodeId} :
    ({ b with pending } : Builder).Grounded m ↔ b.Grounded m :=
  ⟨fun h => ⟨h.carriers, h.elements⟩, fun h => ⟨h.carriers, h.elements⟩⟩

/-- Everything that is written out for a declaration. -/
def Fulfilled (b : Builder) (m : NodeId) : Prop :=
  ∀ n, b.Part m n → b.Grounded n ∧ b.Writable n

/-- Something that is written out for a declaration is the reason for a failure. -/
def Hinders (b : Builder) (m : NodeId) (e : Failure) : Prop := ∃ n, b.Part m n ∧ b.Spoils n e

theorem Hinders.within {m : NodeId} {e : Failure} (h : b.Hinders m e) (position : Text) :
    b.Hinders m (e.within position) := h

theorem tells_planNode (hg : b.graph.Fit) (hr : b.registry = {}) {m : NodeId}
    (hm : m ∈ b.graph.declarations) (group : Nat) (cyclic : Bool) (pending : List NodeId) :
    Tells (b.planNode group cyclic pending m) (b.Fulfilled m) (b.Hinders m) := by
  have hdeclare := tells_declare (b := { b with pending }) hg hr hm
  have hown : Tells (({ b with pending } : Builder).declare (b.graph.subject m)) (b.Fulfilled m)
      (b.Hinders m) := by
    refine hdeclare.mono ?_ ?_
    · intro h n hn
      obtain ⟨hground, hwritable⟩ := h n (Part.congr_pending.mpr hn)
      exact ⟨Grounded.congr_pending.mp hground, hwritable⟩
    · rintro e ⟨n, hn, ⟨hground, hcause⟩ | hwritable⟩
      · exact ⟨n, Part.congr_pending.mp hn,
          .inl ⟨fun h => hground (Grounded.congr_pending.mpr h), hcause⟩⟩
      · exact ⟨n, Part.congr_pending.mp hn, .inr hwritable⟩
  rw [planNode, Graph.subject?_of_lt (hg.kept m hm)]
  exact (hown.within fun e position h => h.within position).bind_ok fun expr => ⟨_, rfl⟩

theorem tells_planGroup (hg : b.graph.Fit) (hr : b.registry = {}) (group : Nat) (cyclic : Bool)
    {ns : List NodeId} (hns : ∀ n ∈ ns, n ∈ b.graph.declarations) :
    Tells (b.planGroup group cyclic ns) (∀ n ∈ ns, b.Fulfilled n)
      fun e => ∃ n ∈ ns, b.Hinders n e := by
  induction ns with
  | nil => exact .of_ok rfl (by simp)
  | cons n ns ih =>
    have hrest := ih fun x hx => hns x (List.mem_cons_of_mem _ hx)
    have hnode := tells_planNode hg hr (hns n List.mem_cons_self) group cyclic (n :: ns)
    rw [planGroup]
    refine (hnode.bind fun d _ => hrest.bind_ok fun ds => ⟨d :: ds, rfl⟩).mono ?_ ?_
    · rintro ⟨hn, hall⟩ x hx
      rcases List.mem_cons.mp hx with rfl | hx
      · exact hn
      · exact hall x hx
    · rintro e (he | ⟨x, hx, he⟩)
      · exact ⟨n, List.mem_cons_self, he⟩
      · exact ⟨x, List.mem_cons_of_mem _ hx, he⟩

theorem tells_planGroups (hg : b.graph.Fit) (hr : b.registry = {}) (k : Nat) {cs : List Group}
    (hcs : ∀ c ∈ cs, ∀ n ∈ b.written c, n ∈ b.graph.declarations) :
    Tells (b.planGroups k cs) (∀ c ∈ cs, ∀ n ∈ b.written c, b.Fulfilled n)
      fun e => ∃ n ∈ b.graph.declarations, b.Hinders n e := by
  induction cs generalizing k with
  | nil => exact .of_ok rfl (by simp)
  | cons c cs ih =>
    have hrest := ih (k + 1) fun d hd => hcs d (List.mem_cons_of_mem _ hd)
    have hgroup := tells_planGroup hg hr k c.cyclic (hcs c List.mem_cons_self)
    rw [planGroups]
    refine (hgroup.bind fun ds _ => hrest.bind_ok fun rest => ⟨ds ++ rest, rfl⟩).mono ?_ ?_
    · rintro ⟨hc, hall⟩ d hd
      rcases List.mem_cons.mp hd with rfl | hd
      · exact hc
      · exact hall d hd
    · rintro e (⟨x, hx, he⟩ | he)
      · exact ⟨x, hcs c List.mem_cons_self x hx, he⟩
      · exact he

end Builder

namespace Graph

variable {g : Graph}

/-- Every chain that planning follows comes to an end. -/
def Grounded (g : Graph) : Prop :=
  ∀ m ∈ g.declarations, ∀ n, ({ graph := g } : Builder).Part m n →
    ({ graph := g } : Builder).Grounded n

/-- Every default that planning writes has an expression. -/
def Writable (g : Graph) : Prop :=
  ∀ m ∈ g.declarations, ∀ n, ({ graph := g } : Builder).Part m n →
    ({ graph := g } : Builder).Writable n

/-- No chain that planning follows is longer than `depth`. -/
def SettlesWithin (g : Graph) (depth : Nat) : Prop :=
  ∀ m ∈ g.declarations, ∀ n, ({ graph := g } : Builder).Part m n →
    ((g.node n).kind = .scalar → ∃ es, g.scalarSchema depth n = .ok es) ∧
    ∀ p ∈ ({ graph := g } : Builder).fields n, (g.node p).default.isSome → ∀ t,
      (g.node p).type = some t → ∃ big, g.isBig depth (some t) = .ok big

theorem Fit.grounded_iff (hg : g.Fit) : g.Grounded ↔ ∃ depth, g.SettlesWithin depth := by
  constructor
  · intro h
    refine ⟨g.nodes.size + 1, fun m hm n hn => ⟨fun hkind => ?_, fun p hp hdefault t ht => ?_⟩⟩
    · rw [(follows_scalarSchema _ n).ok_iff, endsWithin_iff fun _ _ hc => lt_of_carrier? hc]
      exact (h m hm n hn).carriers hkind
    · rw [(follows_isBig hg _ t).ok_iff, endsWithin_iff fun _ _ ht => lt_of_element? ht]
      exact (h m hm n hn).elements p hp hdefault t ht
  · rintro ⟨depth, h⟩ m hm n hn
    obtain ⟨hcarriers, helements⟩ := h m hm n hn
    refine ⟨fun hkind => ?_, fun p hp hdefault t ht => ?_⟩
    · exact ends_of_endsWithin ((follows_scalarSchema depth n).ok_iff.mp (hcarriers hkind))
    · have hbig := helements p hp hdefault t ht
      exact ends_of_endsWithin ((follows_isBig hg depth t).ok_iff.mp hbig)

theorem Fit.not_isBroken (hg : g.Fit) (n : NodeId) : g.isBroken n = false := by
  have hsome : ∀ i, i < g.nodes.size → (g.node? i).isNone = false := by
    intro i hi
    rw [node?_of_lt hi]
    rfl
  by_cases hn : n < g.nodes.size
  · have hfits := hg.fits_of_lt hn
    unfold isBroken
    simp only
    split
    · apply List.any_eq_false.mpr
      intro p hp
      simp [hsome p (hfits.lt p (Node.mem_mentions_of_property hp))]
    · apply List.any_eq_false.mpr
      intro v hv
      simp [hsome v (hfits.lt v (Node.mem_mentions_of_variant hv))]
    · rfl
  · simp [isBroken, node_of_size_le (Nat.le_of_not_lt hn)]

theorem Fit.groups_ok (hg : g.Fit) (inputs : List NodeId) : ∃ cs, g.groups inputs = .ok cs := by
  simp only [groups]
  rw [if_neg]
  · exact ⟨_, rfl⟩
  · simp [hg.not_isBroken]

/-- A plan succeeds or fails with what is written out for the declarations. -/
theorem Linked.tells_plan (hg : g.Linked) :
    Tells (plan g {}) (g.Grounded ∧ g.Writable) fun e =>
      (¬ g.Grounded ∧ e.cause = .diverges) ∨
        (¬ g.Writable ∧ ∃ r, e.cause = .unsupportedValue r) := by
  obtain ⟨cs, hgroups⟩ := hg.groups_ok g.declarations
  have hcs := isGrouping_of_groups hgroups
  have hplan : plan g {} = ({ graph := g } : Builder).planGroups 0 cs := by
    have hinputs : ({ graph := g } : Builder).declared = g.declarations :=
      Builder.declared_eq hg.toFit rfl
    simp only [plan, hinputs, hgroups]
    rfl
  have hwritten : ∀ c ∈ cs, ∀ n, n ∈ ({ graph := g } : Builder).written c ↔ n ∈ c.nodes :=
    fun c hc n => (written_sorted hg hcs hc).1.mem_iff
  rw [hplan]
  refine (Builder.tells_planGroups (b := { graph := g }) hg.toFit rfl 0 ?_).mono ?_ ?_
  · intro c hc n hn
    exact hcs.mem_iff.mpr ⟨c, hc, (hwritten c hc n).mp hn⟩
  · intro h
    have hall : ∀ m ∈ g.declarations, ({ graph := g } : Builder).Fulfilled m := by
      intro m hm
      obtain ⟨c, hc, hmc⟩ := hcs.mem_iff.mp hm
      exact h c hc m ((hwritten c hc m).mpr hmc)
    exact ⟨fun m hm n hn => (hall m hm n hn).1, fun m hm n hn => (hall m hm n hn).2⟩
  · rintro e ⟨m, hm, n, hn, ⟨hnot, hcause⟩ | ⟨hnot, hcause⟩⟩
    · exact .inl ⟨fun h => hnot (h m hm n hn), hcause⟩
    · exact .inr ⟨fun h => hnot (h m hm n hn), hcause⟩

end Graph

/-- Planning the graph of a document has a depth that it never passes exactly if every chain it
follows ends, and it then comes to an end. When a chain does not, there is no plan; planning goes
on for ever unless it meets a default without an expression before. -/
theorem plan_ends_iff {d : Document} {g : Graph} (hlink : Graph.link d = .ok g) :
    ((∃ depth, g.SettlesWithin depth) ↔ g.Grounded) ∧
    (g.Grounded → (plan g {}).cause? ≠ some .diverges) ∧
    (¬ g.Grounded → ∀ ds, plan g {} ≠ .ok ds) ∧
    (g.Writable → ((∃ ds, plan g {} = .ok ds) ↔ g.Grounded) ∧
      ((plan g {}).cause? = some .diverges ↔ ¬ g.Grounded)) := by
  have hlinked := Graph.linked_of_link hlink
  have htells := hlinked.tells_plan
  refine ⟨hlinked.grounded_iff.symm, ?_, ?_, ?_⟩
  · intro hground hdiverges
    obtain ⟨e, he, hcause⟩ := Result.cause?_eq_some.mp hdiverges
    rcases htells.error e he with ⟨hnot, _⟩ | ⟨_, r, hother⟩
    · exact hnot hground
    · rw [hcause] at hother
      cases hother
  · exact fun hnot ds hds => hnot (htells.ok ds hds).1
  · intro hwritable
    cases hplan : plan g {} with
    | ok ds =>
      have hground := (htells.ok ds hplan).1
      simp [hground, Result.cause?]
    | error e =>
      rcases htells.error e hplan with ⟨hnot, hcause⟩ | ⟨hnot, _⟩
      · simp [hnot, hcause, Result.cause?]
      · exact absurd hwritable hnot

/-- A date that is carried by itself. -/
def selfCarried : Document where
  scalars := [{ name := "Stamp", base := "utcDateTime"
                encode := some { encoding := "unixTimestamp", type := "Stamp" } }]

set_option maxRecDepth 100000 in
theorem link_selfCarried : ∃ g, Graph.link selfCarried = .ok g ∧ g.declarations = [29] ∧
    (g.node 29).kind = .scalar ∧ g.carrier? 29 = some 29 := by
  have hrun : (Graph.link selfCarried).map (fun g =>
      (g.declarations, (g.node 29).kind, g.carrier? 29)) = .ok ([29], .scalar, some 29) := by
    decide +kernel
  obtain ⟨g, hg, heq⟩ := Result.map_eq_ok.mp hrun
  injection heq with hdecl heq
  injection heq with hkind hcarrier
  exact ⟨g, hg, hdecl, hkind, hcarrier⟩

theorem not_ends_of_self {next : NodeId → Option NodeId} {n : NodeId} (h : next n = some n) :
    ¬ Ends next n := fun hends => hends.not_loop (.single h)

theorem plan_ends_iff_selfCarried : ∃ g, Graph.link selfCarried = .ok g ∧ ¬ g.Grounded ∧
    ∀ ds, plan g {} ≠ .ok ds := by
  obtain ⟨g, hg, hdecl, hkind, hcarrier⟩ := link_selfCarried
  have hnot : ¬ g.Grounded := by
    intro hground
    have hown := hground 29 (by simp [hdecl]) 29 (.self 29)
    exact not_ends_of_self hcarrier (hown.carriers hkind)
  exact ⟨g, hg, hnot, (plan_ends_iff hg).2.2.1 hnot⟩

set_option maxRecDepth 100000 in
/-- No depth is enough for the carriers of the date, and planning meets them. -/
theorem selfCarried_never_ends : ∃ g, Graph.link selfCarried = .ok g ∧
    (∀ fuel, g.scalarSchema fuel 29 = Result.fail .diverges) ∧
    (plan g {}).cause? = some .diverges := by
  obtain ⟨g, hg, hdecl, hkind, hcarrier⟩ := link_selfCarried
  have hnot := not_ends_of_self hcarrier
  refine ⟨g, hg, fun fuel => (Graph.follows_scalarSchema fuel 29).eq_fail hnot, ?_⟩
  have hrun : (Graph.link selfCarried).map (fun g => (plan g {}).cause?) = .ok (some .diverges) := by
    decide +kernel
  rw [hg] at hrun
  injection hrun

end SchemaLoom

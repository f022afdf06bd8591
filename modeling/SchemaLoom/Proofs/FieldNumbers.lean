import SchemaLoom.Proofs.BigIntegers
import SchemaLoom.Proofs.FieldOccurrence
import SchemaLoom.Proofs.PlanFailures

/-!
# The numbers of a field

Whether the numbers of a field are written as big integers follows the base schema of its
scalar, through any depth of arrays: where that is the schema of big integers, every integer
among the limits and in the default is marked; where it is not, nothing is. A number that is
no integer has no such literal and is written as it came, and counts of items and lengths
are plain integers everywhere.

Defaults of a scalar whose carrier is carried itself are left out: see `Proofs.BigIntegers`.
-/

namespace SchemaLoom

set_option autoImplicit false

open SchemaLoom.Expr

/-! ### Limits inside expressions -/

/-- What is said of every call with a text, by its method and the text. -/
def Expr.Limited (P : Text → Text → Prop) (e : Expr) : Prop :=
  ∀ name t, (call name [raw t]).Occurs e → P name t

namespace Expr
variable {P : Text → Text → Prop}

theorem limited_ident (name : Text) : (ident name).Limited P := by
  intro _ _ h
  cases h

theorem limited_ref (n : NodeId) : (ref n).Limited P := by
  intro _ _ h
  cases h

theorem limited_lazy (n : NodeId) : (lazy n).Limited P := by
  intro _ _ h
  cases h

theorem limited_call {name : Text} {args : List Expr} (h : ∀ t, args = [raw t] → P name t)
    (hargs : ∀ e ∈ args, e.Limited P) : (call name args).Limited P := by
  intro other t hoccurs
  cases hoccurs with
  | here => exact h t rfl
  | call he hoccurs => exact hargs _ he other t hoccurs

theorem limited_text {name t : Text} (h : P name t) : (call name [raw t]).Limited P := by
  apply limited_call
  · intro u hu
    cases hu
    exact h
  · intro e he _ _ hoccurs
    rw [List.mem_singleton.mp he] at hoccurs
    cases hoccurs

theorem limited_method (name : Text) : (method name).Limited P :=
  limited_call (by simp) (by simp)

theorem limited_ofParts {groups : List (List Expr)} (h : ∀ e ∈ groups.flatten, e.Limited P) :
    (ofParts groups).Limited P := by
  have hparts : ∀ e ∈ groups.flatten.flatMap parts, e.Limited P := by
    intro e he name t hoccurs
    obtain ⟨f, hf, he⟩ := List.mem_flatMap.mp he
    refine h f hf name t ?_
    unfold parts at he
    split at he
    · exact .chain he hoccurs
    · rwa [← List.mem_singleton.mp he]
  have hchain : ∀ ps, (∀ e ∈ ps, e.Limited P) → (chain ps).Limited P := by
    intro ps hps name t hoccurs
    cases hoccurs with
    | chain he hoccurs => exact hps _ he name t hoccurs
  unfold ofParts
  split
  · rename_i e heq
    rw [heq] at hparts
    split
    · exact hchain _ hparts
    · exact hparts e List.mem_cons_self
  · exact hchain _ hparts

theorem limited_ofValue {big : Bool} {v : Value} {e : Expr} (h : ofValue big v = .ok e) :
    e.Limited P := by
  intro name t hoccurs
  rcases (occurs_ofValue_all big _).1 v e h hoccurs with ⟨_, heq⟩ | ⟨_, heq⟩
  · cases heq
  · cases heq

theorem occurs_of_mem_parts {e f : Expr} (h : e ∈ f.parts) : e.Occurs f := by
  unfold parts at h
  split at h
  · exact .chain h .here
  · rw [List.mem_singleton.mp h]
    exact .here

theorem mem_parts_ofParts {groups : List (List Expr)} {e : Expr} (he : e ∈ groups.flatten)
    (hcall : e.isCall = true) : e ∈ (ofParts groups).parts := by
  have hparts : e.parts = [e] := parts_of_isStep (isStep_of_isCall hcall)
  have hmem : e ∈ groups.flatten.flatMap parts := List.mem_flatMap.mpr ⟨e, he, by simp [hparts]⟩
  unfold ofParts
  split
  · rename_i f heq
    rw [heq, List.mem_singleton] at hmem
    subst hmem
    rw [if_pos hcall]
    exact List.mem_cons_self
  · exact hmem

end Expr

/-! ### The limits of a field -/

namespace Graph
variable {g : Graph} {s : NodeId}

/-- How a limit of a number is written for a scalar. -/
def Bounds (g : Graph) (s : NodeId) (t : Text) : Prop :=
  ∃ n : Number, n.Written ∧ (g.CarriesBig s → n.BigText t) ∧ (¬ g.CarriesBig s → ¬ t.IsBigInt)

/-- How limits are written for a scalar: those of numbers, and those of lengths. -/
structure Limits (g : Graph) (s : NodeId) (name t : Text) : Prop where
  bound : name ∈ limitMethods → g.Bounds s t
  count : name ∈ countMethods → ∃ z : Int, t = Text.ofInt z

theorem bounds_literal {n : Number} (hn : n.Written) {big : Bool}
    (hbig : g.CarriesBig s ↔ big = true) : g.Bounds s (n.literal big) := by
  refine ⟨n, hn, ?_, ?_⟩
  · intro h
    rw [hbig.mp h]
    exact n.bigText_literal
  · intro h
    rw [Bool.eq_false_iff.mpr (mt hbig.mpr h)]
    exact hn.not_isBigInt_text

theorem not_mem_limitMethods {name : Text} (h : name ∈ countMethods) : name ∉ limitMethods := by
  simp only [countMethods, List.mem_cons, List.not_mem_nil, or_false] at h
  rcases h with rfl | rfl
  · decide
  · decide

theorem limits_integer {name : Text} (hname : name ∈ countMethods) (z : Int) :
    g.Limits s name (Text.ofInt z) :=
  ⟨fun h => absurd h (not_mem_limitMethods hname), fun _ => ⟨z, rfl⟩⟩

theorem limits_other {name : Text} (hlimit : name ∉ limitMethods) (hcount : name ∉ countMethods)
    (t : Text) : g.Limits s name t :=
  ⟨fun h => absurd h hlimit, fun h => absurd h hcount⟩

theorem limited_calls {r : Range} (hr : r.Written) {big : Bool}
    (hbig : g.CarriesBig s ↔ big = true) {es : List Expr} (h : r.calls big = .ok es) :
    ∀ e ∈ es, e.Limited (g.Limits s) := by
  intro e he
  rcases Range.mem_calls h he with ⟨name, rfl⟩ | ⟨name, hname, n, hn, rfl⟩
  · exact limited_method name
  · have hwritten : n.Written := by
      rcases hn with hn | hn | hn | hn
      · exact hr.min n hn
      · exact hr.minExclusive n hn
      · exact hr.max n hn
      · exact hr.maxExclusive n hn
    exact limited_text ⟨fun _ => bounds_literal hwritten hbig,
      fun hcount => absurd hname (not_mem_limitMethods hcount)⟩

theorem limited_arrayCalls (ds : List Decorators) :
    ∀ e ∈ arrayCalls ds, e.Limited (g.Limits s) := by
  intro e he
  obtain ⟨name, hname, z, rfl⟩ := mem_arrayCalls he
  exact limited_text (limits_integer hname z)

theorem limited_stringCalls (ds : List Decorators) :
    ∀ e ∈ stringCalls ds, e.Limited (g.Limits s) := by
  intro e he
  rcases mem_stringCalls he with ⟨name, rfl⟩ | ⟨name, hname, z, rfl⟩ | ⟨t, rfl⟩
  · exact limited_method name
  · exact limited_text (limits_integer hname z)
  · exact limited_text (limits_other (by decide) (by decide) t)

/-- Where a carrier is carried in turn, it is no number and has no limits. -/
theorem calls_of_carried {c c' : NodeId} (hcarrier : g.carrier? c = some c') {r : Range}
    (hr : g.builtInRange c = .ok r) {big : Bool} {es : List Expr}
    (h : numberCalls [] r big = .ok es) : es = [] := by
  obtain ⟨name, hname, hdate⟩ := builtInBaseName?_of_carrier? hcarrier
  have hempty : Range.intrinsic name.toDisplay = {} := by
    simp only [List.mem_cons, List.not_mem_nil, or_false] at hdate
    rcases hdate with hdate | hdate | hdate
    · rw [hdate]
      rfl
    · rw [hdate]
      rfl
    · rw [hdate]
      rfl
  simp only [builtInRange, hname] at hr
  cases hr
  rw [numberCalls, hempty, Range.calls_eq] at h
  cases h
  rfl

/-- Limits are written for the scalar they stand at; arrays count their items. -/
theorem limited_constraints (hg : g.Fit) (hwritten : ∀ i, (g.node i).decorators.Written)
    {t : NodeId} (hts : (g.node t).kind = .scalar → t = s) {member : Option Decorators}
    (hmember : ∀ x, member = some x → x.Written) {inlined : Bool} {cs : List Expr}
    (h : g.constraints t member inlined = .ok cs) : ∀ e ∈ cs, e.Limited (g.Limits s) := by
  have hsources : ∀ x ∈ g.sources t member inlined, x.Written := by
    intro x hx
    rcases List.mem_append.mp hx with hx | hx
    · exact hmember x (Option.mem_toList.mp hx)
    · split at hx
      · obtain ⟨a, _, rfl⟩ := List.mem_map.mp hx
        exact hwritten a
      · cases hx
  have hrange : ∀ c r, g.builtInRange c = .ok r → r.Written := by
    intro c r hr
    unfold builtInRange at hr
    split at hr
    · cases hr
      exact Range.written_intrinsic _
    · simp at hr
  have hall : ∀ {c : NodeId} {ds : List Decorators} {r : Range} {big : Bool},
      (∀ x ∈ ds, x.Written) → r.Written → (g.CarriesBig s ↔ g.isBigScalar c = true) →
      (g.node c).kind = .scalar → g.isBig (g.nodes.size + 1) (some c) = .ok big →
      numberCalls ds r big = .ok cs → ∀ e ∈ cs, e.Limited (g.Limits s) := by
    intro c ds r big hds hr hagree hkind hbig h
    rw [isBig_scalar hkind] at hbig
    cases hbig
    exact limited_calls (hr.reconcile (Range.written_ofDecorators hds)) hagree h
  cases narrowed_of_constraints h with
  | nothing => simp
  | @carried c r big _ hkind hcarrier _ hnumeric hr hbig h =>
    obtain rfl := hts hkind
    cases hnext : g.carrier? c with
    | some c' =>
      rw [calls_of_carried hnext hr h]
      simp
    | none =>
      have hsame : g.isBigScalar c = g.isBigScalar t := by simp [isBigScalar, hnext, hcarrier]
      refine hall (by simp) (hrange c r hr) ?_ (builtInRange_ok hg hnumeric).1 hbig h
      rw [hsame]
      refine carriesBig_iff hkind ?_
      intro c' hc'
      obtain rfl : c = c' := Option.some.inj (hcarrier.symm.trans hc')
      exact hnext
  | @number r big _ hkind hcarrier _ hr hbig h =>
    obtain rfl := hts hkind
    have hr : r.Written := by
      split at hr
      · exact hrange t r hr
      · cases hr
        constructor <;> simp
    exact hall hsources hr (carriesBig_iff hkind (by simp [hcarrier])) hkind hbig h
  | text _ _ _ => exact limited_stringCalls _
  | items _ => exact limited_arrayCalls _

/-- `t` is the scalar `s`, or an array of it at some depth. -/
inductive Nests (g : Graph) (s : NodeId) : NodeId → Prop
  | scalar : (g.node s).kind = .scalar → Nests g s s
  | array {t u : NodeId} : g.element? t = some u → Nests g s u → Nests g s t

theorem element?_eq_some {t u : NodeId} (h : g.element? t = some u) :
    (g.node t).isArray = true ∧ (g.node t).indexer.bind (·.value) = some u := by
  unfold element? at h
  split at h
  · rename_i harray
    exact ⟨harray, h⟩
  · cases h

theorem Nests.kind {t : NodeId} (h : g.Nests s t) : (g.node s).kind = .scalar := by
  induction h with
  | scalar hkind => exact hkind
  | array _ _ ih => exact ih

theorem Nests.eq_of_scalar {t : NodeId} (h : g.Nests s t) (hkind : (g.node t).kind = .scalar) :
    t = s := by
  cases h with
  | scalar => rfl
  | array helement _ =>
    rw [Node.kind_of_isArray (element?_eq_some helement).1] at hkind
    cases hkind

/-- The mark follows the elements of an array to the scalar. -/
theorem Nests.isBig {t : NodeId} (h : g.Nests s t) {fuel : Nat} {big : Bool}
    (hbig : g.isBig fuel (some t) = .ok big) : big = g.isBigScalar s := by
  induction h generalizing fuel with
  | scalar hkind =>
    cases fuel with
    | zero => simp [Graph.isBig] at hbig
    | succ fuel =>
      rw [isBig_scalar hkind] at hbig
      cases hbig
      rfl
  | array helement _ ih =>
    cases fuel with
    | zero => simp [Graph.isBig] at hbig
    | succ fuel =>
      obtain ⟨harray, hvalue⟩ := element?_eq_some helement
      rw [Graph.isBig, if_pos harray, hvalue] at hbig
      exact ih hbig

end Graph

namespace Builder
variable {b : Builder} {s : NodeId}

theorem limited_refer {P : Text → Text → Prop} (n : NodeId) : (b.refer n).Limited P := by
  unfold refer
  split
  · exact limited_lazy n
  · exact limited_ref n

theorem limited_describe (ns : List Node) : ∀ e ∈ describe ns, e.Limited (b.graph.Limits s) := by
  intro e he
  obtain ⟨t, rfl⟩ := mem_describe he
  exact limited_text (Graph.limits_other (by decide) (by decide) t)

theorem limited_memberParts {prop : Node} {type : Option Subject} {es : List Expr}
    (h : b.memberParts prop type = .ok es) : ∀ e ∈ es, e.Limited (b.graph.Limits s) := by
  intro e he
  rcases mem_memberParts h he with rfl | ⟨big, v, x, _, hx, rfl⟩
  · exact limited_method _
  · apply limited_call
    · exact fun t _ => Graph.limits_other (by decide) (by decide) t
    · intro y hy
      rw [List.mem_singleton.mp hy]
      exact limited_ofValue hx

theorem limited_parts {p : Parts} (hbase : ∀ e ∈ p.base, e.Limited (b.graph.Limits s))
    (hconstraints : ∀ e ∈ p.constraints, e.Limited (b.graph.Limits s))
    (hmember : ∀ e ∈ p.member, e.Limited (b.graph.Limits s)) {ns : List Node}
    (hdescription : p.description = describe ns) : p.expr.Limited (b.graph.Limits s) := by
  apply limited_ofParts
  intro e he
  simp only [List.flatten_cons, List.flatten_nil, List.append_nil, List.mem_append,
    hdescription] at he
  rcases he with he | he | he | he
  · exact hbase e he
  · exact hconstraints e he
  · exact hmember e he
  · exact limited_describe ns e he

/-- The base schema of a scalar, or of arrays of it. The induction goes from the scalar out. -/
theorem limited_baseSchema (hg : b.graph.Fit) (hr : b.registry = {})
    (hwritten : ∀ i, (b.graph.node i).decorators.Written) {t : NodeId} (ht : b.graph.Nests s t)
    {fuel : Nat} {expanding : List NodeId} {es : List Expr}
    (h : b.baseSchema fuel expanding (b.graph.subject t) = .ok es) :
    ∀ e ∈ es, e.Limited (b.graph.Limits s) := by
  induction ht generalizing fuel expanding es with
  | scalar hkind =>
    obtain ⟨_, _, h⟩ := baseStep_of_baseSchema h
    simp only [baseStep, Graph.subject, hkind] at h
    exact (Graph.stock_scalarSchema h).forall limited_ident limited_method
  | @array t u helement hu ih =>
    obtain ⟨fuel, expanding, h⟩ := baseStep_of_baseSchema h
    obtain ⟨harray, hvalue⟩ := Graph.element?_eq_some helement
    obtain ⟨elem, helem, rfl⟩ := (composed_of_baseStep h).of_array harray
    have helem : elem.Limited (b.graph.Limits s) := by
      obtain ⟨v, hv, _, hcase⟩ := nested_cases hg hr
        (fun v hv _ => hg.kind_slot (Node.mem_slots.mpr (.inr (.inl hv)))) helem
      obtain rfl : u = v := Option.some.inj (hvalue.symm.trans hv)
      obtain ⟨_, rfl⟩ | ⟨_, bs, cs, hbs, hcs, rfl⟩ := hcase
      · exact limited_refer u
      · have hconstraints := Graph.limited_constraints hg hwritten hu.eq_of_scalar (by simp) hcs
        exact limited_parts (ih hbs) hconstraints (by simp) rfl
    intro e he
    rcases List.mem_pair.mp he with rfl | rfl
    · exact limited_ident _
    · apply limited_call
      · exact fun t _ => Graph.limits_other (by decide) (by decide) t
      · intro y hy
        rw [List.mem_singleton.mp hy]
        exact helem

theorem limited_fieldOf (hg : b.graph.Fit) (hr : b.registry = {})
    (hwritten : ∀ i, (b.graph.node i).decorators.Written) {q t : NodeId}
    (hq : q < b.graph.nodes.size) (htype : (b.graph.node q).type = some t)
    (ht : b.graph.Nests s t) {fuel : Nat} {expanding : List NodeId} {e : Expr}
    (h : b.fieldOf (b.baseSchema fuel expanding) q = .ok e) : e.Limited (b.graph.Limits s) := by
  have hlt := (hg.fits_of_lt hq).lt t (Node.mem_mentions_of_slot (Node.mem_slots_of_type htype))
  have hlimits : ∀ {inlined : Bool} {cs : List Expr},
      b.graph.constraints t (some (b.graph.node q).decorators) inlined = .ok cs →
      ∀ e ∈ cs, e.Limited (b.graph.Limits s) := by
    intro inlined cs hcs
    refine Graph.limited_constraints hg hwritten ht.eq_of_scalar ?_ hcs
    intro x hx
    cases hx
    exact hwritten q
  rw [fieldOf_of_type hq htype hlt] at h
  obtain ⟨cs, member, hmember, ⟨_, hcs, rfl⟩ | ⟨_, hcs, bs, hbs, rfl⟩⟩ := field_cases hg hr hlt h
  · refine limited_parts ?_ (hlimits hcs) (limited_memberParts hmember) rfl
    intro e he
    rw [List.mem_singleton.mp he]
    exact limited_refer t
  · exact limited_parts (limited_baseSchema hg hr hwritten ht hbs) (hlimits hcs)
      (limited_memberParts hmember) rfl

/-- All that a property adds stands among the parts of its field. -/
theorem mem_parts_fieldOf (hg : b.graph.Fit) (hr : b.registry = {}) {base : BaseOf}
    {q t : NodeId} (hq : q < b.graph.nodes.size) (htype : (b.graph.node q).type = some t)
    {e : Expr} (h : b.fieldOf base q = .ok e) :
    ∃ cs member, b.graph.constraints t (some (b.graph.node q).decorators)
        (decide (t ∉ b.graph.declarations)) = .ok cs ∧
      b.memberParts (b.graph.node q) (some (b.graph.subject t)) = .ok member ∧
      ∀ x ∈ cs ++ member, x ∈ e.parts := by
  have hlt := (hg.fits_of_lt hq).lt t (Node.mem_mentions_of_slot (Node.mem_slots_of_type htype))
  have hcall : ∀ {inlined : Bool} {cs member : List Expr},
      b.graph.constraints t (some (b.graph.node q).decorators) inlined = .ok cs →
      b.memberParts (b.graph.node q) (some (b.graph.subject t)) = .ok member →
      ∀ x ∈ cs ++ member, x.isCall = true := by
    intro inlined cs member hcs hmember x hx
    rcases List.mem_append.mp hx with hx | hx
    · exact (Graph.narrows_of_mem_constraints hcs hx).trails.isCall
    · exact (trails_of_mem_memberParts hmember hx).isCall
  rw [fieldOf_of_type hq htype hlt] at h
  obtain ⟨cs, member, hmember, ⟨hdecl, hcs, rfl⟩ | ⟨hdecl, hcs, bs, _, rfl⟩⟩ :=
    field_cases hg hr hlt h
  · refine ⟨cs, member, by simp only [hdecl, not_true, decide_false]; exact hcs, hmember, ?_⟩
    intro x hx
    refine mem_parts_ofParts ?_ (hcall hcs hmember x hx)
    rcases List.mem_append.mp hx with hx | hx <;> simp [hx]
  · refine ⟨cs, member, by simp only [hdecl, not_false_eq_true, decide_true]; exact hcs,
      hmember, ?_⟩
    intro x hx
    refine mem_parts_ofParts ?_ (hcall hcs hmember x hx)
    rcases List.mem_append.mp hx with hx | hx <;> simp [hx]

end Builder

/-! ### The limits a property sets -/

/-- The method and the text of a call with a text. -/
def Expr.limitText? : Expr → Option (Text × Text)
  | call name [raw t] => some (name, t)
  | _ => none

theorem Expr.limitText?_eq_some {e : Expr} {name t : Text} (h : e.limitText? = some (name, t)) :
    e = call name [raw t] := by
  unfold limitText? at h
  split at h
  · cases h
    rfl
  · cases h

/-- The limits that stand behind the type `t` in the field of the property `q`. -/
def Graph.ownLimits (g : Graph) (q t : NodeId) : Result (List (Text × Text)) :=
  (g.constraints t (some (g.node q).decorators) (decide (t ∉ g.declarations))).map fun cs =>
    cs.filterMap limitText?

theorem Builder.occurs_of_mem_ownLimits {b : Builder} (hg : b.graph.Fit) (hr : b.registry = {})
    {base : BaseOf} {q t : NodeId} (htype : (b.graph.node q).type = some t) {e : Expr}
    (h : b.fieldOf base q = .ok e) {ls : List (Text × Text)} (hls : b.graph.ownLimits q t = .ok ls)
    {name x : Text} (hx : (name, x) ∈ ls) : (Expr.call name [.raw x]).Occurs e := by
  have hq : q < b.graph.nodes.size := by
    by_contra hge
    rw [Graph.node_of_size_le (Nat.le_of_not_lt hge)] at htype
    cases htype
  obtain ⟨cs, _, hcs, _, hparts⟩ := mem_parts_fieldOf hg hr hq htype h
  rw [Graph.ownLimits, hcs] at hls
  cases hls
  obtain ⟨c, hc, hlimit⟩ := List.mem_filterMap.mp hx
  rw [← Expr.limitText?_eq_some hlimit]
  exact occurs_of_mem_parts (hparts c (List.mem_append_left _ hc))

/-! ### The numbers of a default -/

mutual
/-- Every number of a value, at any depth of arrays, is written with a text that `P` allows. -/
def Spells (P : Number → Text → Prop) : Value → Expr → Prop
  | .numeric n, e => ∃ t, e = .raw t ∧ P n t
  | .array vs, e => ∃ es, e = .array es ∧ SpellsAll P vs es
  | _, _ => True

def SpellsAll (P : Number → Text → Prop) : List Value → List Expr → Prop
  | [], es => es = []
  | v :: vs, es => ∃ x xs, es = x :: xs ∧ Spells P v x ∧ SpellsAll P vs xs
end

theorem spells_ofValue_all (P : Number → Text → Prop) (big : Bool) :
    (∀ v e, (∀ n, (Value.numeric n).StandsIn v → P n (n.literal big)) →
      ofValue big v = .ok e → Spells P v e) ∧
    (∀ vs es, (∀ v ∈ vs, ∀ n, (Value.numeric n).StandsIn v → P n (n.literal big)) →
      ofValues big vs = .ok es → SpellsAll P vs es) := by
  apply ofValue.mutual_induct
  · exact fun s e _ _ => trivial
  · intro n e hP h
    cases h
    exact ⟨_, rfl, hP n .here⟩
  · exact fun b e _ _ => trivial
  · exact fun e _ _ => trivial
  · intro vs ih e hP h
    obtain ⟨es, hes, rfl⟩ := Result.map_eq_ok.mp h
    exact ⟨es, rfl, ih es (fun v hv n hn => hP n (.item hv hn)) hes⟩
  · exact fun type s e _ _ => trivial
  · exact fun type constructor args _ e _ _ => trivial
  · exact fun e _ _ => trivial
  · exact fun e _ _ => trivial
  · intro es _ h
    cases h
    rfl
  · intro v vs ihv ihvs es hP h
    rw [ofValues] at h
    obtain ⟨x, hx, h⟩ := Result.bind_eq_ok.mp h
    obtain ⟨xs, hxs, h⟩ := Result.bind_eq_ok.mp h
    cases h
    exact ⟨x, xs, rfl, ihv x (hP v List.mem_cons_self) hx,
      ihvs xs (fun w hw => hP w (List.mem_cons_of_mem v hw)) hxs⟩

/-! ### Fields of documents -/

/-- All numbers of a document are what their text says. -/
structure Document.Written (d : Document) : Prop where
  decorators : ∀ x, d.Attaches x → x.Written
  defaults : ∀ p, d.Holds p → ∀ v, p.default = some v → ∀ n, (Value.numeric n).StandsIn v →
    n.Written

/-- How the numbers of the field `e` of the property `q` are written: its limits, its counts, and
the numbers of its default. -/
structure FieldNumbers (g : Graph) (q s : NodeId) (e : Expr) : Prop where
  bounds : ∀ name ∈ limitMethods, ∀ t, (Expr.call name [.raw t]).Occurs e → g.Bounds s t
  counts : ∀ name ∈ countMethods, ∀ t, (Expr.call name [.raw t]).Occurs e →
    ∃ z : Int, t = Text.ofInt z
  default : ∀ v, (g.node q).default = some v → ∃ x, Expr.call "default" [x] ∈ e.parts ∧
    Spells (fun n t =>
      (g.CarriesBig s → (∀ c, g.carrier? s = some c → g.carrier? c = none) → n.BigText t) ∧
        (¬ g.CarriesBig s → ¬ t.IsBigInt)) v x

/-- The numbers of a field are big integers where the base schema of its scalar is that of big
integers, and are not where it is not. -/
theorem fieldNumbers_of_link {d : Document} {g : Graph} (hlink : Graph.link d = .ok g)
    (hdoc : d.Written) {q t s : NodeId} (hkind : (g.node q).kind = .modelProperty)
    (htype : (g.node q).type = some t) (hs : g.Nests s t) {pending expanding : List NodeId}
    {fuel : Nat} {e : Expr}
    (h : ({ graph := g, pending } : Builder).fieldOf
      (({ graph := g, pending } : Builder).baseSchema fuel expanding) q = .ok e) :
    FieldNumbers g q s e := by
  have hg := (Graph.linked_of_link hlink).toFit
  have hdrawn := Graph.drawn_of_link hlink
  have hq : q < g.nodes.size := by
    by_contra hge
    rw [Graph.node_of_size_le (Nat.le_of_not_lt hge)] at hkind
    cases hkind
  have hlimited := Builder.limited_fieldOf (b := { graph := g, pending }) hg rfl
    (fun i => hdoc.decorators _ (hdrawn i).decorators) hq htype hs h
  obtain ⟨cs, member, _, hmember, hparts⟩ :=
    Builder.mem_parts_fieldOf (b := { graph := g, pending }) hg rfl hq htype h
  refine ⟨fun name hname t ht => (hlimited name t ht).bound hname,
    fun name hname t ht => (hlimited name t ht).count hname, ?_⟩
  intro v hv
  rw [Builder.memberParts_some _ hv] at hmember
  obtain ⟨big, hbig, hmember⟩ := Result.bind_eq_ok.mp hmember
  obtain ⟨x, hx, hmember⟩ := Result.bind_eq_ok.mp hmember
  cases hmember
  refine ⟨x, hparts _ (by simp), (spells_ofValue_all _ big).1 v x ?_ hx⟩
  intro n hn
  have hbig : big = g.isBigScalar s := hs.isBig hbig
  obtain ⟨p, hp, hdefault⟩ := (hdrawn q).default v hv
  have hwritten := hdoc.defaults p hp v hdefault n hn
  constructor
  · intro hcarries hdirect
    rw [hbig, (Graph.carriesBig_iff hs.kind hdirect).mp hcarries]
    exact n.bigText_literal
  · intro hnot
    rw [hbig, Bool.eq_false_iff.mpr (mt (Graph.carriesBig_of_isBigScalar hs.kind) hnot)]
    exact hwritten.not_isBigInt_text

/-- A date that is carried by a duration, which is carried by a big integer. -/
def carriedTwice : Document where
  scalars :=
    [{ name := "Span", base := "duration",
       encode := some { encoding := "seconds", type := "int64" } },
     { name := "Stamp", base := "utcDateTime",
       encode := some { encoding := "unixTimestamp", type := "Span" } }]
  models :=
    [{ name := "Event"
       properties :=
         [{ name := "at", type := .named "Stamp", default := some (.numeric (Number.ofInt 5)) }] }]

-- the one case that the theorem leaves out: the schema is that of big integers, the default is not
example : (Graph.link carriedTwice >>= fun g => (plan g {}).map fun ds =>
    ds.map fun d => d.expr.print g.nameOf 0) =
    .ok [Text.ofString "z.bigint().gte(-9223372036854775808n).lte(9223372036854775807n)",
      Text.ofString "z.bigint()",
      Text.ofString "z.object(\x7b\n  at: Stamp.default(5),\n\x7d)"] := by
  decide +kernel

theorem Decorators.written_of_none {x : Decorators} (hmin : x.minValue = none)
    (hminExclusive : x.minValueExclusive = none) (hmax : x.maxValue = none)
    (hmaxExclusive : x.maxValueExclusive = none) : x.Written := by
  constructor <;> simp [hmin, hminExclusive, hmax, hmaxExclusive]

/-- Balances that are counted and have a default. -/
def bigDefault : Document where
  models :=
    [{ name := "Account"
       properties :=
         [{ name := "balances", type := { array := some (.named "int64") }
            default := some (.array [.numeric (Number.ofInt 5)])
            decorators := { minItems := some 1 } }] }]

theorem holds_bigDefault {p : Property} (h : bigDefault.Holds p) :
    p.decorators = { minItems := some 1 } ∧
      p.default = some (.array [.numeric (Number.ofInt 5)]) := by
  cases h with
  | own hm hp =>
    rw [List.mem_singleton.mp hm] at hp
    rw [List.mem_singleton.mp hp]
    exact ⟨rfl, rfl⟩
  | property hm hq hp =>
    rw [List.mem_singleton.mp hm] at hq
    rw [List.mem_singleton.mp hq] at hp
    exact absurd hp.of_array TypeRef.not_holds_named
  | base hm ht _ =>
    rw [List.mem_singleton.mp hm] at ht
    cases ht
  | source hm ht _ =>
    rw [List.mem_singleton.mp hm] at ht
    cases ht
  | variant hu _ _ => cases hu

theorem written_bigDefault : bigDefault.Written := by
  constructor
  · intro x hx
    cases hx with
    | doc hx =>
      rw [hx]
      exact Decorators.written_of_none rfl rfl rfl rfl
    | property hp hx =>
      rw [← hx, (holds_bigDefault hp).1]
      exact Decorators.written_of_none rfl rfl rfl rfl
    | scalar hs _ => cases hs
    | model hm hx =>
      rw [List.mem_singleton.mp hm] at hx
      rw [← hx]
      exact Decorators.written_of_none rfl rfl rfl rfl
  · intro p hp v hv n hn
    rw [(holds_bigDefault hp).2] at hv
    cases hv
    cases hn with
    | item hw hn =>
      rw [List.mem_singleton.mp hw] at hn
      cases hn
      exact Number.written_ofInt 5

set_option maxRecDepth 100000 in
theorem fieldNumbers_of_link_bigDefault : ∃ g e, Graph.link bigDefault = .ok g ∧
    bigDefault.Written ∧ (g.node 31).kind = .modelProperty ∧ (g.node 31).type = some 30 ∧
    g.Nests 6 30 ∧ g.CarriesBig 6 ∧
    ({ graph := g } : Builder).fieldOf (({ graph := g } : Builder).baseSchema 40 []) 31 = .ok e ∧
    Expr.call "default" [.array [.raw "5n"]] ∈ e.parts := by
  -- the array stands at 30 and the property at 31, after the model
  have hrun : (Graph.link bigDefault >>= fun g => (({ graph := g } : Builder).fieldOf
      (({ graph := g } : Builder).baseSchema 40 []) 31).map fun _ =>
      decide ((g.node 31).kind = .modelProperty ∧ (g.node 31).type = some 30 ∧
        g.element? 30 = some 6 ∧ (g.node 6).kind = .scalar ∧ g.carrier? 6 = none ∧
        g.isBigScalar 6 = true ∧ (g.node 31).default.isSome)) = .ok true := by
    decide +kernel
  obtain ⟨g, hg, hrun⟩ := Result.bind_eq_ok.mp hrun
  obtain ⟨e, he, hrun⟩ := Result.map_eq_ok.mp hrun
  obtain ⟨hkind, htype, helement, hscalar, hcarrier, hbig, hdefault⟩ := of_decide_eq_true hrun
  have hnests : g.Nests 6 30 := .array helement (.scalar hscalar)
  have hdirect : ∀ c, g.carrier? 6 = some c → g.carrier? c = none := by simp [hcarrier]
  have hcarries := (Graph.carriesBig_iff hscalar hdirect).mpr hbig
  refine ⟨g, e, hg, written_bigDefault, hkind, htype, hnests, hcarries, he, ?_⟩
  obtain ⟨v, hv⟩ := Option.isSome_iff_exists.mp hdefault
  obtain ⟨p, hp, hpv⟩ := (Graph.drawn_of_link hg 31).default v hv
  rw [(holds_bigDefault hp).2] at hpv
  cases hpv
  obtain ⟨x, hx, _, rfl, y, _, rfl, ⟨t, rfl, hspells⟩, rfl⟩ :=
    (fieldNumbers_of_link hg written_bigDefault hkind htype hnests he).default _ hv
  rw [(hspells.1 hcarries hdirect).1 5 rfl] at hx
  exact hx

/-- A big integer that is limited by a number that is none, and a list of them that is counted. -/
def halfLimit : Document where
  models :=
    [{ name := "Account"
       properties :=
         [{ name := "balance", type := .named "int64"
            decorators := { minValue := some ⟨mkRat 3 2, "1.5"⟩ } },
          { name := "history", type := { array := some (.named "int64") }
            decorators := { minItems := some 1 } }] }]

set_option maxRecDepth 100000 in
/-- Neither the limit nor the count is a big integer, though the schema is that of big integers. -/
theorem halfLimit_not_bigInt : ∃ g e f, Graph.link halfLimit = .ok g ∧ g.CarriesBig 6 ∧
    (g.node 30).kind = .modelProperty ∧ (g.node 30).type = some 6 ∧ g.Nests 6 6 ∧
    ({ graph := g } : Builder).fieldOf (({ graph := g } : Builder).baseSchema 40 []) 30 = .ok e ∧
    (∃ t, (Expr.call "gte" [.raw t]).Occurs e ∧ ¬ t.IsBigInt) ∧
    (g.node 32).kind = .modelProperty ∧ (g.node 32).type = some 31 ∧ g.Nests 6 31 ∧
    ({ graph := g } : Builder).fieldOf (({ graph := g } : Builder).baseSchema 40 []) 32 = .ok f ∧
    ∃ t, (Expr.call "min" [.raw t]).Occurs f ∧ ¬ t.IsBigInt := by
  have hrun : (Graph.link halfLimit >>= fun g =>
      ({ graph := g } : Builder).fieldOf (({ graph := g } : Builder).baseSchema 40 []) 30 >>=
        fun _ => (({ graph := g } : Builder).fieldOf
          (({ graph := g } : Builder).baseSchema 40 []) 32).map fun _ =>
      decide ((g.node 6).kind = .scalar ∧ g.carrier? 6 = none ∧ g.isBigScalar 6 = true ∧
        (g.node 30).kind = .modelProperty ∧ (g.node 30).type = some 6 ∧
        g.ownLimits 30 6 = .ok [(Text.ofString "gte", Text.ofString "1.5"),
          (Text.ofString "lte", Text.ofString "9223372036854775807n")] ∧
        (g.node 32).kind = .modelProperty ∧ (g.node 32).type = some 31 ∧
        g.element? 31 = some 6 ∧
        g.ownLimits 32 31 = .ok [(Text.ofString "min", Text.ofInt 1)])) = .ok true := by
    decide +kernel
  obtain ⟨g, hg, hrun⟩ := Result.bind_eq_ok.mp hrun
  obtain ⟨e, he, hrun⟩ := Result.bind_eq_ok.mp hrun
  obtain ⟨f, hf, hrun⟩ := Result.map_eq_ok.mp hrun
  obtain ⟨hscalar, hcarrier, hbig, hkind, htype, hlimits, hkind', htype', helement, hcounts⟩ :=
    of_decide_eq_true hrun
  have hfit := (Graph.linked_of_link hg).toFit
  have hcarries := (Graph.carriesBig_iff hscalar (by simp [hcarrier])).mpr hbig
  have hhalf : (⟨mkRat 3 2, "1.5"⟩ : Number).Written := by
    unfold Number.Written
    decide +kernel
  refine ⟨g, e, f, hg, hcarries, hkind, htype, .scalar hscalar, he, ⟨"1.5", ?_, ?_⟩, hkind', htype',
    .array helement (.scalar hscalar), hf, Text.ofInt 1, ?_, ?_⟩
  · exact Builder.occurs_of_mem_ownLimits (b := { graph := g }) hfit rfl htype he hlimits (by simp)
  · exact hhalf.not_isBigInt_text
  · exact Builder.occurs_of_mem_ownLimits (b := { graph := g }) hfit rfl htype' hf hcounts (by simp)
  · exact (Number.written_ofInt 1).not_isBigInt_text

end SchemaLoom

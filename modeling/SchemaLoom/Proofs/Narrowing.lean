import SchemaLoom.Proofs.FieldNumbers
import SchemaLoom.Proofs.FittingCalls

/-!
# Narrowing

A scalar that derives from another one keeps its limits: what its declaration accepts, the
declaration of the other one accepts. The exception is an end. Where the tightest limit is
set both with and without its end, the end counts, so a limit that a scalar sets without its
end is reopened at the end by a derived one that sets it again with it.

Counts of items behave in the same way, with an exception of their own: a greatest count
that is not positive is not written, so it takes the limit away that stood there before.
-/

namespace SchemaLoom

set_option autoImplicit false

open SchemaLoom.Expr SchemaLoom.Range

/-! ### Limits of numbers -/

/-- A number that is an end excluded by the decorators of a base and included by those of what
derives from it. -/
def Reopens (derived base : List Decorators) (x : Rat) : Prop :=
  (x ∈ limitsOf (·.minValueExclusive) base ∧ x ∉ limitsOf (·.minValue) base ∧
    x ∈ limitsOf (·.minValue) derived) ∨
  (x ∈ limitsOf (·.maxValueExclusive) base ∧ x ∉ limitsOf (·.maxValue) base ∧
    x ∈ limitsOf (·.maxValue) derived)

section Admits
variable {derived base : List Decorators} {x : Rat}

theorem limitsOf_subset (hsub : base ⊆ derived) (limit : Decorators → Option Number) :
    limitsOf limit base ⊆ limitsOf limit derived := by
  intro v hv
  obtain ⟨n, ⟨d, hd, hn⟩, rfl⟩ := hv
  exact ⟨n, ⟨d, hsub hd, hn⟩, rfl⟩

/-- What more decorators admit, fewer do, apart from the ends. -/
theorem Admits.iff_not_reopens (h : Admits derived x) (hsub : base ⊆ derived) :
    Admits base x ↔ ¬ Reopens derived base x := by
  constructor
  · intro hbase hreopens
    rcases hreopens with ⟨⟨n, ⟨d, hd, hn⟩, hx⟩, hnot, _⟩ | ⟨⟨n, ⟨d, hd, hn⟩, hx⟩, hnot, _⟩
    · rcases hbase.minExclusive d hd n hn with hlt | ⟨_, hgreatest, _⟩
      · exact hlt.ne hx
      · exact hnot hgreatest.1
    · rcases hbase.maxExclusive d hd n hn with hlt | ⟨_, hleast, _⟩
      · exact hlt.ne' hx
      · exact hnot hleast.1
  · intro hnot
    simp only [Reopens, not_or, not_and] at hnot
    refine ⟨fun d hd => h.min d (hsub hd), ?_, fun d hd => h.max d (hsub hd), ?_⟩
    · intro d hd n hn
      refine (h.minExclusive d (hsub hd) n hn).imp_right ?_
      rintro ⟨hx, hmin, hex⟩
      have hend : x ∈ limitsOf (·.minValueExclusive) base := ⟨n, ⟨d, hd, hn⟩, hx⟩
      have hown : x ∈ limitsOf (·.minValue) base := by
        by_contra hmem
        exact hnot.1 hend hmem hmin.1
      exact ⟨hx, ⟨hown, fun v hv => hmin.2 (limitsOf_subset hsub _ hv)⟩,
        hend, fun v hv => hex.2 (limitsOf_subset hsub _ hv)⟩
    · intro d hd n hn
      refine (h.maxExclusive d (hsub hd) n hn).imp_right ?_
      rintro ⟨hx, hmax, hex⟩
      have hend : x ∈ limitsOf (·.maxValueExclusive) base := ⟨n, ⟨d, hd, hn⟩, hx⟩
      have hown : x ∈ limitsOf (·.maxValue) base := by
        by_contra hmem
        exact hnot.2 hend hmem hmax.1
      exact ⟨hx, ⟨hown, fun v hv => hmax.2 (limitsOf_subset hsub _ hv)⟩,
        hend, fun v hv => hex.2 (limitsOf_subset hsub _ hv)⟩

end Admits

namespace Range

/-- The limits of a range, one side at a time. -/
theorem contains_iff {r : Range} {x : Rat} : r.Contains x ↔
    ((∀ n, r.min = some n → n.value ≤ x) ∧ ∀ n, r.minExclusive = some n → n.value < x) ∧
      (∀ n, r.max = some n → x ≤ n.value) ∧ ∀ n, r.maxExclusive = some n → x < n.value :=
  ⟨fun h => ⟨⟨h.min, h.minExclusive⟩, h.max, h.maxExclusive⟩,
    fun h => ⟨h.1.1, h.1.2, h.2.1, h.2.2⟩⟩

theorem contains_reconcile_iff (type : String) (ds : List Decorators) (x : Rat) :
    ((intrinsic type).reconcile (ofDecorators ds)).Contains x ↔
      (intrinsic type).Contains x ∧ Admits ds x := by
  obtain ⟨hmin, hmax⟩ := intrinsic_inclusive type
  rw [contains_iff, reconcile_lower_iff, reconcile_upper_iff, contains_iff, admits_iff, hmin, hmax]
  simp only [reduceCtorEq, false_imp_iff, implies_true, and_true]
  tauto

end Range

/-! ### Declared numbers -/

namespace Expr

/-- The calls of a chain that set a limit of numbers. -/
def numberLimits (e : Expr) : List Expr :=
  e.parts.filter (callsOneOf (lowerMethods ++ upperMethods))

/-- A number keeps all limits that a chain sets. -/
def Accepts (e : Expr) (x : Rat) : Prop := ∀ c ∈ e.numberLimits, c.Passes x

theorem parts_ofParts {groups : List (List Expr)} (h : ∀ e ∈ groups.flatten, e.isStep = true) :
    (ofParts groups).parts = groups.flatten := by
  have hparts := flatMap_parts_of_steps h
  unfold ofParts
  split
  · rename_i e heq
    rw [hparts] at heq
    rw [heq]
    split
    · rfl
    · exact parts_of_isStep (h e (by rw [heq]; exact List.mem_cons_self))
  · rw [hparts]
    rfl

/-- Of the calls on a number only `safe` sets no limit, and every number passes it. -/
theorem LimitsNumber.limits_or_passes {e : Expr} (h : e.LimitsNumber) :
    callsOneOf (lowerMethods ++ upperMethods) e = true ∨ ∀ x, e.Passes x := by
  rcases h with rfl | rfl | ⟨name, hname, t, rfl⟩
  · exact .inr passes_safe
  · exact .inl rfl
  · refine .inl ?_
    simp only [limitMethods, List.mem_cons, List.not_mem_nil, or_false] at hname
    rcases hname with rfl | rfl | rfl | rfl <;> rfl

/-- No method of a schema in stock limits a number. -/
theorem Stock.unlimited {es : List Expr} (h : Stock es) :
    ∀ e ∈ es, callsOneOf (lowerMethods ++ upperMethods) e = false := by
  cases h with
  | @plain names hnames =>
    have hall : ∀ names ∈ stockMethods, ∀ s ∈ names,
        (lowerMethods ++ upperMethods).contains (Text.ofString s) = false := by decide
    intro e he
    rcases List.mem_cons.mp he with rfl | he
    · rfl
    · obtain ⟨s, hs, rfl⟩ := List.mem_map.mp he
      exact hall names hnames s hs
  | date => decide

theorem LimitsNumber.isCall {e : Expr} (h : e.LimitsNumber) : e.isCall = true := by
  rcases h with rfl | rfl | ⟨name, _, t, rfl⟩ <;> rfl

end Expr

namespace Graph
variable {d : Document} {g : Graph} {a b : NodeId} {x : Rat}

/-- A number is limited by its decorators and by the range of its built-in type. -/
theorem Standard.constraints_of_numeric (hg : g.Standard) (hnumeric : g.derives a "numeric" = true)
    {name : Text} (hname : g.builtInBaseName? a = some name) :
    g.constraints a none true =
      numberCalls (g.sources a none true) (intrinsic name.toDisplay) (g.isBigScalar a) := by
  have hkind := (builtInRange_ok hg.toFit hnumeric).1
  have hcarrier := (hg.schema_of_numeric hkind hnumeric).1
  unfold constraints
  simp only [hkind, beq_self_eq_true, if_true, hcarrier, hnumeric, builtInRange, hname,
    isBig_scalar hkind]
  rfl

/-- The declaration of a number is its schema, its limits and a description. -/
theorem Standard.declare_of_numeric (hg : g.Standard) (hnumeric : g.derives a "numeric" = true)
    {cs : List Expr} (hcs : g.constraints a none true = .ok cs) (pending : List NodeId) :
    ({ graph := g, pending } : Builder).declare (g.subject a) =
      .ok (ofParts [g.ownScalarSchema a, cs, [],
        describe (({ graph := g, pending } : Builder).describedBy (g.subject a))]) := by
  have hkind := (builtInRange_ok hg.toFit hnumeric).1
  have hcarrier := (hg.schema_of_numeric hkind hnumeric).1
  have hbase : ({ graph := g, pending } : Builder).base (g.subject a) =
      .ok (g.ownScalarSchema a) := by
    rw [Builder.base_of_scalar hkind, scalarSchema_of_direct (by simp [hcarrier]), hcarrier,
      Option.getD_none]
  have hcalls : ({ graph := g, pending } : Builder).constraints (g.subject a) none true =
      .ok cs := hcs
  have hnot : (g.node a).kind ≠ .modelProperty := by simp [hkind]
  rw [Builder.declare_eq rfl, Builder.inline, Builder.inlineParts_of_kind _ hnot, hbase, hcalls]
  rfl

/-- Behind the schema of a scalar and limits of numbers, only the limits decide. -/
theorem accepts_ofParts {cs : List Expr} (hcs : ∀ c ∈ cs, c.LimitsNumber) (ns : List Node)
    (x : Rat) : (ofParts [g.ownScalarSchema a, cs, [], describe ns]).Accepts x ↔
      ∀ c ∈ cs, c.Passes x := by
  have hstock := g.stock_ownScalarSchema a
  have hown : ∀ e ∈ g.ownScalarSchema a, e.isStep = true :=
    hstock.forall (fun _ => rfl) fun _ => rfl
  have hsteps : ∀ e ∈ [g.ownScalarSchema a, cs, [], describe ns].flatten, e.isStep = true := by
    simp only [List.flatten_cons, List.flatten_nil, List.nil_append, List.append_nil,
      List.forall_mem_append]
    exact ⟨hown, fun e he => isStep_of_isCall (hcs e he).isCall,
      fun e he => isStep_of_isCall (trails_of_mem_describe he).isCall⟩
  have hnone : ∀ es : List Expr, (∀ e ∈ es,
      callsOneOf (lowerMethods ++ upperMethods) e = false) →
      es.filter (callsOneOf (lowerMethods ++ upperMethods)) = [] := by
    intro es hes
    simpa using hes
  have hdescribe : ∀ e ∈ describe ns, callsOneOf (lowerMethods ++ upperMethods) e = false := by
    intro e he
    obtain ⟨t, rfl⟩ := mem_describe he
    rfl
  rw [Accepts, numberLimits, parts_ofParts hsteps]
  simp only [List.flatten_cons, List.flatten_nil, List.nil_append, List.append_nil,
    List.filter_append, hnone _ hstock.unlimited, hnone _ hdescribe, List.mem_filter]
  constructor
  · intro h c hc
    rcases (hcs c hc).limits_or_passes with hlimits | hpasses
    · exact h c ⟨hc, hlimits⟩
    · exact hpasses x
  · intro h c hc
    exact h c hc.1

/-- The declaration of a number accepts what lies in the range of its type and is admitted by
all decorators on its chain. -/
theorem accepts_of_declare (hlink : link d = .ok g) (hdoc : ∀ x, d.Attaches x → x.Written)
    (hnumeric : g.derives a "numeric" = true) {name : Text}
    (hname : g.builtInBaseName? a = some name) (pending : List NodeId) :
    ∃ e, ({ graph := g, pending } : Builder).declare (g.subject a) = .ok e ∧
      ∀ x : Rat, e.Accepts x ↔
        (intrinsic name.toDisplay).Contains x ∧ Admits (g.sources a none true) x := by
  have hg := standard_of_link hlink
  have hsources : ∀ s ∈ g.sources a none true, s.Written := by
    intro s hs
    obtain ⟨c, _, rfl⟩ := List.mem_map.mp hs
    exact hdoc _ (drawn_of_link hlink c).decorators
  obtain ⟨cs, hcs⟩ := constraints_ok hg.toFit a none true
  have hcalls := (hg.constraints_of_numeric hnumeric hname).symm.trans hcs
  refine ⟨_, hg.declare_of_numeric hnumeric hcs pending, fun x => ?_⟩
  rw [accepts_ofParts (fun c hc => limitsNumber_of_mem_calls hcalls hc),
    forall_passes_iff ((written_intrinsic _).reconcile (written_ofDecorators hsources)) hcalls,
    contains_reconcile_iff]

/-! ### Chains of scalars -/

theorem Standard.builtIn_of_mem (hg : g.Standard) (ha : a < builtInNodes.length)
    (hb : b ∈ g.baseChain a) : (g.node b).builtIn = true := by
  have hall : ∀ i < builtInNodes.length, (empty.node i).builtIn = true := by decide
  rw [hg.baseChain_builtIn ha] at hb
  have hlt : b < builtInNodes.length := size_empty ▸ lt_of_mem_ancestors hb
  rw [hg.same b hlt]
  exact hall b hlt

/-- From a declared scalar on a chain, the chain goes on as the scalar's own does, to the same
built-in type. -/
theorem Standard.chain_of_mem (hg : g.Standard) (hkind : (g.node a).kind = .scalar)
    (hb : b ∈ g.baseChain a) (huser : (g.node b).builtIn = false) :
    g.baseChain b ⊆ g.baseChain a ∧ g.builtInBase? b = g.builtInBase? a ∧
      ∀ name, g.derives b name = g.derives a name := by
  induction hg.base_ends (lt_of_scalar hkind) with
  | @last a hbase =>
    rw [baseChain_last (lt_of_scalar hkind) hbase, List.mem_singleton] at hb
    subst hb
    exact ⟨List.Subset.refl _, rfl, fun _ => rfl⟩
  | @step a c hbase _ ih =>
    have ha := lt_of_scalar hkind
    have hdeclared : ¬ (g.node a).builtIn = true := by
      intro hbuiltIn
      rw [hg.builtIn_of_mem (hg.only a hkind hbuiltIn) hb] at huser
      cases huser
    have hchain := hg.toLinked.baseChain_cons ha hbase
    rw [hchain] at hb ⊢
    rcases List.mem_cons.mp hb with rfl | hb
    · rw [hchain]
      exact ⟨List.Subset.refl _, rfl, fun _ => rfl⟩
    · have hc := ((hg.fits_of_lt ha).base c hbase).2.trans hkind
      obtain ⟨hsub, hname, hderives⟩ := ih hc hb
      refine ⟨List.subset_cons_of_subset a hsub, ?_, fun name => ?_⟩
      · rw [hname, hg.toLinked.builtInBase?_of_base ha hkind hdeclared hbase]
      · rw [hderives, hg.toLinked.derives_of_base ha hdeclared hbase]

end Graph

/-- What the declaration of a number accepts, that of a declared number it derives from accepts
too, except the ends that it excludes and that are set again with their end. -/
theorem derived_accepts_iff {d : Document} {g : Graph} (hlink : Graph.link d = .ok g)
    (hdoc : ∀ x, d.Attaches x → x.Written) {a b : NodeId} (hnumeric : g.derives a "numeric" = true)
    (hb : b ∈ g.baseChain a) (huser : (g.node b).builtIn = false) (later earlier : List NodeId) :
    ∃ e f, ({ graph := g, pending := later } : Builder).declare (g.subject a) = .ok e ∧
      ({ graph := g, pending := earlier } : Builder).declare (g.subject b) = .ok f ∧
      ∀ x, e.Accepts x →
        (f.Accepts x ↔ ¬ Reopens (g.sources a none true) (g.sources b none true) x) := by
  have hg := Graph.standard_of_link hlink
  have hkind := (Graph.builtInRange_ok hg.toFit hnumeric).1
  obtain ⟨hsub, hbase, hderives⟩ := hg.chain_of_mem hkind hb huser
  obtain ⟨name, _, hname⟩ := (hg.class_of_derives hkind).1 hnumeric
  have hname' : g.builtInBaseName? b = some name := by
    rw [Graph.builtInBaseName?, hbase, ← Graph.builtInBaseName?, hname]
  obtain ⟨e, he, hea⟩ := Graph.accepts_of_declare hlink hdoc hnumeric hname later
  obtain ⟨f, hf, hfb⟩ := Graph.accepts_of_declare hlink hdoc
    ((hderives "numeric").trans hnumeric) hname' earlier
  refine ⟨e, f, he, hf, fun x hx => ?_⟩
  obtain ⟨hrange, hadmits⟩ := (hea x).mp hx
  have hsources : g.sources b none true ⊆ g.sources a none true := List.map_subset _ hsub
  rw [hfb, ← hadmits.iff_not_reopens hsources]
  exact and_iff_right hrange

/-- A number above five, and one from five on that derives from it. -/
def reopenedLimit : Document where
  scalars :=
    [{ name := "Above", base := "int32"
       decorators := { minValueExclusive := some (.ofInt 5) } },
     { name := "From", base := "Above"
       decorators := { minValue := some (.ofInt 5), maxValueExclusive := some (.ofInt 90) } }]

/-- The decorators on the chain of the second scalar. -/
def reopenedChain : List Decorators :=
  [{ minValue := some (.ofInt 5), maxValueExclusive := some (.ofInt 90) },
    { minValueExclusive := some (.ofInt 5) }, {}, {}, {}, {}]

theorem written_reopenedLimit {x : Decorators} (h : reopenedLimit.Attaches x) : x.Written := by
  have hnone : ∀ p, ¬ reopenedLimit.Holds p := by
    intro p hp
    cases hp with
    | own hm => cases hm
    | property hm => cases hm
    | base hm => cases hm
    | source hm => cases hm
    | variant hu => cases hu
  cases h with
  | doc hx =>
    rw [hx]
    exact Decorators.written_of_none rfl rfl rfl rfl
  | property hp => exact absurd hp (hnone _)
  | scalar hs hx =>
    rw [← hx]
    rcases List.mem_pair.mp hs with rfl | rfl
    all_goals constructor <;> simp [Number.written_ofInt]
  | model hm => cases hm

set_option maxRecDepth 100000 in
theorem reopenedLimit_runs : ∃ g, Graph.link reopenedLimit = .ok g ∧
    g.derives 30 "numeric" = true ∧ 29 ∈ g.baseChain 30 ∧ (g.node 29).builtIn = false ∧
    g.builtInBaseName? 29 = some (Text.ofString "int32") ∧
    g.builtInBaseName? 30 = some (Text.ofString "int32") ∧
    g.sources 30 none true = reopenedChain ∧ g.sources 29 none true = reopenedChain.tail := by
  have hrun : (Graph.link reopenedLimit).map (fun g =>
      decide (g.derives 30 "numeric" = true ∧ 29 ∈ g.baseChain 30 ∧ (g.node 29).builtIn = false ∧
        g.builtInBaseName? 29 = some (Text.ofString "int32") ∧
        g.builtInBaseName? 30 = some (Text.ofString "int32") ∧
        g.sources 30 none true = reopenedChain ∧
        g.sources 29 none true = reopenedChain.tail)) = .ok true := by
    decide +kernel
  obtain ⟨g, hg, hrun⟩ := Result.map_eq_ok.mp hrun
  exact ⟨g, hg, of_decide_eq_true hrun⟩

theorem reopens_reopenedChain (x : Rat) : Reopens reopenedChain reopenedChain.tail x ↔ x = 5 := by
  simp [Reopens, reopenedChain, limitsOf, SetBy, Number.ofInt, eq_comm]

/-- The second scalar accepts what the first one does, and the end. -/
theorem derived_accepts_iff_reopenedLimit : ∃ g, Graph.link reopenedLimit = .ok g ∧
    (∀ x, reopenedLimit.Attaches x → x.Written) ∧ g.derives 30 "numeric" = true ∧
    29 ∈ g.baseChain 30 ∧ (g.node 29).builtIn = false ∧
    ∃ e f, ({ graph := g, pending := [] } : Builder).declare (g.subject 30) = .ok e ∧
      ({ graph := g, pending := [30] } : Builder).declare (g.subject 29) = .ok f ∧
      ∀ x, e.Accepts x → (f.Accepts x ↔ x ≠ 5) := by
  obtain ⟨g, hg, hnumeric, hmem, huser, _, _, hderived, hbase⟩ := reopenedLimit_runs
  obtain ⟨e, f, he, hf, hiff⟩ := derived_accepts_iff hg (fun _ => written_reopenedLimit) hnumeric
    hmem huser [] [30]
  refine ⟨g, hg, fun _ => written_reopenedLimit, hnumeric, hmem, huser, e, f, he, hf, ?_⟩
  intro x hx
  rw [hiff x hx, hderived, hbase, reopens_reopenedChain]

theorem admits_reopenedChain : Admits reopenedChain 5 := by
  have hfold : ofDecorators reopenedChain =
      { min := some (.ofInt 5), minExclusive := some (.ofInt 5),
        maxExclusive := some (.ofInt 90) } := by decide +kernel
  have hlt : (5 : Rat) < 90 := by decide +kernel
  rw [admits_iff, hfold]
  simp [Number.ofInt, hlt]

/-- Five is accepted by the scalar that derives, and not by the one it derives from. -/
theorem reopenedLimit_widens : ∃ g e f, Graph.link reopenedLimit = .ok g ∧
    g.derives 30 "numeric" = true ∧ 29 ∈ g.baseChain 30 ∧ (g.node 29).builtIn = false ∧
    ({ graph := g } : Builder).declare (g.subject 30) = .ok e ∧
    ({ graph := g } : Builder).declare (g.subject 29) = .ok f ∧ e.Accepts 5 ∧ ¬ f.Accepts 5 := by
  obtain ⟨g, hg, hnumeric, hmem, huser, hname', hname, hderived, hbase⟩ := reopenedLimit_runs
  have hstandard := Graph.standard_of_link hg
  have hkind := (Graph.builtInRange_ok hstandard.toFit hnumeric).1
  have hnumeric' := ((hstandard.chain_of_mem hkind hmem huser).2.2 "numeric").trans hnumeric
  obtain ⟨e, he, hea⟩ := Graph.accepts_of_declare hg (fun _ => written_reopenedLimit) hnumeric
    hname []
  obtain ⟨f, hf, hfb⟩ := Graph.accepts_of_declare hg (fun _ => written_reopenedLimit) hnumeric'
    hname' []
  have hrange : (intrinsic "int32").Contains 5 := by
    have hlower : (-2147483648 : Rat) ≤ 5 := by decide +kernel
    have hupper : (5 : Rat) ≤ 2147483647 := by decide +kernel
    constructor <;> simp [intrinsic, ofInts, Number.ofInt, hlower, hupper]
  refine ⟨g, e, f, hg, hnumeric, hmem, huser, he, hf, (hea 5).mpr ⟨hrange, ?_⟩, ?_⟩
  · rw [hderived]
    exact admits_reopenedChain
  · rw [hfb, hbase, admits_reopenedChain.iff_not_reopens (List.tail_subset _),
      reopens_reopenedChain]
    simp

/-! ### Counts of items -/

namespace Expr

/-- A length passes a call that counts items. No other call lets a length pass. -/
def AdmitsLength (length : Nat) : Expr → Prop
  | call name args => ∃ v, limit? args = some v ∧
      ((name = Text.ofString "min" ∧ v ≤ length) ∨ (name = Text.ofString "max" ∧ length ≤ v))
  | _ => False

theorem limit?_integer (z : Int) : limit? [integer z] = some (z : Rat) :=
  Number.readLiteral?_literal (Number.written_ofInt z) false

theorem admitsLength_min (length : Nat) (z : Int) :
    (call (Text.ofString "min") [integer z]).AdmitsLength length ↔ z ≤ length := by
  simp +decide [AdmitsLength, limit?_integer]
  norm_cast

theorem admitsLength_max (length : Nat) (z : Int) :
    (call (Text.ofString "max") [integer z]).AdmitsLength length ↔ length ≤ z := by
  simp +decide [AdmitsLength, limit?_integer]
  norm_cast

end Expr

section Folded
variable (limit : Decorators → Option Int) (ds : List Decorators) (z : Int)

theorem maxInt?_le_iff (a b : Option Int) : (∀ k, maxInt? a b = some k → k ≤ z) ↔
    (∀ k, a = some k → k ≤ z) ∧ ∀ k, b = some k → k ≤ z := by
  unfold maxInt?
  grind

theorem le_minInt?_iff (a b : Option Int) : (∀ k, minInt? a b = some k → z ≤ k) ↔
    (∀ k, a = some k → z ≤ k) ∧ ∀ k, b = some k → z ≤ k := by
  unfold minInt?
  grind

theorem foldl_maxInt?_le_iff (m : Option Int) :
    (∀ k, ds.foldl (fun m d => maxInt? m (limit d)) m = some k → k ≤ z) ↔
      (∀ k, m = some k → k ≤ z) ∧ ∀ d ∈ ds, ∀ k, limit d = some k → k ≤ z := by
  induction ds generalizing m with
  | nil => simp
  | cons d ds ih => rw [List.foldl_cons, ih, maxInt?_le_iff, List.forall_mem_cons, and_assoc]

theorem le_foldl_minInt?_iff (m : Option Int) :
    (∀ k, ds.foldl (fun m d => minInt? m (limit d)) m = some k → z ≤ k) ↔
      (∀ k, m = some k → z ≤ k) ∧ ∀ d ∈ ds, ∀ k, limit d = some k → z ≤ k := by
  induction ds generalizing m with
  | nil => simp
  | cons d ds ih => rw [List.foldl_cons, ih, le_minInt?_iff, List.forall_mem_cons, and_assoc]

end Folded

/-- A length is let through by the calls that count items. -/
def CountsAdmit (ds : List Decorators) (length : Nat) : Prop :=
  ∀ e ∈ arrayCalls ds, e.AdmitsLength length

/-- All greatest counts are positive. -/
def PositiveMaxItems (ds : List Decorators) : Prop :=
  ∀ d ∈ ds, ∀ k, d.maxItems = some k → 0 < k

/-- The calls let through the lengths that keep all least counts, and all greatest counts as long
as none of those is zero or less. -/
theorem countsAdmit_iff (ds : List Decorators) (length : Nat) : CountsAdmit ds length ↔
    (∀ d ∈ ds, ∀ k, d.minItems = some k → k ≤ length) ∧
      (PositiveMaxItems ds → ∀ d ∈ ds, ∀ k, d.maxItems = some k → length ≤ k) := by
  have hmin : ∀ m : Option Int, (∀ e ∈ countCall "min" m, e.AdmitsLength length) ↔
      ∀ k, m = some k → k ≤ length := by
    intro m
    cases m with
    | none => simp [countCall]
    | some k =>
      simp only [countCall]
      split
      · simp [admitsLength_min]
      · simp; omega
  have hmax : ∀ m : Option Int, (∀ e ∈ countCall "max" m, e.AdmitsLength length) ↔
      ((∀ k, m = some k → 0 < k) → ∀ k, m = some k → length ≤ k) := by
    intro m
    cases m with
    | none => simp [countCall]
    | some k =>
      simp only [countCall]
      split
      · rename_i hpos
        simp [admitsLength_max, hpos]
      · rename_i hpos
        simp [hpos]
  have hleast := fun z => le_foldl_minInt?_iff (·.maxItems) ds z none
  have hgreatest := foldl_maxInt?_le_iff (·.minItems) ds length none
  simp only [reduceCtorEq, false_imp_iff, implies_true, true_and] at hleast hgreatest
  rw [CountsAdmit, arrayCalls, List.forall_mem_append, hmin, hmax, hgreatest, hleast]
  exact and_congr_right' (imp_congr_left (hleast 1))

/-- Some length keeps all least counts and exceeds a given number. -/
theorem exists_length (ds : List Decorators) (m : Int) : ∃ length : Nat, m < length ∧
    ∀ d ∈ ds, ∀ k, d.minItems = some k → k ≤ length := by
  refine ⟨max (m.toNat + 1) ((ds.foldl (fun m d => maxInt? m d.minItems) none).getD 0).toNat,
    by omega, ((foldl_maxInt?_le_iff (·.minItems) ds _ none).mp ?_).2⟩
  intro k hk
  rw [hk, Option.getD_some]
  omega

/-- One more source, wherever it is put, narrows what the counts let through, unless it has a
greatest count of zero or less and takes away a limit that was there. -/
theorem countsAdmit_narrows_iff (before after : List Decorators) (d : Decorators) :
    (∀ length, CountsAdmit (before ++ d :: after) length → CountsAdmit (before ++ after) length) ↔
      ¬ (PositiveMaxItems (before ++ after) ∧ (∃ x ∈ before ++ after, x.maxItems ≠ none) ∧
        ∃ k ≤ 0, d.maxItems = some k) := by
  have hmem : ∀ x ∈ before ++ after, x ∈ before ++ d :: after := by
    intro x hx
    rcases List.mem_append.mp hx with hx | hx
    · exact List.mem_append_left _ hx
    · exact List.mem_append_right _ (List.mem_cons_of_mem d hx)
  have hd : d ∈ before ++ d :: after := List.mem_append_right _ List.mem_cons_self
  constructor
  · rintro hnarrows ⟨hpositive, ⟨x, hx, hset⟩, k, hk, hlimit⟩
    obtain ⟨m, hm⟩ := Option.ne_none_iff_exists'.mp hset
    obtain ⟨length, hlong, hmin⟩ := exists_length (before ++ d :: after) m
    have hadmit : CountsAdmit (before ++ d :: after) length := by
      refine (countsAdmit_iff _ _).mpr ⟨hmin, fun hall => ?_⟩
      exact absurd (hall d hd k hlimit) (Int.not_lt.mpr hk)
    have hshort := ((countsAdmit_iff _ _).mp (hnarrows length hadmit)).2 hpositive x hx m hm
    exact absurd hshort (Int.not_le.mpr hlong)
  · intro hnot length hlonger
    obtain ⟨hmin, hmax⟩ := (countsAdmit_iff _ _).mp hlonger
    refine (countsAdmit_iff _ _).mpr ⟨fun x hx => hmin x (hmem x hx), fun hpositive x hx m hm => ?_⟩
    refine hmax ?_ x (hmem x hx) m hm
    -- only the further source could have a greatest count that is not positive
    intro y hy k hk
    rcases List.mem_append.mp hy with hy | hy
    · exact hpositive y (List.mem_append_left _ hy) k hk
    · rcases List.mem_cons.mp hy with rfl | hy
      · by_contra hle
        exact hnot ⟨hpositive, ⟨x, hx, by simp [hm]⟩, k, Int.not_lt.mp hle, hk⟩
      · exact hpositive y (List.mem_append_right _ hy) k hk

/-- A limit of three items, and a further one of none. -/
theorem zeroMaxItems_widens : CountsAdmit [{ maxItems := some 3 }, { maxItems := some 0 }] 5 ∧
    ¬ CountsAdmit [{ maxItems := some 3 }] 5 := by
  simp [countsAdmit_iff, PositiveMaxItems]

end SchemaLoom

import SchemaLoom.Proofs.BigIntegers
import SchemaLoom.Proofs.Calls
import SchemaLoom.Proofs.Standard

/-!
# Calls that fit

The base schema of a node and the calls that narrow it are chosen apart: the one by the
name of the nearest built-in scalar, the other by what is among the ancestors. Both go
by what carries a date or a duration. They put every scalar in the same class: limits
of numbers follow the schema of numbers or of big integers only, those of texts follow
the schema of texts, counts follow an array, and nothing else is narrowed.

That a call accepts the argument it is given is not part of it, nor is which limits are
set.
-/

namespace SchemaLoom

set_option autoImplicit false

/-! ### Classes of calls -/

namespace Expr

/-- A call that only numbers have. -/
def LimitsNumber (e : Expr) : Prop :=
  e = method "safe" ∨ e = method "nonnegative" ∨
    ∃ name ∈ limitMethods, ∃ t, e = call name [raw t]

/-- A call that counts. -/
def LimitsCount (e : Expr) : Prop := ∃ name ∈ countMethods, ∃ n, e = call name [integer n]

/-- A call that texts have. -/
def LimitsText (e : Expr) : Prop :=
  e.LimitsCount ∨ (∃ pattern, e = call "regex" [raw (Text.ofChars (regexLiteral pattern))]) ∨
    ∃ format m, formatMethod? format = some m ∧ e = method (Text.ofString m)

/-- The schemas that limits of numbers may follow. -/
def numberRoots : List Text := ["number", "bigint"]

/-- The parts start at one of the schemas of the library. -/
def RootedAt (roots : List Text) (es : List Expr) : Prop :=
  ∃ root ∈ roots, ∃ rest, es = fromZ (method root :: rest)

end Expr

open SchemaLoom.Expr

theorem Range.limitsNumber_of_mem_calls {r : Range} {big : Bool} {es : List Expr}
    (h : r.calls big = .ok es) {e : Expr} (he : e ∈ es) : e.LimitsNumber := by
  have hlimit : ∀ (name : String) (n : Option Number), Text.ofString name ∈ limitMethods →
      e ∈ n.toList.map (limitExpr name big) → e.LimitsNumber := by
    intro name n hname he
    obtain ⟨k, _, rfl⟩ := List.mem_map.mp he
    exact .inr (.inr ⟨_, hname, _, rfl⟩)
  rw [calls_eq] at h
  cases h
  simp only [List.mem_append] at he
  rcases he with (((he | he) | he) | he) | he
  · split at he
    · exact .inl (List.mem_singleton.mp he)
    · cases he
  · obtain ⟨k, _, rfl⟩ := List.mem_map.mp he
    unfold minExpr
    split
    · exact .inr (.inl rfl)
    · exact .inr (.inr ⟨"gte", by decide, _, rfl⟩)
  · exact hlimit _ _ (by decide) he
  · exact hlimit _ _ (by decide) he
  · exact hlimit _ _ (by decide) he

theorem limitsText_of_mem_stringCalls {ds : List Decorators} {e : Expr} (he : e ∈ stringCalls ds) :
    e.LimitsText := by
  simp only [stringCalls, List.mem_append] at he
  rcases he with ((he | he) | he) | he
  · split at he
    · split at he
      · cases he
      · exact .inl ⟨"min", by decide, _, List.mem_singleton.mp he⟩
    · cases he
  · obtain ⟨n, _, rfl⟩ := Option.map_eq_some_iff.mp (Option.mem_toList.mp he)
    exact .inl ⟨"max", by decide, n, rfl⟩
  · split at he
    · cases he
    · exact .inr (.inl ⟨_, List.mem_singleton.mp he⟩)
  · obtain ⟨m, hm, rfl⟩ := Option.map_eq_some_iff.mp (Option.mem_toList.mp he)
    exact .inr (.inr ⟨_, m, hm, rfl⟩)

/-! ### The class of a built-in scalar -/

namespace Graph

/-- The built-in scalars whose values are small integers. -/
def smallNames : List Text :=
  ["int8", "int16", "int32", "uint8", "uint16", "uint32", "safeint"]

/-- The built-in scalars whose values are numbers with a fraction. -/
def fractionNames : List Text :=
  ["float32", "float64", "float", "decimal", "decimal128", "numeric"]

/-- The built-in scalars whose schema is that of numbers or of big integers. -/
def numberNames : List Text := smallNames ++ bigNames ++ fractionNames

/-- The built-in scalars that are texts. -/
def textNames : List Text := ["string", "url"]

/-- The built-in scalars that an encoding may put another type for. -/
def carriedNames : List Text := ["utcDateTime", "offsetDateTime", "duration"]

variable {d : Document} {g : Graph} {n a c : NodeId} {name : Text}

theorem derives_empty : ∀ a < builtInNodes.length,
    (empty.derives a "numeric" = true → empty.nameOf a ∈ numberNames) ∧
    (empty.derives a "string" = true → empty.nameOf a ∈ textNames) := by
  decide +kernel

theorem not_mem_carriedNames :
    ∀ name ∈ carriedNames, name ∉ numberNames ∧ name ∉ textNames := by decide

theorem ownScalarSchema_number (hname : g.builtInBaseName? n = some name)
    (hmem : name ∈ numberNames) : RootedAt numberRoots (g.ownScalarSchema n) := by
  rcases List.mem_append.mp hmem with hmem | hmem
  · rcases List.mem_append.mp hmem with hmem | hmem
    · refine ⟨"number", by decide, [method "int"], ?_⟩
      rw [ownScalarSchema, hname]
      simp only [smallNames, List.mem_cons, List.not_mem_nil, or_false] at hmem
      rcases hmem with rfl | rfl | rfl | rfl | rfl | rfl | rfl
      all_goals rfl
    · rw [(ownScalarSchema_bigint_iff n).mpr ⟨name, hmem, hname⟩]
      exact ⟨"bigint", by decide, [], rfl⟩
  · refine ⟨"number", by decide, [], ?_⟩
    rw [ownScalarSchema, hname]
    simp only [fractionNames, List.mem_cons, List.not_mem_nil, or_false] at hmem
    rcases hmem with rfl | rfl | rfl | rfl | rfl | rfl
    all_goals rfl

theorem ownScalarSchema_text (hname : g.builtInBaseName? n = some name)
    (hmem : name ∈ textNames) : RootedAt ["string"] (g.ownScalarSchema n) := by
  rw [ownScalarSchema, hname]
  simp only [textNames, List.mem_cons, List.not_mem_nil, or_false] at hmem
  rcases hmem with rfl | rfl
  · exact ⟨"string", by decide, [], rfl⟩
  · exact ⟨"string", by decide, [method "url"], rfl⟩

/-! ### The class of a scalar -/

theorem lt_of_scalar (hkind : (g.node n).kind = .scalar) : n < g.nodes.size := by
  by_contra hge
  rw [node_of_size_le (Nat.le_of_not_lt hge)] at hkind
  cases hkind

theorem kind_of_builtInBaseName? (hg : g.Fit) (hname : g.builtInBaseName? n = some name) :
    (g.node n).kind = .scalar := by
  obtain ⟨a, ha, _⟩ := Option.map_eq_some_iff.mp hname
  unfold builtInBase? at ha
  split at ha
  · rename_i x xs hdrop
    split at ha
    · rename_i hx
      have hmem : x ∈ g.baseChain n := (List.dropWhile_sublist _).subset (by rw [hdrop]; simp)
      rw [← (reaches_of_mem_ancestors hg hmem).2]
      simpa using hx
    · cases ha
  · cases ha

theorem Standard.class_of_derives (hg : g.Standard) (hkind : (g.node n).kind = .scalar) :
    (g.derives n "numeric" = true → ∃ x ∈ numberNames, g.builtInBaseName? n = some x) ∧
    (g.derives n "string" = true → ∃ x ∈ textNames, g.builtInBaseName? n = some x) := by
  rcases hg.nearest (lt_of_scalar hkind) hkind with ⟨_, hnone⟩ | ⟨a, ha, hbase, hderives⟩
  · simp [hnone]
  · have hname : g.builtInBaseName? n = some (empty.nameOf a) := by
      rw [builtInBaseName?, hbase, Option.map_some, nameOf, hg.same a ha, nameOf]
    rw [hderives, hderives]
    exact ⟨fun h => ⟨_, (derives_empty a ha).1 h, hname⟩,
      fun h => ⟨_, (derives_empty a ha).2 h, hname⟩⟩

/-- Only dates and durations are carried. -/
theorem mem_carriedNames_of_carrier? (hname : g.builtInBaseName? n = some name)
    (hc : g.carrier? n = some c) : name ∈ carriedNames := by
  obtain ⟨name', hname', hdate⟩ := builtInBaseName?_of_carrier? hc
  obtain rfl : name = name' := Option.some.inj (hname.symm.trans hname')
  simp only [List.mem_cons, List.not_mem_nil, or_false] at hdate
  rcases hdate with hdate | hdate | hdate
  all_goals
    rw [Text.eq_ofString_of_toDisplay hdate (by decide)]
    decide

/-- What derives from `numeric` is not carried, and its schema is one of numbers. -/
theorem Standard.schema_of_numeric (hg : g.Standard) (hkind : (g.node n).kind = .scalar)
    (h : g.derives n "numeric" = true) :
    g.carrier? n = none ∧ RootedAt numberRoots (g.ownScalarSchema n) := by
  obtain ⟨x, hx, hname⟩ := (hg.class_of_derives hkind).1 h
  refine ⟨?_, ownScalarSchema_number hname hx⟩
  by_contra hsome
  obtain ⟨c, hc⟩ := Option.ne_none_iff_exists'.mp hsome
  exact (not_mem_carriedNames x (mem_carriedNames_of_carrier? hname hc)).1 hx

/-- What derives from `string` has the schema of texts, unless it is carried. -/
theorem Standard.schema_of_string (hg : g.Standard) (hkind : (g.node n).kind = .scalar)
    (h : g.derives n "string" = true) : RootedAt ["string"] (g.ownScalarSchema n) := by
  obtain ⟨x, hx, hname⟩ := (hg.class_of_derives hkind).2 h
  exact ownScalarSchema_text hname hx

/-- Dates and durations are neither numbers nor texts. -/
theorem Standard.not_derives_of_carried (hg : g.Standard) (hname : g.builtInBaseName? n = some name)
    (hmem : name ∈ carriedNames) : g.derives n "numeric" ≠ true ∧ g.derives n "string" ≠ true := by
  have hclass := hg.class_of_derives (kind_of_builtInBaseName? hg.toFit hname)
  constructor
  · intro h
    obtain ⟨x, hx, hname'⟩ := hclass.1 h
    obtain rfl := Option.some.inj (hname.symm.trans hname')
    exact (not_mem_carriedNames _ hmem).1 hx
  · intro h
    obtain ⟨x, hx, hname'⟩ := hclass.2 h
    obtain rfl := Option.some.inj (hname.symm.trans hname')
    exact (not_mem_carriedNames _ hmem).2 hx

end Graph

/-! ### Base schemas and calls -/

namespace Builder
variable {b : Builder} {t : NodeId} {cs : List Expr}

/-- The calls are of the class that the base schema of the node is of. -/
inductive CallsFit (b : Builder) (s : Subject) (cs : List Expr) : Prop
  | nothing : cs = [] → CallsFit b s cs
  | number {es : List Expr} : b.base s = .ok es → RootedAt numberRoots es →
      (∀ c ∈ cs, c.LimitsNumber) → CallsFit b s cs
  | text {es : List Expr} : b.base s = .ok es → RootedAt ["string"] es →
      (∀ c ∈ cs, c.LimitsText) → CallsFit b s cs
  | items {elem : Result Expr} : s.node.isArray = true →
      b.base s = elem.map (fun e => fromZ [.call "array" [e]]) →
      (∀ c ∈ cs, c.LimitsCount) → CallsFit b s cs

theorem base_of_isArray (harray : (b.graph.node t).isArray = true) :
    ∃ elem : Result Expr, b.base (b.graph.subject t) =
      elem.map fun e => fromZ [.call "array" [e]] := by
  have hkind := Node.kind_of_isArray harray
  refine ⟨b.nested (b.baseSchema (b.graph.nodes.size + 1) [t])
    (b.subject? ((b.graph.node t).indexer.bind (·.value))), ?_⟩
  simp [base, depth, baseSchema, baseStep, modelSchema, Graph.subject, hkind, harray, Except.map,
    bind, Except.bind]

theorem base_of_scalar (ht : (b.graph.node t).kind = .scalar) :
    b.base (b.graph.subject t) = b.graph.scalarSchema (b.graph.nodes.size + 1) t := by
  simp [base, depth, baseSchema, baseStep, Graph.subject, ht]

theorem base_of_direct (ht : (b.graph.node t).kind = .scalar)
    (hdirect : ∀ c, b.graph.carrier? t = some c → b.graph.carrier? c = none) :
    b.base (b.graph.subject t) =
      .ok (b.graph.ownScalarSchema ((b.graph.carrier? t).getD t)) := by
  rw [base_of_scalar ht, Graph.scalarSchema_of_direct hdirect]

/-- A scalar is narrowed as the built-in type it derives from, or as the number that carries it,
and of all other nodes only an array is narrowed. -/
theorem callsFit_of_narrowed (hg : b.graph.Standard) {member : Option Decorators} {inlined : Bool}
    (h : b.graph.Narrowed t member inlined cs) : CallsFit b (b.graph.subject t) cs := by
  cases h with
  | nothing => exact .nothing rfl
  | @carried c range big _ ht hc _ hnumeric _ _ h =>
    obtain ⟨hlast, hrooted⟩ := hg.schema_of_numeric
      (Graph.builtInRange_ok hg.toFit hnumeric).1 hnumeric
    have hdirect : ∀ c', b.graph.carrier? t = some c' → b.graph.carrier? c' = none := by
      intro c' hc'
      rwa [← Option.some.inj (hc.symm.trans hc')]
    refine .number ?_ hrooted fun e he => Range.limitsNumber_of_mem_calls h he
    rw [base_of_direct ht hdirect, hc, Option.getD_some]
  | number ht hc hnumeric _ _ h =>
    refine .number ?_ (hg.schema_of_numeric ht hnumeric).2 fun e he =>
      Range.limitsNumber_of_mem_calls h he
    rw [base_of_direct ht (by simp [hc]), hc, Option.getD_none]
  | text ht hc hstring =>
    refine .text ?_ (hg.schema_of_string ht hstring) fun e he => limitsText_of_mem_stringCalls he
    rw [base_of_direct ht (by simp [hc]), hc, Option.getD_none]
  | items harray =>
    obtain ⟨elem, helem⟩ := base_of_isArray harray
    exact .items harray helem fun e he => mem_arrayCalls he

/-- A date or a duration that no number carries is not narrowed. -/
theorem eq_nil_of_carried (hg : b.graph.Standard) {name : Text} (hmem : name ∈ Graph.carriedNames)
    (hname : b.graph.builtInBaseName? t = some name)
    (hnot : ∀ c, b.graph.carrier? t = some c → b.graph.derives c "numeric" = false)
    {member : Option Decorators} {inlined : Bool} (h : b.graph.Narrowed t member inlined cs) :
    cs = [] := by
  obtain ⟨hnumeric, hstring⟩ := hg.not_derives_of_carried hname hmem
  cases h with
  | nothing => rfl
  | carried _ hc _ hcarrier =>
    rw [hnot _ hc] at hcarrier
    cases hcarrier
  | number _ _ ht => exact absurd ht hnumeric
  | text _ _ ht => exact absurd ht hstring
  | items harray =>
    have hmodel := Node.kind_of_isArray harray
    rw [Graph.kind_of_builtInBaseName? hg.toFit hname] at hmodel
    cases hmodel

/-- The calls on a node are of the class of its base schema. A date or a duration has none, unless
a number carries it. -/
theorem constraints_fit {d : Document} (hlink : Graph.link d = .ok b.graph) (t : NodeId)
    (member : Option Node) (inlined : Bool) :
    ∃ cs, b.constraints (b.graph.subject t) member inlined = .ok cs ∧
      CallsFit b (b.graph.subject t) cs ∧
      ∀ name ∈ Graph.carriedNames, b.graph.builtInBaseName? t = some name →
        (∀ c, b.graph.carrier? t = some c → b.graph.derives c "numeric" = false) → cs = [] := by
  have hg := Graph.standard_of_link hlink
  obtain ⟨cs, hcs⟩ := Graph.constraints_ok hg.toFit t (member.map (·.decorators)) inlined
  have hnarrowed := Graph.narrowed_of_constraints hcs
  exact ⟨cs, hcs, callsFit_of_narrowed hg hnarrowed, fun name hmem hname hnot =>
    eq_nil_of_carried hg hmem hname hnot hnarrowed⟩

end Builder

/-- A big number, a text, a date that a number carries, one that a text carries, and an array. -/
def almanac : Document where
  scalars :=
    [{ name := "Count", base := "uint64" },
     { name := "Code", base := "url", decorators := { minLength := some 3 } },
     { name := "Seen", base := "utcDateTime",
       encode := some { encoding := "unixTimestamp", type := "int64" } },
     { name := "Due", base := "utcDateTime", encode := some { encoding := "text" } }]
  models :=
    [{ name := "Codes", source := some { array := some (.named "Code") },
       decorators := { maxItems := some 9 } }]

set_option maxRecDepth 100000 in
theorem constraints_fit_almanac : ∃ b : Builder, Graph.link almanac = .ok b.graph ∧
    b.graph.declarations = [29, 30, 31, 32, 33] ∧
    [29, 30, 31, 32, 33].map (fun t =>
      ((b.constraints (b.graph.subject t) none true).toOption.map List.length)) =
        [some 2, some 1, some 2, some 0, some 1] ∧
    ∀ t, ∃ cs, b.constraints (b.graph.subject t) none true = .ok cs ∧
      Builder.CallsFit b (b.graph.subject t) cs ∧
      ∀ name ∈ Graph.carriedNames, b.graph.builtInBaseName? t = some name →
        (∀ c, b.graph.carrier? t = some c → b.graph.derives c "numeric" = false) → cs = [] := by
  have hrun : (Graph.link almanac).map (fun g =>
      let b : Builder := { graph := g }
      (g.declarations, [29, 30, 31, 32, 33].map fun t =>
        ((b.constraints (g.subject t) none true).toOption.map List.length))) =
      .ok ([29, 30, 31, 32, 33], [some 2, some 1, some 2, some 0, some 1]) := by
    decide +kernel
  obtain ⟨g, hg, heq⟩ := Result.map_eq_ok.mp hrun
  obtain ⟨hdeclarations, hcounts⟩ := Prod.mk.inj heq
  exact ⟨{ graph := g }, hg, hdeclarations, hcounts,
    fun t => Builder.constraints_fit (b := { graph := g }) hg t none true⟩

end SchemaLoom

import SchemaLoom.Proofs.Overrides
import SchemaLoom.Proofs.FieldOccurrence
import SchemaLoom.Proofs.Identifiers

/-!
# The fragments of a default

An override may take the default apart: it is offered the base schema, the constraints, the
calls of the property and the description. Chained again, these are the default, but for two
kinds of sites. Where a declaration is referred to inside another expression, the default is
the reference and the fragments are those of the node written out. For an enum member the
default is its bare value and the fragments are those of a schema for it.
-/

namespace SchemaLoom

set_option autoImplicit false

open SchemaLoom.Expr

/-- The fragments chained in their order. -/
def Parts.chained (p : Parts) : Expr :=
  .chain (p.base ++ p.constraints ++ p.member ++ p.description)

/-! ### How base schemas start -/

namespace Expr

def stepName? : Expr → Option Text
  | ident name => some name
  | call name _ => some name
  | _ => none

/-- What base schemas take from the library. -/
def libraryNames : List Text :=
  intrinsicNames.map Text.ofString ++
    (["any", "array", "bigint", "boolean", "coerce", "discriminatedUnion", "enum", "intersection",
      "literal", "number", "object", "record", "string", "tuple", "union"] : List Text)

/-- Base schemas take something from the library or are merged into a declaration. -/
inductive Opens : List Expr → Prop
  | library {name : Text} {e : Expr} {es : List Expr} : e.stepName? = some name →
      name ∈ libraryNames → (∀ x ∈ e :: es, x.isStep = true) → Opens (z :: e :: es)
  | merged (a : NodeId) (arg : Expr) : Opens [.ref a, .call "merge" [arg]]

theorem opens_call {name : Text} (args : List Expr) (h : name ∈ libraryNames) :
    Opens (fromZ [.call name args]) :=
  .library rfl h (by simp [isStep])

theorem Stock.opens {es : List Expr} (h : Stock es) : Opens es := by
  cases h with
  | @plain names hnames =>
    have hall : ∀ names ∈ stockMethods,
        ∃ name ∈ names.head?, Text.ofString name ∈ libraryNames := by decide
    obtain ⟨name, hhead, hname⟩ := hall names hnames
    obtain ⟨rest, rfl⟩ := List.head?_eq_some_iff.mp hhead
    refine .library rfl hname ?_
    intro e he
    have hmem : e ∈ (name :: rest).map fun n => method (Text.ofString n) := he
    obtain ⟨n, _, rfl⟩ := List.mem_map.mp hmem
    rfl
  | date => exact .library rfl (by decide) (by simp [isStep, method])

end Expr

namespace Builder
variable {b : Builder} {base : BaseOf}

theorem Shaped.opens {m : Subject} {es : List Expr} (h : b.Shaped base m es) : Opens es := by
  cases h <;> exact opens_call _ (by decide)

theorem Composed.opens (hbase : ∀ s es, base s = .ok es → Opens es) {s : Subject}
    {es : List Expr} (h : b.Composed base s es) : Opens es := by
  cases h with
  | stock _ hstock => exact hstock.opens
  | shape _ _ _ hshape => exact (shaped_of_shape hshape).opens
  | merged _ _ _ _ => exact .merged _ _
  | property _ _ hes => exact hbase _ _ hes
  | _ => exact opens_call _ (by decide)

/-- Base schemas start like this whatever overrides write inside them. -/
theorem Known.opens (h : b.Known base) {s : Subject} {es : List Expr} (hs : base s = .ok es) :
    Opens es := by
  obtain ⟨fuel, expanding, rfl⟩ := h
  refine baseSchema_induction (b := b) (R := fun base => ∀ s es, base s = .ok es → Opens es) ?_
    fuel expanding s es hs
  intro base' hstep s es h
  obtain ⟨base, hbase, h⟩ := hstep s es h
  exact (composed_of_baseStep h).opens hbase

end Builder

/-! ### Chained fragments -/

namespace Expr

theorem Opens.parts {es : List Expr} (h : Opens es) : ∀ e ∈ es, e.parts = [e] := by
  intro e he
  cases h with
  | library _ _ hsteps =>
    rcases List.mem_cons.mp he with rfl | he
    · rfl
    · exact parts_of_isStep (hsteps e he)
  | merged a arg =>
    simp only [List.mem_cons, List.not_mem_nil, or_false] at he
    rcases he with rfl | rfl <;> rfl

theorem Trails.parts {e : Expr} (h : e.Trails) : e.parts = [e] :=
  parts_of_isStep (isStep_of_isCall h.isCall)

/-- Parts that are no chains are joined by dots. -/
theorem print_ofParts {groups : List (List Expr)}
    (h : ∀ e ∈ groups.flatten, e.parts = [e]) (names : NodeId → Text) (indent : Nat) :
    (ofParts groups).print names indent = (chain groups.flatten).print names indent := by
  have hflat : groups.flatten.flatMap Expr.parts = groups.flatten := by
    generalize groups.flatten = es at h
    induction es with
    | nil => rfl
    | cons e es ih =>
      rw [List.flatMap_cons, h e (by simp), ih fun f hf => h f (by simp [hf])]
      rfl
  unfold ofParts
  rw [hflat]
  split
  · rename_i e heq
    rw [heq]
    split
    · rfl
    · rfl
  · rfl

end Expr

/-- None of the fragments is a chain of its own. -/
structure Parts.Flat (p : Parts) : Prop where
  base : ∀ e ∈ p.base, e.parts = [e]
  constraints : ∀ e ∈ p.constraints, e.Trails
  member : ∀ e ∈ p.member, e.Trails
  description : ∀ e ∈ p.description, e.Trails

theorem Parts.Flat.print_expr {p : Parts} (h : p.Flat) (names : NodeId → Text) (indent : Nat) :
    p.expr.print names indent = p.chained.print names indent := by
  have hflat : [p.base, p.constraints, p.member, p.description].flatten =
      p.base ++ p.constraints ++ p.member ++ p.description := by simp
  rw [Parts.expr, Parts.chained, print_ofParts ?_ names indent, hflat]
  intro e he
  simp only [hflat, List.mem_append] at he
  rcases he with ((he | he) | he) | he
  · exact h.base e he
  · exact (h.constraints e he).parts
  · exact (h.member e he).parts
  · exact (h.description e he).parts

namespace Builder
variable {b : Builder} {base : BaseOf}

theorem parts_refer (n : NodeId) : (b.refer n).parts = [b.refer n] := by
  unfold refer
  split <;> rfl

theorem Known.flat_fieldParts (h : b.Known base) {prop : Node} {type : Option Subject} {p : Parts}
    (hp : b.fieldParts base prop type = .ok p) : p.Flat := by
  cases type with
  | none => simp [fieldParts] at hp
  | some t =>
    cases ht : b.target? t with
    | some n =>
      rw [fieldParts_refer base prop ht] at hp
      obtain ⟨cs, hcs, hp⟩ := Result.bind_eq_ok.mp hp
      obtain ⟨member, hmember, hp⟩ := Result.bind_eq_ok.mp hp
      cases hp
      refine ⟨?_, fun e he => (narrows_of_mem_constraints hcs he).trails,
        fun e he => trails_of_mem_memberParts hmember he, fun e he => trails_of_mem_describe he⟩
      intro e he
      rw [List.mem_singleton.mp he, parts_refer]
    | none =>
      rw [fieldParts_inline base prop ht] at hp
      obtain ⟨bs, hbs, hp⟩ := Result.bind_eq_ok.mp hp
      obtain ⟨cs, hcs, hp⟩ := Result.bind_eq_ok.mp hp
      obtain ⟨member, hmember, hp⟩ := Result.bind_eq_ok.mp hp
      cases hp
      exact ⟨(h.opens hbs).parts, fun e he => (narrows_of_mem_constraints hcs he).trails,
        fun e he => trails_of_mem_memberParts hmember he, fun e he => trails_of_mem_describe he⟩

theorem Known.flat_inlineParts (h : b.Known base) {s : Subject} {p : Parts}
    (hp : b.inlineParts base s = .ok p) : p.Flat := by
  by_cases hkind : s.node.kind = .modelProperty
  · rw [inlineParts, if_pos (by simpa using hkind)] at hp
    exact h.flat_fieldParts hp
  · obtain ⟨bs, cs, hbs, hcs, rfl⟩ := inlineParts_eq_ok hkind hp
    exact ⟨(h.opens hbs).parts, fun e he => (narrows_of_mem_constraints hcs he).trails,
      by simp, fun e he => trails_of_mem_describe he⟩

end Builder

/-! ### Texts of chains -/

namespace Expr
variable (names : NodeId → Text)

theorem print_chain_cons_cons (e f : Expr) (es : List Expr) (indent : Nat) :
    ∃ t, (chain (e :: f :: es)).print names indent =
      e.print names indent ++ "." ++ (f.print names indent ++ t) := by
  have hjoin : ∀ u : Text, ∀ us : List Text, ∃ t, Text.join "." (u :: us) = u ++ t := by
    intro u us
    cases us with
    | nil => exact ⟨[], (List.append_nil u).symm⟩
    | cons v vs => exact ⟨"." ++ Text.join "." (v :: vs), by rw [Text.join, List.append_assoc]⟩
  obtain ⟨t, ht⟩ := hjoin (f.print names indent) (printAll names es indent)
  refine ⟨t, ?_⟩
  rw [print, printAll, printAll, Text.join, ht]

theorem print_of_stepName? {e : Expr} {name : Text} (h : e.stepName? = some name) (indent : Nat) :
    ∃ t, e.print names indent = name ++ t := by
  cases e with
  | ident n =>
    cases h
    exact ⟨[], (List.append_nil _).symm⟩
  | call n args =>
    cases h
    rw [print]
    split
    · exact ⟨_, rfl⟩
    · exact ⟨_, rfl⟩
  | _ => cases h

/-- A chain that starts like a base schema: no reference and nothing deferred. -/
theorem Opens.print {es : List Expr} (h : Opens es) (rest : List Expr) (indent : Nat) :
    ∃ start name t : Text, (start = "z" ∨ ∃ a, start = names a) ∧
      name ∈ Text.ofString "merge" :: libraryNames ∧
      (chain (es ++ rest)).print names indent = start ++ "." ++ (name ++ t) := by
  cases h with
  | @library name e es hname hmem _ =>
    obtain ⟨t, ht⟩ := print_chain_cons_cons names z e (es ++ rest) indent
    obtain ⟨u, hu⟩ := print_of_stepName? names hname indent
    refine ⟨"z", name, u ++ t, .inl rfl, List.mem_cons_of_mem _ hmem, ?_⟩
    rw [List.cons_append, List.cons_append, ht, hu, List.append_assoc name]
    rfl
  | merged a arg =>
    obtain ⟨t, ht⟩ := print_chain_cons_cons names (.ref a) (.call "merge" [arg]) rest indent
    obtain ⟨u, hu⟩ := print_of_stepName? names (e := .call "merge" [arg]) rfl indent
    refine ⟨names a, Text.ofString "merge", u ++ t, .inr ⟨a, rfl⟩, List.mem_cons_self, ?_⟩
    rw [List.cons_append, List.cons_append, List.nil_append, ht, hu, List.append_assoc _ u t]
    rfl

end Expr

/-- Names that may stand in a chain. -/
def Undotted (names : NodeId → Text) : Prop := ∀ n, (names n).hasChar '.' = false

theorem Text.ne_dot {t : Text} (h : t.hasChar '.' = false) :
    ∀ r ∈ t, (r != Rune.char '.') = true := by
  intro r hr
  rw [bne_iff_ne]
  rintro rfl
  rw [hasChar, List.contains_iff_mem.mpr hr] at h
  cases h

theorem Text.dropWhile_dot {t : Text} (h : t.hasChar '.' = false) (u : Text) :
    (t ++ "." ++ u : Text).dropWhile (· != .char '.') = .char '.' :: u := by
  rw [List.append_assoc, List.dropWhile_append_of_pos (Text.ne_dot h)]
  rfl

/-- A chain that starts like a base schema does not read like the reference to a declaration. -/
theorem Expr.Opens.print_ne_refer {names : NodeId → Text} (hnames : Undotted names)
    {es : List Expr} (h : Opens es) (rest : List Expr) (b : Builder) (n : NodeId) (indent : Nat) :
    (chain (es ++ rest)).print names indent ≠ (b.refer n).print names indent := by
  obtain ⟨start, name, t, hstart, hname, htext⟩ := h.print names rest indent
  have hundotted : start.hasChar '.' = false := by
    rcases hstart with rfl | ⟨a, rfl⟩
    · decide
    · exact hnames a
  intro heq
  have hdrop := congrArg (List.dropWhile (· != Rune.char '.')) heq
  rw [htext, Text.dropWhile_dot hundotted] at hdrop
  unfold Builder.refer at hdrop
  split at hdrop
  · -- behind the dot stands the name, and not a deferred reference
    have hlazy : (lazy n).print names indent =
        Text.ofString "z" ++ "." ++ ("lazy(() => " ++ names n ++ ")" : Text) := rfl
    rw [hlazy, Text.dropWhile_dot (by decide)] at hdrop
    have hletters : ∀ name ∈ Text.ofString "merge" :: libraryNames,
        2 ≤ name.length ∧ name.take 2 ≠ Text.ofString "la" := by decide
    obtain ⟨hlength, hne⟩ := hletters name hname
    have htake := congrArg (List.take 2) (List.cons.inj hdrop).2
    rw [List.take_append_of_le_length hlength] at htake
    exact hne htake
  · have hnone : ((ref n).print names indent).dropWhile (· != Rune.char '.') = [] :=
      List.dropWhile_eq_nil_iff.mpr (Text.ne_dot (hnames n))
    rw [hnone] at hdrop
    cases hdrop

/-! ### Sites -/

/-- The default is shorter than the node written out: a reference, or the value of a member. -/
def Site.Abbreviates (b : Builder) : Site → Prop
  | use s => (b.target? s).isSome
  | member _ => True
  | _ => False

namespace Builder
variable {b : Builder} {base : BaseOf}

theorem kind_of_target? {s : Subject} {n : NodeId} (h : b.target? s = some n) :
    s.node.kind ≠ .modelProperty := by
  intro hkind
  unfold target? at h
  split at h
  · rename_i href
    simp [isReferenced, Node.isDeclaration, hkind] at href
  · cases h

/-- Where the default is no abbreviation, it is made of the fragments; without them there is
none. -/
theorem default_of_not_abbreviates {site : Site} (h : ¬ site.Abbreviates b) :
    (site.context b base).default () = ((site.context b base).parts ()).map Parts.expr := by
  cases site with
  | declaration s => rfl
  | use s =>
    have hnone : b.target? s = none := by simpa [Site.Abbreviates] using h
    simp only [Site.context, hnone]
    rfl
  | property prop type => rfl
  | type prop t => rfl
  | member s => exact absurd trivial h

theorem Known.flat (h : b.Known base) {site : Site} {p : Parts}
    (hp : (site.context b base).parts () = .ok p) : p.Flat := by
  cases site with
  | declaration s => exact h.flat_inlineParts hp
  | use s => exact h.flat_inlineParts hp
  | property prop type => exact h.flat_fieldParts hp
  | type prop t =>
    have hfield : b.fieldParts base prop.node (some t) = .ok p := hp
    exact h.flat_fieldParts hfield
  | member s => exact h.flat_inlineParts hp

/-- The fragments of an enum member are longer than its value. -/
theorem Known.print_member_ne (h : b.Known base) {s : Subject} (hkind : s.node.kind = .enumMember)
    {p : Parts} (hp : b.inlineParts base s = .ok p) (names : NodeId → Text) (indent : Nat) :
    p.chained.print names indent ≠ (ofMember s.node.name s.node.literal).print names indent := by
  obtain ⟨bs, cs, hbs, _, rfl⟩ := inlineParts_eq_ok (by simp [hkind]) hp
  obtain ⟨fuel, expanding, rfl⟩ := h
  obtain ⟨_, _, hstep⟩ := baseStep_of_baseSchema hbs
  simp only [baseStep, hkind] at hstep
  cases hstep
  obtain ⟨t, ht⟩ := print_chain_cons_cons names z
    (.call "literal" [ofMember s.node.name s.node.literal])
    (cs ++ [] ++ describe (b.describedBy s)) indent
  have hchained : Parts.chained
      { base := fromZ [.call "literal" [ofMember s.node.name s.node.literal]], constraints := cs
        description := describe (b.describedBy s) } =
      .chain (z :: .call "literal" [ofMember s.node.name s.node.literal] ::
        (cs ++ [] ++ describe (b.describedBy s))) := rfl
  have hcall : (call "literal" [ofMember s.node.name s.node.literal]).print names indent =
      Text.ofString "literal" ++ inlineItems "(" ")"
        [(ofMember s.node.name s.node.literal).print names indent] := by
    rw [print, needsLines]
    simp [printAll]
  intro heq
  have hlength := congrArg List.length heq
  rw [hchained, ht, hcall] at hlength
  simp only [inlineItems, Text.join, List.length_append] at hlength
  have hdot : (Text.ofString ".").length = 1 := rfl
  omega

/-- Chained again, the fragments read like the default unless the default abbreviates them. -/
theorem Known.print_chained_iff (h : b.Known base) {site : Site} (hsite : b.Meets site) {p : Parts}
    (hp : (site.context b base).parts () = .ok p) :
    ∃ e, (site.context b base).default () = .ok e ∧ ∀ names, Undotted names → ∀ indent,
      (p.chained.print names indent = e.print names indent ↔ ¬ site.Abbreviates b) := by
  by_cases habbreviates : site.Abbreviates b
  · have hnot : ∀ c : Prop, (¬ c) → (c ↔ ¬ site.Abbreviates b) :=
      fun c hc => ⟨fun h => absurd h hc, fun h => absurd habbreviates h⟩
    cases site with
    | use s =>
      obtain ⟨n, hn⟩ := Option.isSome_iff_exists.mp habbreviates
      obtain ⟨bs, cs, hbs, _, rfl⟩ := inlineParts_eq_ok (kind_of_target? hn) hp
      refine ⟨b.refer n, ?_, ?_⟩
      · simp only [Site.context, hn]
      · intro names hnames indent
        apply hnot
        have hne :=
          (h.opens hbs).print_ne_refer hnames (cs ++ describe (b.describedBy s)) b n indent
        simpa [Parts.chained] using hne
    | member s =>
      refine ⟨_, rfl, ?_⟩
      intro names _ indent
      apply hnot
      exact h.print_member_ne hsite.2 hp names indent
    | _ => exact absurd habbreviates id
  · refine ⟨p.expr, ?_, ?_⟩
    · rw [default_of_not_abbreviates habbreviates, hp]
      rfl
    · intro names _ indent
      rw [(h.flat hp).print_expr names indent]
      exact iff_of_true rfl habbreviates

end Builder

/-! ### Calls -/

/-- Override functions are called at sites only, and the fragments they are offered there read,
chained again, like the default unless the default abbreviates them. -/
theorem calls_print_chained_iff {g : Graph} (hg : g.Linked) (r : Registry) :
    (∀ f : Emit → Emit, (∀ c : r.Call g, f c.emit c.context = c.emit c.context) →
      plan g (r.mapEmits f) = plan g r) ∧
    ∀ (c : r.Call g) (p : Parts), c.context.parts () = .ok p →
      ∃ e, c.context.default () = .ok e ∧ ∀ names, Undotted names → ∀ indent,
        (p.chained.print names indent = e.print names indent ↔ ¬ c.site.Abbreviates c.builder) :=
  ⟨fun _ hf => plan_mapEmits hg hf, fun c _ hp => c.known.print_chained_iff c.meets hp⟩

/-- Writes the fragments of the default. -/
def Override.chaining : Override where
  declare := some fun c => (c.parts ()).map Parts.chained
  reference := some fun c => (c.parts ()).map Parts.chained

def chainingModels : Registry := ({} : Registry).forKind .model .chaining

theorem chainingModels_emit? {g : Graph} (pending : List NodeId) {n : NodeId}
    (hkind : (g.node n).kind = .model) : ∃ emit,
    (Site.declaration (g.subject n)).emit?
      { graph := g, registry := chainingModels, pending } = some emit ∧
    (Site.use (g.subject n)).emit?
      { graph := g, registry := chainingModels, pending } = some emit := by
  have hfound : chainingModels.find? g (g.subject n) = some .chaining := by
    simp [Registry.find?, chainingModels, Registry.forKind, Registry.atNode?, Graph.subject, hkind]
  exact ⟨_, by rw [Site.emit?, Builder.override?, hfound]; rfl,
    by rw [Site.emit?, Builder.override?, hfound]; rfl⟩

set_option maxRecDepth 100000 in
theorem calls_print_chained_iff_petShop : ∃ g, Graph.link petShop = .ok g ∧
    ∃ (c : chainingModels.Call g) (p : Parts) (e : Expr), c.context.parts () = .ok p ∧
      c.context.default () = .ok e ∧
      ∀ names, Undotted names → p.chained.print names 0 = e.print names 0 := by
  -- the declaration of the model at 30
  have hrun : (Graph.link petShop >>= fun g =>
      let b : Builder := { graph := g, registry := chainingModels }
      (b.inlineParts b.base (g.subject 30)).map fun _ => decide ((g.node 30).kind = .model)) =
      .ok true := by
    decide +kernel
  obtain ⟨g, hg, hrun⟩ := Result.bind_eq_ok.mp hrun
  obtain ⟨p, hp, hkind⟩ := Result.map_eq_ok.mp hrun
  have hlinked := Graph.linked_of_link hg
  obtain ⟨emit, hfound, _⟩ := chainingModels_emit? [] (of_decide_eq_true hkind)
  have hmeets : Builder.Enumerates { graph := g, registry := chainingModels } (g.subject 30) :=
    Builder.enumerates_subject hlinked.toFit 30
  let c : chainingModels.Call g :=
    { pending := [], base := _, known := Builder.known_base, site := .declaration (g.subject 30)
      meets := hmeets, emit, found := hfound }
  obtain ⟨e, he, hall⟩ := (calls_print_chained_iff hlinked chainingModels).2 c p hp
  refine ⟨g, hg, c, p, e, hp, he, ?_⟩
  intro names hnames
  exact (hall names hnames 0).mpr id

set_option maxRecDepth 100000 in
/-- Where a pet is written inside an array, the fragments are the object and the default is the
reference. -/
theorem petShop_chained_ne_default : ∃ g, Graph.link petShop = .ok g ∧
    (∃ (c : chainingModels.Call g) (p : Parts) (e : Expr), c.context.parts () = .ok p ∧
      c.context.default () = .ok e ∧ p.chained.print g.nameOf 0 ≠ e.print g.nameOf 0) ∧
    ∃ ds ds', plan g chainingModels = .ok ds ∧ plan g Registry.passing = .ok ds' ∧
      ds.map (fun d => d.expr.print g.nameOf 0) ≠ ds'.map (fun d => d.expr.print g.nameOf 0) := by
  have hrun : (Graph.link petShop >>= fun g => do
      let b : Builder := { graph := g, registry := chainingModels }
      let p ← b.inlineParts b.base (g.subject 30)
      let ds ← plan g chainingModels
      let ds' ← plan g Registry.passing
      .ok (decide ((g.node 30).kind = .model ∧ b.target? (g.subject 30) = some 30 ∧
        p.chained.print g.nameOf 0 ≠ (b.refer 30).print g.nameOf 0 ∧
        ds.map (fun d => d.expr.print g.nameOf 0) ≠
          ds'.map (fun d => d.expr.print g.nameOf 0)))) = .ok true := by
    decide +kernel
  obtain ⟨g, hg, hrun⟩ := Result.bind_eq_ok.mp hrun
  obtain ⟨p, hp, hrun⟩ := Result.bind_eq_ok.mp hrun
  obtain ⟨ds, hds, hrun⟩ := Result.bind_eq_ok.mp hrun
  obtain ⟨ds', hds', hrun⟩ := Result.bind_eq_ok.mp hrun
  obtain ⟨hkind, htarget, hcall, htexts⟩ := of_decide_eq_true (Except.ok.inj hrun)
  have hlinked := Graph.linked_of_link hg
  obtain ⟨emit, _, hfound⟩ := chainingModels_emit? [] hkind
  have hmeets : Builder.Enumerates { graph := g, registry := chainingModels } (g.subject 30) :=
    Builder.enumerates_subject hlinked.toFit 30
  let c : chainingModels.Call g :=
    { pending := [], base := _, known := Builder.known_base, site := .use (g.subject 30)
      meets := hmeets, emit, found := hfound }
  have hdefault : c.context.default () = .ok (Builder.refer { graph := g } 30) := by
    simp only [Registry.Call.context, Site.context, c, Registry.Call.builder, htarget]
    rfl
  exact ⟨g, hg, ⟨c, p, _, hp, hdefault, hcall⟩, ds, ds', hds, hds', htexts⟩

end SchemaLoom

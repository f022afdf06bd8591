import Mathlib.Logic.Relation
import SchemaLoom.Proofs.Linked
import SchemaLoom.Proofs.PropertyLists

/-!
# Linking, one change at a time

From the declared names to the linked graph there are only three kinds of change: a node is
appended, a declaration is filled in, and a declared model takes over the shape of another.
What holds of the names and is kept by every change holds of the linked graph; so a fact about
all nodes of linked graphs needs one case for each change, and no induction over types.

A change says what is written and by which part of the document. Which node a name or a type
stands for is not said: that depends on the graph as a whole.
-/

namespace SchemaLoom

set_option autoImplicit false

/-- A node that is appended for a type, a variant or a member of an enum. `Q` holds of the lists
of properties. -/
inductive Node.Appended (Q : List Property → Prop) (g : Graph) : Node → Prop
  | array (elem : NodeId) : Appended Q g (Graph.arrayNode elem)
  | record (value : NodeId) : Appended Q g (Graph.recordNode value)
  | literal {kind : Kind} (v : Value) : kind = .string ∨ kind = .number ∨ kind = .boolean →
      Appended Q g { kind, literal := some v }
  | variant (name : Text) (t : NodeId) :
      Appended Q g { kind := .unionVariant, name, type := some t }
  | union (variants : List NodeId) : Appended Q g { kind := .union, variants }
  | tuple (elements : List NodeId) : Appended Q g { kind := .tuple, elements }
  | model {ps : List Property} {properties : List NodeId} : Q ps →
      (∀ p ∈ properties, p < g.nodes.size) → properties.map g.nameOf = ps.map (·.name) →
      Appended Q g { kind := .model, properties }
  | property {ps : List Property} {p : Property} (t : NodeId) : Q ps → p ∈ ps →
      Appended Q g (Graph.propertyNode p t)
  | member (parent : NodeId) (m : MemberDecl) : Appended Q g
      { kind := .enumMember, name := m.name, parent := some parent, literal := m.value }

namespace Graph

inductive Append (Q : List Property → Prop) (g : Graph) : Graph → Prop
  | intro {n : Node} : n.Appended Q g → Append Q g (g.push n).2

/-- Nodes are appended, one after the other. -/
abbrev Appends (Q : List Property → Prop) : Graph → Graph → Prop :=
  Relation.ReflTransGen (Append Q)

/-- What linking a document does to a graph at a time. -/
inductive Change (d : Document) (g : Graph) : Graph → Prop
  | append {h : Graph} : Append d.Lists g h → Change d g h
  | scalar {i : NodeId} {s : ScalarDecl} (base : Option NodeId) {encoding : Option Encoding} :
      i ∈ g.declarations → s ∈ d.scalars →
      (∀ e, encoding = some e → ∃ t, e.type = some t ∧ t < g.nodes.size) →
      Change d g (g.modify i fun n => { n with decorators := s.decorators, base, encoding })
  | enum {i : NodeId} (doc : String) (members : List NodeId) : i ∈ g.declarations →
      Change d g (g.modify i fun n => { n with members, decorators := { doc } })
  | model {i : NodeId} {m : ModelDecl} (base : Option NodeId) (properties : List NodeId) :
      i ∈ g.declarations → m ∈ d.models →
      Change d g (g.modify i fun n => { n with decorators := m.decorators, base, properties })
  | union {i : NodeId} (doc : String) {discriminator : Option Discriminator}
      {variants : List NodeId} : i ∈ g.declarations → checkEnvelope discriminator = .ok () →
      (discriminator.isSome → ∀ v ∈ variants, v < g.nodes.size ∧ (g.node v).name ≠ []) →
      Change d g (g.modify i fun n =>
        { n with decorators := { doc }, discriminator, variants })
  | copy {n : NodeId} (src : NodeId) : n ∈ g.declarations → Change d g (g.copyShape n src)

/-- What linking a document does to a graph, all in all. -/
abbrev Changes (d : Document) : Graph → Graph → Prop := Relation.ReflTransGen (Change d)

/-- What every change keeps is kept all the way. -/
theorem Changes.preserves {d : Document} {P : Graph → Prop} {g h : Graph} (hgh : Changes d g h)
    (hstep : ∀ g h, P g → Change d g h → P h) (hg : P g) : P h := by
  induction hgh with
  | refl => exact hg
  | tail _ hchange ih => exact hstep _ _ ih hchange

/-! ### Appending -/

section Append
variable {Q : List Property → Prop} {g h : Graph}

theorem Append.grows (hgh : Append Q g h) : g.Grows h := by
  cases hgh with
  | intro _ => exact .push g _

theorem Appends.grows (hgh : Appends Q g h) : g.Grows h := by
  induction hgh with
  | refl => exact .refl g
  | tail _ hnext ih => exact ih.trans hnext.grows

theorem Appends.push (hgh : Appends Q g h) {n : Node} (hn : n.Appended Q h) :
    Appends Q g (h.push n).2 := hgh.tail (.intro hn)

theorem Appends.changes {d : Document} (hgh : Appends d.Lists g h) : Changes d g h :=
  hgh.lift id fun _ _ => .append

theorem pushVariants_appends (g : Graph) (types : List NodeId) :
    Appends Q g (g.pushVariants types).2 := by
  induction types generalizing g with
  | nil => exact .refl
  | cons t ts ih => exact .head (.intro (.variant [] t)) (ih _)

theorem pushMembers_appends (g : Graph) (parent : NodeId) (ms : List MemberDecl) :
    Appends Q g (g.pushMembers parent ms).2 := by
  induction ms generalizing g with
  | nil => exact .refl
  | cons m ms ih => exact .head (.intro (.member parent m)) (ih _)

/-- `Q` holds of the lists that a type is written with. -/
def Within (Q : List Property → Prop) (t : TypeRef) : Prop := ∀ ps, t.Lists ps → Q ps

/-- A property of such a list, whose type is written with such lists. -/
def Owned (Q : List Property → Prop) (p : Property) : Prop :=
  (∃ ps, Q ps ∧ p ∈ ps) ∧ Within Q p.type

/-- Nodes are appended for properties, and they bear their names. -/
structure Properties (Q : List Property → Prop) (g : Graph) (ps : List Property)
    (r : List NodeId × Graph) : Prop where
  appends : Appends Q g r.2
  lt : ∀ i ∈ r.1, i < r.2.nodes.size
  names : r.1.map r.2.nameOf = ps.map (·.name)

theorem Properties.cons {p : Property} {ps : List Property} {i : NodeId} {is : List NodeId}
    {k : Graph} (hgh : Appends Q g h) (hi : i < h.nodes.size) (hname : h.nameOf i = p.name)
    (hps : Properties Q h ps (is, k)) : Properties Q g (p :: ps) (i :: is, k) where
  appends := hgh.trans hps.appends
  lt := by
    intro j hj
    rcases List.mem_cons.mp hj with rfl | hj
    · exact Nat.lt_of_lt_of_le hi hps.appends.grows.size_le
    · exact hps.lt j hj
  names := by
    rw [List.map_cons, List.map_cons, hps.names, ← hname]
    exact congrArg (· :: _) (hps.appends.grows.name i hi)

theorem resolve_appends_all (Q : List Property → Prop) :
    (∀ (g : Graph) t, Within Q t → ∀ r : NodeId × Graph, g.resolve t = .ok r →
      Appends Q g r.2) ∧
    (∀ (g : Graph) ps, (∀ p ∈ ps, Owned Q p) → ∀ r, g.linkProperties ps = .ok r →
      Properties Q g ps r) ∧
    (∀ (g : Graph) p, Owned Q p → ∀ r : NodeId × Graph, g.linkProperty p = .ok r →
      Appends Q g r.2 ∧ r.1 < r.2.nodes.size ∧ r.2.nameOf r.1 = p.name) ∧
    (∀ (g : Graph) ts, (∀ t ∈ ts, Within Q t) → ∀ r : List NodeId × Graph,
      g.resolveAll ts = .ok r → Appends Q g r.2) := by
  apply resolve.mutual_induct
  · intro g name array record literal union tuple object member hname _ r h
    rw [resolve.eq_def] at h
    simp only [if_pos hname] at h
    obtain ⟨i, _, rfl⟩ := Result.map_eq_ok.mp h
    exact .refl
  · intro g name record literal union tuple object member hname t ih ht r h
    rw [resolve, if_neg hname] at h
    obtain ⟨⟨elem, k⟩, hk, h⟩ := Result.bind_eq_ok.mp h
    cases h
    exact .push (ih (fun ps hps => ht ps (.array rfl hps)) _ hk) (.array elem)
  · intro g name literal union tuple object member hname t ih ht r h
    rw [resolve, if_neg hname] at h
    obtain ⟨⟨value, k⟩, hk, h⟩ := Result.bind_eq_ok.mp h
    cases h
    exact .push (ih (fun ps hps => ht ps (.record rfl hps)) _ hk) (.record value)
  · intro g name union tuple object member hname v _ r h
    rw [resolve, if_neg hname] at h
    obtain ⟨n, hn, rfl⟩ := Result.map_eq_ok.mp h
    obtain ⟨_, kind, hkind, rfl⟩ := literalNode_eq_ok hn
    exact .push .refl (.literal v hkind)
  · intro g name tuple object member hname ts ih ht r h
    rw [resolve, if_neg hname] at h
    obtain ⟨⟨types, k⟩, hk, h⟩ := Result.bind_eq_ok.mp h
    cases h
    have hts := ih (fun u hu ps hps => ht ps (.union rfl hu hps)) _ hk
    exact .push (hts.trans (pushVariants_appends k types)) (.union _)
  · intro g name object member hname ts ih ht r h
    rw [resolve, if_neg hname] at h
    obtain ⟨⟨elements, k⟩, hk, h⟩ := Result.bind_eq_ok.mp h
    cases h
    exact .push (ih (fun u hu ps hps => ht ps (.tuple rfl hu hps)) _ hk) (.tuple elements)
  · intro g name member hname ps ih ht r h
    rw [resolve, if_neg hname] at h
    obtain ⟨⟨properties, k⟩, hk, h⟩ := Result.bind_eq_ok.mp h
    cases h
    have hown : Q ps := ht ps (.own rfl)
    have hps := ih (fun p hp => ⟨⟨ps, hown, hp⟩, fun qs hqs => ht qs (.object rfl hp hqs)⟩) _ hk
    exact .push hps.appends (.model hown hps.lt hps.names)
  · intro g name member hname hmember _ r h
    rw [resolve, if_neg hname] at h
    simp only [if_pos hmember] at h
    obtain ⟨i, _, rfl⟩ := Result.map_eq_ok.mp h
    exact .refl
  · intro g name member hname hmember _ r h
    rw [resolve, if_neg hname] at h
    simp only [if_neg hmember] at h
    exact absurd h Result.fail_ne_ok
  · intro g name type optional default decorators ih hp r h
    rw [linkProperty] at h
    obtain ⟨⟨t, k⟩, hk, h⟩ := Result.bind_eq_ok.mp h
    cases h
    obtain ⟨⟨ps, hps, hmem⟩, htype⟩ := hp
    have hk := ih htype _ (Result.within_eq_ok.mp hk)
    exact ⟨.push hk (.property t hps hmem), by simp, by simp [nameOf, propertyNode]⟩
  · intro g _ r h
    cases h
    exact .refl
  · intro g t ts iht ihts hts r h
    rw [resolveAll] at h
    obtain ⟨⟨n, k⟩, hn, h⟩ := Result.bind_eq_ok.mp h
    obtain ⟨⟨ns, l⟩, hns, h⟩ := Result.bind_eq_ok.mp h
    cases h
    exact (iht (hts t List.mem_cons_self) _ hn).trans
      (ihts k (fun u hu => hts u (List.mem_cons_of_mem t hu)) (ns, l) hns)
  · intro g _ r h
    cases h
    exact ⟨.refl, by simp, rfl⟩
  · intro g p ps ihp ihps hps r h
    rw [linkProperties] at h
    obtain ⟨⟨n, k⟩, hn, h⟩ := Result.bind_eq_ok.mp h
    obtain ⟨⟨ns, l⟩, hns, h⟩ := Result.bind_eq_ok.mp h
    cases h
    obtain ⟨hk, hlt, hname⟩ := ihp (hps p List.mem_cons_self) _ hn
    exact .cons hk hlt hname (ihps k (fun q hq => hps q (List.mem_cons_of_mem p hq)) _ hns)

theorem resolve_appends {t : TypeRef} (ht : Within Q t) {r : NodeId × Graph}
    (h : g.resolve t = .ok r) : Appends Q g r.2 := (resolve_appends_all Q).1 g t ht r h

theorem resolveAll_appends {ts : List TypeRef} (hts : ∀ t ∈ ts, Within Q t)
    {r : List NodeId × Graph} (h : g.resolveAll ts = .ok r) : Appends Q g r.2 :=
  (resolve_appends_all Q).2.2.2 g ts hts r h

theorem linkProperties_appends {ps : List Property} (hps : ∀ p ∈ ps, Owned Q p)
    {r : List NodeId × Graph} (h : g.linkProperties ps = .ok r) : Appends Q g r.2 :=
  ((resolve_appends_all Q).2.1 g ps hps r h).appends

theorem modelBase_appends {t : Option TypeRef} (ht : ∀ u ∈ t, Within Q u) {base : Option NodeId}
    (hok : g.modelBase t = .ok (base, h)) : Appends Q g h := by
  cases t with
  | none =>
    cases hok
    exact .refl
  | some t =>
    rw [modelBase] at hok
    obtain ⟨⟨b, k⟩, hb, hok⟩ := Result.bind_eq_ok.mp hok
    have hk := resolve_appends (ht t rfl) (Result.within_eq_ok.mp hb)
    dsimp only at hok
    split at hok
    · cases hok
      exact hk
    · simp at hok

theorem linkVariants_appends {tagged : Bool} {i : Nat} {vs : List VariantDecl}
    (hvs : ∀ v ∈ vs, Within Q v.type) {r : List NodeId × Graph}
    (hok : g.linkVariants tagged i vs = .ok r) : Appends Q g r.2 ∧
      (tagged = true → ∀ v ∈ r.1, v < r.2.nodes.size ∧ (r.2.node v).name ≠ []) := by
  induction vs generalizing g i r with
  | nil =>
    cases hok
    exact ⟨.refl, by simp⟩
  | cons v vs ih =>
    rw [linkVariants] at hok
    obtain ⟨⟨t, k⟩, ht, hok⟩ := Result.bind_eq_ok.mp hok
    have hk := resolve_appends (hvs v List.mem_cons_self) (Result.within_eq_ok.mp ht)
    dsimp only at hok
    split at hok
    · simp at hok
    · rename_i hnamed
      obtain ⟨⟨ns, l⟩, hns, hok⟩ := Result.bind_eq_ok.mp hok
      cases hok
      obtain ⟨hl, hrest⟩ := ih (r := (ns, l)) (fun w hw => hvs w (List.mem_cons_of_mem v hw)) hns
      refine ⟨(hk.push (.variant v.name t)).trans hl, ?_⟩
      intro htagged w hw
      rcases List.mem_cons.mp hw with rfl | hw
      · -- the variant that was appended just now keeps its name through the others
        have hsize := hl.grows.size_le
        rw [size_push] at hsize
        refine ⟨hsize, ?_⟩
        rw [push_fst, hl.grows.name _ (by simp), node_push_self]
        simpa [htagged] using hnamed
      · exact hrest htagged w hw

end Append

/-! ### Changing -/

section Change
variable {d : Document} {g h : Graph}

theorem Change.grows (hgh : Change d g h) : g.Grows h := by
  cases hgh with
  | append hgh => exact hgh.grows
  | copy src _ => exact grows_copyShape g _ src
  | _ => exact .modify g _ (fun _ => rfl) fun _ => rfl

theorem Changes.grows (hgh : Changes d g h) : g.Grows h := by
  induction hgh with
  | refl => exact .refl g
  | tail _ hchange ih => exact ih.trans hchange.grows

/-- A name of the document stands for a declaration all along. -/
theorem Grows.declared_mem (hg : (ofNames d).Grows g) {name : Text} (hname : name ∈ d.names) :
    g.declared name ∈ g.declarations := by
  have hsome : (g.declaration? name).isSome = true := by
    rw [hg.declaration? (kept_ofNames d), isSome_declaration?, names_ofNames]
    exact hname
  obtain ⟨i, hi⟩ := Option.isSome_iff_exists.mp hsome
  rw [declared, hi]
  exact (mem_of_declaration? hi).1

theorem scalarEncoding_type (hg : g.Fit) {decl : Option EncodingDecl} {encoding : Option Encoding}
    (hok : g.scalarEncoding decl = .ok encoding) :
    ∀ e, encoding = some e → ∃ t, e.type = some t ∧ t < g.nodes.size := by
  cases decl with
  | none =>
    cases hok
    simp
  | some decl =>
    rw [scalarEncoding] at hok
    obtain ⟨t, ht, hok⟩ := Result.bind_eq_ok.mp hok
    cases hok
    intro e he
    cases he
    exact ⟨t, rfl, (resolveName_made hg (Result.within_eq_ok.mp ht)).lt⟩

theorem linkScalar_changes (hg : Linking d g) {s : ScalarDecl} (hs : s ∈ d.scalars)
    (hok : g.linkScalar s = .ok h) : Changes d g h := by
  obtain ⟨base, _, hok⟩ := Result.bind_eq_ok.mp (Result.within_eq_ok.mp hok)
  obtain ⟨encoding, hencoding, hok⟩ := Result.bind_eq_ok.mp hok
  cases hok
  have hmem := hg.grows.declared_mem (mem_names_scalar hs)
  exact .single (.scalar base hmem hs (scalarEncoding_type hg.fit hencoding))

theorem linkEnum_changes (hg : Linking d g) {e : EnumDecl} (he : e ∈ d.enums) :
    Changes d g (g.linkEnum e) := by
  have hmembers := pushMembers_appends (Q := d.Lists) g (g.declared e.name) e.members
  have hmem := hg.grows.declared_mem (mem_names_enum he)
  rw [← hmembers.grows.declarations] at hmem
  exact hmembers.changes.tail (.enum e.doc _ hmem)

theorem linkModel_changes (hg : Linking d g) {m : ModelDecl} (hm : m ∈ d.models)
    (hok : g.linkModel m = .ok h) : Changes d g h := by
  obtain ⟨⟨base, k⟩, hbase, hok⟩ := Result.bind_eq_ok.mp (Result.within_eq_ok.mp hok)
  obtain ⟨⟨properties, l⟩, hproperties, hok⟩ := Result.bind_eq_ok.mp hok
  cases hok
  have hk : Appends d.Lists g k := modelBase_appends (fun t ht ps hps => .base hm ht hps) hbase
  have hl : Appends d.Lists k l := by
    refine linkProperties_appends (fun p hp => ⟨⟨m.properties, ?_, hp⟩, fun ps hps => ?_⟩)
      hproperties
    · exact .model hm rfl
    · exact .property hm hp hps
  have hgl : Appends d.Lists g l := hk.trans hl
  have hmem := (hg.grows.trans hgl.grows).declared_mem (mem_names_model hm)
  exact hgl.changes.tail (.model base properties hmem hm)

theorem linkUnion_changes (hg : Linking d g) {u : UnionDecl} (hu : u ∈ d.unions)
    (hok : g.linkUnion u = .ok h) : Changes d g h := by
  obtain ⟨_, henvelope, hok⟩ := Result.bind_eq_ok.mp (Result.within_eq_ok.mp hok)
  obtain ⟨⟨variants, k⟩, hvariants, hok⟩ := Result.bind_eq_ok.mp hok
  cases hok
  obtain ⟨hk, hnamed⟩ := linkVariants_appends (Q := d.Lists)
    (fun v hv ps hps => .variant hu hv hps) hvariants
  have hmem := (hg.grows.trans hk.grows).declared_mem (mem_names_union hu)
  exact hk.changes.tail (.union u.doc hmem henvelope hnamed)

theorem linkEnums_changes (hg : Linking d g) {es : List EnumDecl} (hes : ∀ e ∈ es, e ∈ d.enums) :
    Changes d g (es.foldl linkEnum g) := by
  induction es generalizing g with
  | nil => exact .refl
  | cons e es ih =>
    have he := hes e List.mem_cons_self
    exact (linkEnum_changes hg he).trans
      (ih (linkEnum_linking hg he) fun x hx => hes x (List.mem_cons_of_mem _ hx))

theorem linkBodies_changes (hg : Linking d g) (hok : g.linkBodies d = .ok h) : Changes d g h := by
  obtain ⟨a, ha, hok⟩ := Result.bind_eq_ok.mp hok
  obtain ⟨b, hb, hok⟩ := Result.bind_eq_ok.mp hok
  have hall : ∀ e ∈ d.enums, e ∈ d.enums := fun _ he => he
  have hscalars : Linking d a ∧ Changes d g a :=
    Result.foldlM_induction (P := fun k => Linking d k ∧ Changes d g k)
      (fun _ _ _ hs hk h => ⟨linkScalar_linking hk.1 hs h,
        hk.2.trans (linkScalar_changes hk.1 hs h)⟩) ⟨hg, .refl⟩ ha
  have hmodels : Linking d b ∧ Changes d g b :=
    Result.foldlM_induction (P := fun k => Linking d k ∧ Changes d g k)
      (fun _ _ _ hm hk h => ⟨linkModel_linking hk.1 hm h,
        hk.2.trans (linkModel_changes hk.1 hm h)⟩)
      ⟨linkEnums_linking hscalars.1 hall, hscalars.2.trans (linkEnums_changes hscalars.1 hall)⟩ hb
  have hunions : Linking d h ∧ Changes d g h :=
    Result.foldlM_induction (P := fun k => Linking d k ∧ Changes d g k)
      (fun _ _ _ hu hk h => ⟨linkUnion_linking hk.1 hu h,
        hk.2.trans (linkUnion_changes hk.1 hu h)⟩) hmodels hok
  exact hunions.2

/-- What is copied is a type of the document. -/
def Sourced (d : Document) (copies : Copies) : Prop :=
  ∀ c ∈ copies, ∃ m ∈ d.models, m.source = some c.2

theorem sourced_copiesOf (d : Document) (g : Graph) : Sourced d (g.copiesOf d.models) := by
  intro c hc
  obtain ⟨m, hm, hc⟩ := List.mem_filterMap.mp hc
  obtain ⟨t, ht, rfl⟩ := Option.map_eq_some_iff.mp hc
  exact ⟨m, hm, ht⟩

theorem expand_changes {fuel : Nat} {visiting : List NodeId} {copies : Copies} {n : NodeId}
    (hmem : ∀ c ∈ copies, c.1 ∈ g.declarations) (hsourced : Sourced d copies)
    {r : Graph × Copies} (hok : expand fuel visiting g copies n = .ok r) :
    Changes d g r.1 ∧ r.2 ⊆ copies := by
  induction fuel generalizing visiting g copies n r with
  | zero => simp [expand] at hok
  | succ fuel ih =>
    rw [expand] at hok
    split at hok
    · cases hok
      exact ⟨.refl, List.Subset.refl _⟩
    · rename_i source hlookup
      split at hok
      · simp at hok
      · obtain ⟨⟨src, k⟩, hsrc, hok⟩ := Result.bind_eq_ok.mp hok
        obtain ⟨m, hm, hms⟩ := hsourced _ (mem_of_lookup hlookup)
        have hk : Appends d.Lists g k :=
          resolve_appends (fun ps hps => .source hm hms hps) (Result.within_eq_ok.mp hsrc)
        dsimp only at hok
        split at hok
        · simp at hok
        · obtain ⟨⟨l, rest⟩, hrest, hok⟩ := Result.bind_eq_ok.mp hok
          cases hok
          obtain ⟨hl, hsub⟩ := ih (by rwa [hk.grows.declarations]) hsourced hrest
          have hgl : Changes d g l := hk.changes.trans hl
          have hn := hmem _ (mem_of_lookup hlookup)
          rw [← hgl.grows.declarations] at hn
          exact ⟨hgl.tail (.copy src hn), fun c hc => hsub (List.mem_of_mem_filter hc)⟩

theorem expandCopies_changes {copies : Copies} (hmem : ∀ c ∈ copies, c.1 ∈ g.declarations)
    (hsourced : Sourced d copies) (hok : g.expandCopies copies = .ok h) : Changes d g h := by
  obtain ⟨⟨k, rest⟩, hk, hok⟩ := Result.bind_eq_ok.mp hok
  cases hok
  have hrun : Changes d g h ∧ rest ⊆ copies := by
    refine Result.foldlM_induction (P := fun s : Graph × Copies => Changes d g s.1 ∧ s.2 ⊆ copies)
      ?_ ⟨.refl, List.Subset.refl _⟩ hk
    rintro ⟨k, cs⟩ n r _ ⟨hk, hcs⟩ hok
    have hk : Changes d g k := hk
    have hmem : ∀ c ∈ cs, c.1 ∈ k.declarations := by
      intro c hc
      rw [hk.grows.declarations]
      exact hmem c (hcs hc)
    obtain ⟨hr, hsub⟩ := expand_changes hmem (fun c hc => hsourced c (hcs hc))
      (Result.within_eq_ok.mp hok)
    exact ⟨hk.trans hr, List.Subset.trans hsub hcs⟩
  exact hrun.1

/-- Linking changes the graph of the names into the linked graph. -/
theorem changes_of_link (hok : link d = .ok g) : Changes d (ofNames d) g := by
  obtain ⟨b, hnames, hb, hbodies, hg, _, _⟩ := link_phases hok
  have hcopies := fun c hc => (copyable_copiesOf hbodies c hc).1
  exact (linkBodies_changes hnames hb).trans
    (expandCopies_changes hcopies (sourced_copiesOf d b) hg)

end Change

/-! ### The names -/

/-- A node that nothing has been linked into: a kind and a name, and the base of a built-in
scalar. -/
def Unlinked (i : NodeId) (n : Node) : Prop :=
  ∃ kind name builtIn base, n = { kind, name, builtIn, base } ∧ (base.isSome → kind = .scalar) ∧
    (builtIn = true → i < builtInNodes.length)

theorem unlinked_empty (i : NodeId) : Unlinked i (empty.node i) := by
  cases hnode : empty.node? i with
  | none =>
    rw [node, hnode]
    exact ⟨.unknown, [], false, none, rfl, by simp, by simp⟩
  | some n =>
    have hlt : i < builtInNodes.length := by simpa [empty] using lt_of_node? hnode
    rw [node_of_node? hnode]
    rcases node?_empty hnode with ⟨name, base, rfl, _⟩ | ⟨name, rfl, _⟩
    · exact ⟨.scalar, name, true, base, rfl, fun _ => rfl, fun _ => hlt⟩
    · exact ⟨.intrinsic, name, true, none, rfl, by simp, fun _ => hlt⟩

theorem unlinked_withNames {g : Graph} {i : NodeId} (hg : Unlinked i (g.node i)) (kind : Kind)
    (names : List Text) : Unlinked i ((g.withNames kind names).node i) := by
  by_cases hi : i < g.nodes.size
  · rw [node, node?_withNames_of_lt hi]
    exact hg
  · obtain ⟨j, rfl⟩ := Nat.exists_eq_add_of_le (Nat.le_of_not_lt hi)
    rw [node, node?_withNames_add]
    cases names[j]? with
    | none => exact ⟨.unknown, [], false, none, rfl, by simp, by simp⟩
    | some name => exact ⟨kind, name, false, none, rfl, by simp, by simp⟩

theorem unlinked_ofNames (d : Document) (i : NodeId) : Unlinked i ((ofNames d).node i) := by
  unfold ofNames
  apply unlinked_withNames
  apply unlinked_withNames
  apply unlinked_withNames
  apply unlinked_withNames
  exact unlinked_empty i

end Graph

end SchemaLoom

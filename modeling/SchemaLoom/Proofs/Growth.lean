import SchemaLoom.Proofs.Imported

/-!
# Documents only grow

An import never takes back or changes a declaration: what it adds stands behind what
is there. So the declaration of a definition in the finished document is the one that
was made when the definition was reached.

A declaration that is only met on the way, under a made-up name, is not followed here.
-/

namespace SchemaLoom

set_option autoImplicit false

/-- Declarations are added behind those that are there. -/
structure Document.Grows (d e : Document) : Prop where
  scalars : d.scalars <+: e.scalars
  models : d.models <+: e.models
  enums : d.enums <+: e.enums
  unions : d.unions <+: e.unions

namespace Document

def under (d : Document) (name : Text) : Document where
  scalars := d.scalars.filter (·.name = name)
  models := d.models.filter (·.name = name)
  enums := d.enums.filter (·.name = name)
  unions := d.unions.filter (·.name = name)

namespace Grows
variable {c d e : Document}

theorem refl (d : Document) : d.Grows d :=
  ⟨List.prefix_rfl, List.prefix_rfl, List.prefix_rfl, List.prefix_rfl⟩

theorem trans (hcd : c.Grows d) (hde : d.Grows e) : c.Grows e :=
  ⟨hcd.scalars.trans hde.scalars, hcd.models.trans hde.models, hcd.enums.trans hde.enums,
    hcd.unions.trans hde.unions⟩

end Grows

theorem filter_append_eq {α : Type} {name : α → Text} {xs ys : List α} {x : Text}
    (h : (ys.map fun y => name y).count x = 0) :
    (xs ++ ys).filter (name · = x) = xs.filter (name · = x) := by
  have hnone : ys.filter (name · = x) = [] := by
    apply List.filter_eq_nil_iff.mpr
    intro y hy hname
    apply List.count_eq_zero.mp h
    exact List.mem_map.mpr ⟨y, hy, by simpa using hname⟩
  rw [List.filter_append, hnone, List.append_nil]

/-- A name that is declared once for all keeps its declaration. -/
theorem Grows.under_eq {d e : Document} (h : d.Grows e) (he : e.names.Nodup) {x : Text}
    (hx : x ∈ d.names) : e.under x = d.under x := by
  obtain ⟨⟨ss, hs⟩, ⟨ms, hm⟩, ⟨ns, hn⟩, ⟨us, hu⟩⟩ := h
  obtain ⟨scalars, models, enums, unions⟩ := e
  dsimp only at hs hm hn hu
  subst hs hm hn hu
  have hd : 1 ≤ d.names.count x := List.one_le_count_iff.mpr hx
  have hone := List.nodup_iff_count_le_one.mp he x
  -- one occurrence is left in all, and the first document has it
  simp only [names, List.map_append, List.count_append] at hd hone
  simp only [under]
  congr 1 <;> apply filter_append_eq <;> omega

end Document

namespace Import

variable {α β : Type}

def Adds (m : Import α) : Prop := ∀ s a s', m s = .ok (a, s') → s.document.Grows s'.document

namespace Adds
variable {m : Import α}

theorem pure {a : α} : Adds (pure a) := by
  intro s b s' hok
  cases hok
  exact .refl _

theorem fail {c : Cause} : Adds (fail c : Import α) := by
  intro s b s' hok
  cases hok

theorem bind {f : α → Import β} (hm : Adds m) (hf : ∀ a, Adds (f a)) : Adds (m >>= f) := by
  intro s b s' hok
  obtain ⟨⟨a, t⟩, hat, hok⟩ := Result.bind_eq_ok.mp hok
  exact (hm s a t hat).trans (hf a t b s' hok)

theorem ite {c : Prop} [Decidable c] {n : Import α} (hm : Adds m) (hn : Adds n) :
    Adds (if c then m else n) := by
  by_cases hc : c
  · rwa [if_pos hc]
  · rwa [if_neg hc]

theorem within {position : Text} (hm : Adds m) : Adds (within position m) :=
  fun s a s' hok => hm s a s' (Result.within_eq_ok.mp hok)

theorem lift {r : Result α} : Adds (lift r) := by
  intro s a s' hok
  obtain ⟨_, _, heq⟩ := Result.map_eq_ok.mp hok
  cases heq
  exact .refl _

theorem mapM {f : α → Import β} {xs : List α} (hf : ∀ x, Adds (f x)) : Adds (xs.mapM f) := by
  induction xs with
  | nil => exact .pure
  | cons x xs ih =>
    rw [List.mapM_cons]
    exact .bind (hf x) fun _ => .bind ih fun _ => .pure

theorem forM {f : α → Import PUnit} {xs : List α} (hf : ∀ x, Adds (f x)) : Adds (xs.forM f) := by
  induction xs with
  | nil => exact .pure
  | cons x xs ih => exact .bind (hf x) fun _ => ih

theorem eachIndexed {f : Nat → Schema → Import β} {i : Nat} {xs : List Schema}
    (hf : ∀ i x, Adds (f i x)) : Adds (eachIndexed f i xs) := by
  rw [eachIndexed_eq_mapM]
  exact .mapM fun p => hf p.2 p.1

theorem unique {hint : Text} : Adds (unique hint) := by
  intro s a s' hok
  cases hok
  exact .refl _

end Adds

theorem addScalar_adds (d : ScalarDecl) : Adds (addScalar d) := by
  rintro s a s' ⟨⟩
  exact { Document.Grows.refl _ with scalars := List.prefix_append _ _ }

theorem addModel_adds (d : ModelDecl) : Adds (addModel d) := by
  rintro s a s' ⟨⟩
  exact { Document.Grows.refl _ with models := List.prefix_append _ _ }

theorem addEnum_adds (d : EnumDecl) : Adds (addEnum d) := by
  rintro s a s' ⟨⟩
  exact { Document.Grows.refl _ with enums := List.prefix_append _ _ }

theorem addUnion_adds (d : UnionDecl) : Adds (addUnion d) := by
  rintro s a s' ⟨⟩
  exact { Document.Grows.refl _ with unions := List.prefix_append _ _ }

theorem declareEnum_adds (name : Text) (s : Schema) : Adds (declareEnum name s) :=
  .bind .lift fun _ => .ite (addEnum_adds _) (addUnion_adds _)

theorem refType_adds (defs s : Schema) : Adds (refType defs s) := by
  unfold refType
  dsimp only
  split
  · exact .fail
  · exact .ite .pure .fail

theorem declareAlias_adds (defs : Schema) (name : Text) (s : Schema) :
    Adds (declareAlias defs name s) := by
  refine .bind (refType_adds defs s) ?_
  intro target
  dsimp only
  split
  · exact .fail
  · exact .fail
  · exact .ite (addModel_adds _) (.ite (addScalar_adds _) (addUnion_adds _))

/-- Every function of the importer only adds to the document. -/
structure AddsAll (defs : Schema) (fuel : Nat) : Prop where
  declare : ∀ name s, Adds (declare defs fuel name s)
  model : ∀ name s, Adds (model defs fuel name s)
  allParts : ∀ name parts base props, Adds (allParts defs fuel name parts base props)
  properties : ∀ owner s, Adds (properties defs fuel owner s)
  property : ∀ owner required key s, Adds (property defs fuel owner required key s)
  inlineRef : ∀ hint s, Adds (inlineRef defs fuel hint s)
  hoist : ∀ hint s, Adds (hoist defs fuel hint s)
  typeRef : ∀ hint s, Adds (typeRef defs fuel hint s)
  arrayRef : ∀ hint s, Adds (arrayRef defs fuel hint s)
  objectRef : ∀ hint s, Adds (objectRef defs fuel hint s)
  variants : ∀ hint s, Adds (variants defs fuel hint s)

namespace AddsAll
variable {defs : Schema} {fuel : Nat}

theorem declare_succ (h : AddsAll defs fuel) (name : Text) (s : Schema) :
    Adds (Import.declare defs (fuel + 1) name s) := by
  cases s with
  | null => exact .fail
  | node k cs =>
    refine .ite (declareAlias_adds _ _ _) (.ite (declareEnum_adds _ _) (.ite ?_ (.ite ?_ ?_)))
    · exact .bind (h.variants _ _) fun _ => addUnion_adds _
    · exact .bind (h.typeRef _ _) fun _ => .ite (addUnion_adds _) (addModel_adds _)
    · refine .ite (.bind (h.model _ _) fun _ => addModel_adds _) ?_
      exact .ite (addScalar_adds _) .fail

theorem model_succ (h : AddsAll defs fuel) (name : Text) (s : Schema) :
    Adds (Import.model defs (fuel + 1) name s) := by
  refine .bind (h.allParts _ _ _ _) fun _ => .bind (h.properties _ _) fun _ => ?_
  dsimp only
  split
  · exact .bind .pure fun _ => .pure
  · exact .bind (h.inlineRef _ _) fun _ => .bind .pure fun _ => .pure

theorem allParts_succ (h : AddsAll defs fuel) (name : Text) (parts : List Schema)
    (base : Option TypeRef) (props : List Property) :
    Adds (Import.allParts defs (fuel + 1) name parts base props) := by
  cases parts with
  | nil => exact .pure
  | cons part rest =>
    refine .ite .fail (.ite (.ite .fail ?_) (.ite ?_ .fail))
    · exact .bind (refType_adds _ _) fun _ => h.allParts _ _ _ _
    · exact .bind (h.properties _ _) fun _ => h.allParts _ _ _ _

theorem property_succ (h : AddsAll defs fuel) (owner : Text) (required : Bool) (key : String)
    (s : Schema) : Adds (Import.property defs (fuel + 1) owner required key s) := by
  refine .bind (.within (h.typeRef _ _)) fun _ => ?_
  dsimp only
  split
  · exact .bind .pure fun _ => .pure
  · exact .bind (.within .lift) fun _ => .bind .pure fun _ => .pure

theorem typeRef_succ (h : AddsAll defs fuel) (hint : Text) (s : Schema) :
    Adds (Import.typeRef defs (fuel + 1) hint s) := by
  cases s with
  | null => exact .fail
  | node k cs =>
    refine .ite (.bind (refType_adds _ _) fun _ => .pure) (.ite ?_ (.ite ?_ ?_))
    · refine .bind .lift fun _ => ?_
      split <;> exact .pure
    · refine .bind (h.variants _ _) fun _ => ?_
      split <;> exact .pure
    · split
      · exact .ite (.bind (h.hoist _ _) fun _ => .pure) (h.typeRef _ _)
      · exact .bind (h.hoist _ _) fun _ => .pure
      · exact .ite (h.arrayRef _ _) (.ite (h.objectRef _ _) .pure)

theorem arrayRef_succ (h : AddsAll defs fuel) (hint : Text) (s : Schema) :
    Adds (Import.arrayRef defs (fuel + 1) hint s) := by
  rw [Import.arrayRef]
  split
  · split
    · exact .bind .pure fun _ => .pure
    · exact .bind (h.inlineRef _ _) fun _ => .pure
  · exact .bind (.eachIndexed fun _ _ => h.inlineRef _ _) fun _ => .pure

theorem objectRef_succ (h : AddsAll defs fuel) (hint : Text) (s : Schema) :
    Adds (Import.objectRef defs (fuel + 1) hint s) := by
  rw [Import.objectRef]
  split
  · refine .ite (.bind (h.inlineRef _ _) fun _ => .pure) ?_
    exact .bind (h.hoist _ _) fun _ => .pure
  · exact .bind (h.properties _ _) fun _ => .pure

theorem variants_succ (h : AddsAll defs fuel) (hint : Text) (s : Schema) :
    Adds (Import.variants defs (fuel + 1) hint s) := by
  refine .bind (.eachIndexed fun _ _ => h.inlineRef _ _) fun _ => ?_
  exact .bind (.mapM fun _ => .ite .pure (h.inlineRef _ _)) fun _ => .pure

end AddsAll

theorem addsAll (defs : Schema) (fuel : Nat) : AddsAll defs fuel := by
  induction fuel with
  | zero => constructor <;> intros <;> exact .fail
  | succ fuel ih =>
    exact
      { declare := ih.declare_succ
        model := ih.model_succ
        allParts := ih.allParts_succ
        properties := fun _ _ => .mapM fun _ => ih.property _ _ _ _
        property := ih.property_succ
        inlineRef := fun _ _ => .bind (ih.typeRef _ _) fun _ => .ite .pure (ih.hoist _ _)
        hoist := fun _ _ => .bind .unique fun _ => .bind (ih.declare _ _) fun _ => .pure
        typeRef := ih.typeRef_succ
        arrayRef := ih.arrayRef_succ
        objectRef := ih.objectRef_succ
        variants := ih.variants_succ }

/-! ### Definitions -/

/-- A run over a list, taken apart at one of the elements. -/
theorem forM_at_eq_ok {f : α → Import PUnit} {before after : List α} {x : α} {s s' : Importing}
    (h : (before ++ x :: after).forM f s = .ok ((), s')) :
    ∃ t u, before.forM f s = .ok ((), t) ∧ f x t = .ok ((), u) ∧
      after.forM f u = .ok ((), s') := by
  induction before generalizing s with
  | nil =>
    obtain ⟨⟨_, u⟩, hu, h⟩ := Result.bind_eq_ok.mp h
    exact ⟨s, u, rfl, hu, h⟩
  | cons y before ih =>
    obtain ⟨⟨_, v⟩, hv, h⟩ := Result.bind_eq_ok.mp h
    obtain ⟨t, u, ht, hu, h⟩ := ih h
    exact ⟨t, u, Result.bind_eq_ok.mpr ⟨_, hv, ht⟩, hu, h⟩

/-- An import is at its start, is done with the definitions, and has ended. -/
theorem document_eq_ok {root : Schema} {name : Text} {s : Importing}
    (h : document root name {} = .ok ((), s)) :
    ∃ mid, (root.orderedDefs.forM fun n => within ("$defs/" ++ (Text.ofString n).mentioned)
        (declare root (fuelFor root) (Text.ofString n) ((root.def? n).getD .null)))
          { used := root.orderedDefs.map Text.ofString } = .ok ((), mid) ∧
      mid.document.Grows s.document := by
  unfold document at h
  cases hnull : root.isNull with
  | true =>
    rw [hnull] at h
    cases h
  | false =>
    rw [hnull] at h
    obtain ⟨⟨_, mid⟩, hmid, h⟩ := Result.bind_eq_ok.mp h
    refine ⟨mid, hmid, ?_⟩
    have htail : Adds (if root.isObject then do
          let fresh ← unique (if name.isEmpty then "Root" else name)
          within (Text.mentioned (if name.isEmpty then "Root" else name))
            (declare root (fuelFor root) fresh root)
        else pure ()) :=
      .ite (.bind .unique fun _ => .within ((addsAll _ _).declare _ _)) .pure
    exact htail mid () s h

/-- The declaration of a schema under a name that was new is what a document has under it. -/
def DeclaredAs (root : Schema) (d : Document) (name : Text) (s : Schema) : Prop :=
  ∃ t u : Importing, name ∉ t.document.names ∧
    declare root (fuelFor root) name s t = .ok ((), u) ∧ d.under name = u.document.under name

theorem declaredAs_of_def? {root : Schema} {name : Text} {d : Document} (hroot : root.Distinct)
    (h : root.toDocument name = .ok d) {k : String} {s : Schema} (hs : root.def? k = some s) :
    DeclaredAs root d (Text.ofString k) s := by
  obtain ⟨hunique, -, -⟩ := Schema.toDocument_imported hroot h
  obtain ⟨⟨_, last⟩, hlast, h⟩ := Result.bind_eq_ok.mp h
  cases h
  obtain ⟨mid, hmid, hrest⟩ := document_eq_ok hlast
  have hk : k ∈ root.orderedDefs := Schema.mem_orderedDefs.mpr (by rw [hs]; rfl)
  have hnodup : (root.orderedDefs.map Text.ofString).Nodup :=
    hroot.nodup_orderedDefs.map fun _ _ h => Text.ofString_injective h
  have hlists := lists_orderedDefs root
  have hframes := (frames root (fuelFor root)).declare
  have hyields : ∀ n ∈ root.orderedDefs, ∀ more, root.orderedDefs.map Text.ofString ⊆ more →
      Yields more [Text.ofString n] (within ("$defs/" ++ (Text.ofString n).mentioned)
        (declare root (fuelFor root) (Text.ofString n) ((root.def? n).getD .null)))
        fun _ _ => True :=
    fun n _ more hmore => .within (hframes more _ _ (hlists.mono hmore))
  obtain ⟨before, after, hsplit⟩ := List.append_of_mem hk
  rw [hsplit] at hmid
  obtain ⟨t, u, ht, hu, hafter⟩ := forM_at_eq_ok hmid
  -- what is still owed at `t` begins with the name, and at `u` it has been paid
  obtain ⟨hready, hsub, -⟩ := forM_yields (fun n hn => hyields n (by simp [hsplit, hn]))
    ((k :: after).map Text.ofString) _ _ t (by rw [hsplit]; exact List.Subset.refl _) (by
      rw [← List.map_append, ← hsplit]
      exact ready_start hnodup) ht
  obtain ⟨hready', hgrow, -⟩ := hyields k hk _ (List.Subset.refl _) (after.map Text.ofString) t ()
    u (by rw [hsplit]; exact hsub) hready hu
  have hnew : Text.ofString k ∉ t.document.names := by
    have hall := hready.perm.nodup_iff.mp hready.nodup
    intro hmem
    exact (List.nodup_append.mp hall).2.2 _ hmem _ List.mem_cons_self rfl
  have hpaid : Text.ofString k ∈ u.document.names := by
    have hused : Text.ofString k ∈ u.used := hgrow (hsub (by simp))
    rcases List.mem_append.mp (hready'.perm.mem_iff.mp hused) with hmem | hmem
    · exact hmem
    · rw [hsplit, List.map_append, List.map_cons] at hnodup
      exact absurd hmem (List.nodup_cons.mp (List.nodup_append.mp hnodup).2.1).1
  have hgrows : u.document.Grows last.document := by
    refine .trans (Adds.forM ?_ u () mid hafter) hrest
    exact fun n => .within ((addsAll _ _).declare _ _)
  refine ⟨t, u, hnew, ?_, hgrows.under_eq hunique hpaid⟩
  have hok := Result.within_eq_ok.mp hu
  rwa [hs] at hok

end Import

end SchemaLoom

import SchemaLoom.Proofs.AlikeTypes

/-!
# Alike bodies

The declarations of one kind are linked one after another, and each fills in its own
node only. So it does not matter in which order they come: a declaration is filled in
alike whatever was filled in before it, and it is left alone afterwards.
-/

namespace SchemaLoom

set_option autoImplicit false

namespace Graph
open Result

variable {d e : Document} {g h k l : Graph} {name : Text}

/-! ### One declaration -/

section Bodies

theorem scalarBase_agree (hgh : Paired d e g h) (name : Text) :
    Agree (Option.Rel (g.Lasting h)) (g.scalarBase name) (h.scalarBase name) := by
  unfold scalarBase
  split
  · exact .ok .none
  · refine .bind (resolveName_agree hgh name) ?_
    rintro i j _ _ ⟨hij, _, _⟩
    rw [(hgh.eq_of_same hij.same).1]
    split
    · exact .ok (.some hij)
    · exact .fail

theorem scalarEncoding_agree (hgh : Paired d e g h) (x : Option EncodingDecl) :
    Agree (Option.Rel (Encoding.Alike (g.Lasting h))) (g.scalarEncoding x)
      (h.scalarEncoding x) := by
  cases x with
  | none => exact .ok .none
  | some x =>
    refine .bind (resolveName_agree hgh _).within ?_
    rintro i j _ _ ⟨hij, _, _⟩
    exact .ok (.some ⟨rfl, .some hij⟩)

theorem linkScalar_agree (hgh : Paired d e g h) {s : ScalarDecl} (hs : s ∈ d.scalars) :
    Agree (fun k l => AlikeAt g h s.name → AlikeAt k l s.name) (g.linkScalar s)
      (h.linkScalar s) := by
  refine .within (.bind (scalarBase_agree hgh s.base) ?_)
  intro base base' _ _ hbase
  refine .bind (scalarEncoding_agree hgh s.encode) ?_
  intro encoding encoding' _ _ hencoding
  refine .ok (AlikeAt.modify hgh (mem_names_scalar hs) (fun _ => rfl) (fun _ => rfl) (fun _ => rfl)
    (fun _ => rfl) ?_)
  rintro n m ⟨_⟩
  constructor <;> first | rfl | assumption

theorem pushMembers_reached (hgh : Paired d e g h) {p q : NodeId} (ms : List MemberDecl)
    (hk : g.Adds k) (hl : h.Adds l) (hpq : k.Lasting l p q) :
    Reached LastingAll k l (k.pushMembers p ms) (l.pushMembers q ms) := by
  induction ms generalizing k l with
  | nil => exact .nil k l
  | cons m ms ih =>
    have hpush : Reached Lasting g h _ _ := Reached.push (r := (p, k)) (s := (q, l)) hgh
      ⟨hk, hl, hpq⟩
      (n := { kind := .enumMember, name := m.name, parent := some p, literal := m.value })
      (m := { kind := .enumMember, name := m.name, parent := some q, literal := m.value })
      (by simpa [Node.alike_iff] using hpq)
    have hmember : Reached Lasting k l _ _ := ⟨.push k _, .push l _, hpush.related⟩
    exact .cons hmember (ih (hk.trans (.push k _)) (hl.trans (.push l _))
      (hpq.fills hmember.left.fills hmember.right.fills))

/-- Nodes are added in both graphs before a declaration is filled in. -/
theorem AlikeAt.adds (hgh : Paired d e g h) (halike : AlikeAt g h name) (hgk : g.Adds k)
    (hhl : h.Adds l) : AlikeAt k l name :=
  halike.growsAt hgh hgk.growsAt hhl.growsAt

theorem linkEnum_alike (hgh : Paired d e g h) {x : EnumDecl} (hx : x ∈ d.enums)
    (halike : AlikeAt g h x.name) : AlikeAt (g.linkEnum x) (h.linkEnum x) x.name := by
  have hname := mem_names_enum hx
  have hname' := hgh.permuted.names.mem_iff.mp hname
  have hparent : g.Lasting h (g.declared x.name) (h.declared x.name) := by
    have hlookup := hgh.lookup? x.name
    rw [(hgh.left.lookup?_of_mem hname).2.2, (hgh.right.lookup?_of_mem hname').2.2] at hlookup
    cases hlookup
    assumption
  have hmembers := pushMembers_reached hgh x.members (.refl _ g) (.refl _ h) hparent
  have hleft := pushMembers_made hgh.left.fit (g.declared x.name) x.members
  have hright := pushMembers_made hgh.right.fit (h.declared x.name) x.members
  have hkl : Paired d e _ _ := ⟨hgh.permuted, hgh.left.madeAll hleft, hgh.right.madeAll hright⟩
  have halike := halike.adds hgh hmembers.left hmembers.right
  have hgk := hmembers.left.toGrows
  have hhl := hmembers.right.toGrows
  have hrelated := hmembers.related
  unfold linkEnum
  dsimp only
  generalize g.pushMembers (g.declared x.name) x.members = r at *
  generalize h.pushMembers (h.declared x.name) x.members = s at *
  rw [← hgh.left.declared_grows hname hgk, ← hgh.right.declared_grows hname' hhl]
  refine AlikeAt.modify hkl hname (fun _ => rfl) (fun _ => rfl) (fun _ => rfl) (fun _ => rfl) ?_
    halike
  rintro n m ⟨_⟩
  constructor <;> first | rfl | assumption

theorem Linking.modelBase (hg : Linking d g) {t : Option TypeRef} {base : Option NodeId}
    (h : g.modelBase t = .ok (base, k)) : Linking d k := by
  obtain ⟨hfit, hgrows, _⟩ := modelBase_made hg.fit h
  exact ⟨hfit, hg.grows.trans hgrows, hg.declarable, hg.unique⟩

theorem modelBase_agree (hgh : Matched d e g h) (t : Option TypeRef) :
    Agree (Reached (fun k l => Option.Rel (k.Lasting l)) g h) (g.modelBase t) (h.modelBase t) := by
  cases t with
  | none => exact .ok ⟨.refl _ g, .refl _ h, .none⟩
  | some t =>
    refine .bind (resolve_agree hgh t).within ?_
    rintro ⟨i, k⟩ ⟨j, l⟩ hi hj hij
    have hkl := hgh.resolved (within_eq_ok.mp hi) (within_eq_ok.mp hj) hij
    dsimp only
    rw [(hkl.eq_of_same hij.related.same).1]
    split
    · exact .ok ⟨hij.left, hij.right, .some hij.related⟩
    · exact .fail

theorem linkModel_agree (hgh : Matched d e g h) {m : ModelDecl} (hm : m ∈ d.models) :
    Agree (fun k l => AlikeAt g h m.name → AlikeAt k l m.name) (g.linkModel m) (h.linkModel m) := by
  refine .within (.bind (modelBase_agree hgh m.base) ?_)
  rintro ⟨base, k⟩ ⟨base', l⟩ hbase hbase' hreached
  have hkl := hgh.adds (hgh.left.modelBase hbase) (hgh.right.modelBase hbase') hreached.left
    hreached.right
  refine .bind (linkProperties_agree hkl m.properties) ?_
  rintro ⟨properties, k'⟩ ⟨properties', l'⟩ hproperties hproperties' hall
  have hend := hkl.adds (hkl.left.madeAll (linkProperties_made hkl.left.fit hproperties))
    (hkl.right.madeAll (linkProperties_made hkl.right.fit hproperties')) hall.left hall.right
  have hbases : Option.Rel (k'.Lasting l') base base' :=
    optionRel_mono (fun _ _ hab => hab.fills hall.left.fills hall.right.fills) hreached.related
  refine .ok fun halike => ((halike.adds hgh.toPaired hreached.left hreached.right).adds
    hkl.toPaired hall.left hall.right).modify hend.toPaired (mem_names_model hm) (fun _ => rfl)
    (fun _ => rfl) (fun _ => rfl) (fun _ => rfl) ?_
  rintro n m ⟨_⟩
  constructor <;> first | rfl | assumption | exact hall.related

theorem linkVariants_agree (hgh : Matched d e g h) (tagged : Bool) (i : Nat)
    (vs : List VariantDecl) :
    Agree (Reached LastingAll g h) (g.linkVariants tagged i vs) (h.linkVariants tagged i vs) := by
  induction vs generalizing g h i with
  | nil => exact .ok (.nil g h)
  | cons v vs ih =>
    rw [linkVariants, linkVariants]
    refine .bind (resolve_agree hgh v.type).within ?_
    rintro ⟨t, k⟩ ⟨u, l⟩ ht hu htu
    have hkl := hgh.resolved (within_eq_ok.mp ht) (within_eq_ok.mp hu) htu
    dsimp only
    split
    · exact .fail
    · have hpush : Reached Lasting g h _ _ := htu.push hgh.toPaired
        (n := { kind := .unionVariant, name := v.name, type := some t })
        (m := { kind := .unionVariant, name := v.name, type := some u })
        (by simpa [Node.alike_iff] using htu.related)
      have hvariant : Matched d e (k.push _).2 (l.push _).2 := hgh.adds
        (hkl.left.made (variant_made hkl.left.fit
          (resolve_made hgh.left.fit (within_eq_ok.mp ht)).lt
          (resolve_made hgh.left.fit (within_eq_ok.mp ht)).kind v.name))
        (hkl.right.made (variant_made hkl.right.fit
          (resolve_made hgh.right.fit (within_eq_ok.mp hu)).lt
          (resolve_made hgh.right.fit (within_eq_ok.mp hu)).kind v.name)) hpush.left hpush.right
      refine .bind (ih hvariant (i + 1)) ?_
      rintro ⟨is, k'⟩ ⟨js, l'⟩ _ _ his
      exact .ok (.cons hpush his)

theorem linkUnion_agree (hgh : Matched d e g h) {u : UnionDecl} (hu : u ∈ d.unions) :
    Agree (fun k l => AlikeAt g h u.name → AlikeAt k l u.name) (g.linkUnion u) (h.linkUnion u) := by
  refine .within (.bind .self fun _ _ _ _ _ => .bind (linkVariants_agree hgh _ 0 u.variants) ?_)
  rintro ⟨variants, k⟩ ⟨variants', l⟩ hvariants hvariants' hall
  have hend := hgh.adds (hgh.left.madeAll (linkVariants_made hgh.left.fit hvariants))
    (hgh.right.madeAll (linkVariants_made hgh.right.fit hvariants')) hall.left hall.right
  refine .ok fun halike => AlikeAt.modify hend.toPaired (mem_names_union hu) (fun _ => rfl)
    (fun _ => rfl) (fun _ => rfl) (fun _ => rfl) ?_
    (halike.adds hgh.toPaired hall.left hall.right)
  rintro n m ⟨_⟩
  constructor <;> first | rfl | assumption | exact hall.related

end Bodies

/-! ### Declarations one after another -/

section Runs
variable {δ : Type} {named : δ → Text} {f : Graph → δ → Result Graph} {I J : Graph → Prop}
  {xs ys : List δ}

/-- Each step keeps `I` and changes one declaration only. -/
def Steps (named : δ → Text) (f : Graph → δ → Result Graph) (I : Graph → Prop)
    (xs : List δ) : Prop :=
  ∀ k x l, x ∈ xs → I k → f k x = .ok l → I l ∧ GrowsAt (· = named x) k l

theorem Steps.run (h : Steps named f I xs) (hg : I g) (hok : xs.foldlM f g = .ok k) :
    I k ∧ GrowsAt (· ∈ xs.map named) g k := by
  refine foldlM_induction (P := fun k => I k ∧ GrowsAt (· ∈ xs.map named) g k) ?_
    ⟨hg, .refl _ g⟩ hok
  intro u x v hx ⟨hu, hgu⟩ hv
  obtain ⟨hIv, huv⟩ := h u x v hx hu hv
  refine ⟨hIv, hgu.trans (huv.mono ?_)⟩
  rintro _ rfl
  exact List.mem_map_of_mem hx

/-- A run seen from one of its steps: before it and after it others are changed. -/
theorem Steps.at (h : Steps named f I xs) (hnodup : (xs.map named).Nodup) (hg : I g)
    (hok : xs.foldlM f g = .ok k) {x : δ} (hx : x ∈ xs) :
    ∃ u v, I u ∧ GrowsAt (· ≠ named x) g u ∧ f u x = .ok v ∧ GrowsAt (· ≠ named x) v k := by
  induction xs generalizing g with
  | nil => cases hx
  | cons y xs ih =>
    rw [List.foldlM_cons] at hok
    obtain ⟨w, hw, hwk⟩ := bind_eq_ok.mp hok
    obtain ⟨hIw, hgw⟩ := h g y w List.mem_cons_self hg hw
    have hrest : Steps named f I xs := fun k z l hz => h k z l (List.mem_cons_of_mem _ hz)
    rw [List.map_cons, List.nodup_cons] at hnodup
    rcases List.mem_cons.mp hx with rfl | hx
    · refine ⟨g, w, hg, .refl _ g, hw, (hrest.run hIw hwk).2.mono ?_⟩
      rintro _ hmem rfl
      exact hnodup.1 hmem
    · obtain ⟨u, v, hIu, hwu, hv, hvk⟩ := ih hrest hnodup.2 hIw hwk hx
      refine ⟨u, v, hIu, (hgw.mono ?_).trans hwu, hv, hvk⟩
      rintro _ rfl heq
      exact hnodup.1 (heq ▸ List.mem_map_of_mem hx)

/-- Whether a step succeeds does not depend on the run it is part of. -/
theorem Steps.exists_ok (hI : Steps named f I xs) (hJ : Steps named f J ys) (hperm : xs.Perm ys)
    (hnodup : (xs.map named).Nodup)
    (hboth : ∀ k l x, x ∈ xs → I k → J l → ((∃ k', f k x = .ok k') ↔ ∃ l', f l x = .ok l'))
    (hg : I g) (hh : J h) (hok : ∃ k, xs.foldlM f g = .ok k) : ∃ l, ys.foldlM f h = .ok l := by
  obtain ⟨k, hk⟩ := hok
  have hsteps : ∀ l, J l → ∀ y ∈ ys, ∃ l', f l y = .ok l' := by
    intro l hl y hy
    have hx := hperm.mem_iff.mpr hy
    obtain ⟨u, v, hu, _, hv, _⟩ := hI.at hnodup hg hk hx
    exact (hboth u l y hx hu hl).mp ⟨v, hv⟩
  clear hperm hboth
  induction ys generalizing h with
  | nil => exact ⟨h, rfl⟩
  | cons y ys ih =>
    obtain ⟨w, hw⟩ := hsteps h hh y List.mem_cons_self
    obtain ⟨l, hl⟩ := ih (fun l z m hz => hJ l z m (List.mem_cons_of_mem _ hz))
      (hJ h y w List.mem_cons_self hh hw).1
      fun l hl z hz => hsteps l hl z (List.mem_cons_of_mem _ hz)
    exact ⟨l, by rw [List.foldlM_cons, hw]; exact hl⟩

/-- Two runs over the same declarations in different order. -/
theorem Steps.agree (hI : Steps named f I xs) (hJ : Steps named f J ys) (hperm : xs.Perm ys)
    (hnodup : (xs.map named).Nodup) (hpaired : ∀ k l, I k → J l → Paired d e k l)
    (hboth : ∀ k l x, x ∈ xs → I k → J l →
      Agree (fun k' l' => AlikeAt k l (named x) → AlikeAt k' l' (named x)) (f k x) (f l x))
    (hg : I g) (hh : J h) (hstart : ∀ name, AlikeAt g h name) :
    Agree (fun k l => I k ∧ J l ∧ ∀ name, AlikeAt k l name) (xs.foldlM f g) (ys.foldlM f h) := by
  have hnodup' : (ys.map named).Nodup := (hperm.map named).nodup_iff.mp hnodup
  refine .of_iff ⟨hI.exists_ok hJ hperm hnodup (fun k l x hx hk hl => (hboth k l x hx hk hl).ok_iff)
    hg hh, hJ.exists_ok hI hperm.symm hnodup' ?_ hh hg⟩ ?_
  · exact fun l k x hx hl hk => (hboth k l x (hperm.mem_iff.mpr hx) hk hl).ok_iff.symm
  · intro k l hk hl
    refine ⟨(hI.run hg hk).1, (hJ.run hh hl).1, ?_⟩
    intro name
    by_cases hname : name ∈ xs.map named
    · -- both runs take the step of `x`, and all others leave what `named x` denotes alone
      obtain ⟨x, hx, rfl⟩ := List.mem_map.mp hname
      obtain ⟨u, u', hu, hgu, hstep, huk⟩ := hI.at hnodup hg hk hx
      obtain ⟨v, v', hv, hhv, hstep', hvl⟩ := hJ.at hnodup' hh hl (hperm.mem_iff.mp hx)
      have hbefore := (hstart (named x)).growsAt (hpaired g h hg hh) hgu hhv
      have hafter := (hboth u v x hx hu hv).of_ok hstep hstep' hbefore
      have hpair := hpaired u' v' (hI u x u' hx hu hstep).1
        (hJ v x v' (hperm.mem_iff.mp hx) hv hstep').1
      exact hafter.growsAt hpair huk hvl
    · have hname' : name ∉ ys.map named := mt (hperm.map named).mem_iff.mpr hname
      refine (hstart name).growsAt (hpaired g h hg hh) ((hI.run hg hk).2.mono ?_)
        ((hJ.run hh hl).2.mono ?_)
      · rintro _ hmem rfl
        exact hname hmem
      · rintro _ hmem rfl
        exact hname' hmem

end Runs

/-! ### What a declaration changes -/

section Changes

theorem linkScalar_growsAt (hg : Linking d g) {s : ScalarDecl} (hs : s ∈ d.scalars)
    (hok : g.linkScalar s = .ok h) : GrowsAt (· = s.name) g h := by
  obtain ⟨base, _, hok⟩ := bind_eq_ok.mp (within_eq_ok.mp hok)
  obtain ⟨encoding, _, hok⟩ := bind_eq_ok.mp hok
  cases hok
  exact .fill hg (mem_names_scalar hs) (.refl _ g) (fun _ => rfl) fun _ => rfl

theorem linkEnum_growsAt (hg : Linking d g) {x : EnumDecl} (hx : x ∈ d.enums) :
    GrowsAt (· = x.name) g (g.linkEnum x) := by
  have hadds := (pushMembers_appends (Q := fun _ => True) g (g.declared x.name) x.members).adds
  have hfill := GrowsAt.fill hg (mem_names_enum hx) hadds
    (f := fun n => { n with members := (g.pushMembers (g.declared x.name) x.members).1,
                            decorators := { doc := x.doc } }) (fun _ => rfl) fun _ => rfl
  rw [hg.declared_grows (mem_names_enum hx) hadds.toGrows] at hfill
  exact hfill

theorem modelBase_adds {t : Option TypeRef} {base : Option NodeId}
    (hok : g.modelBase t = .ok (base, k)) : g.Adds k :=
  (modelBase_appends (Q := fun _ => True) (fun _ _ _ _ => trivial) hok).adds

/-- Linking has gone on without touching members. -/
structure Onward (d : Document) (g k : Graph) : Prop where
  linking : Linking d k
  fills : g.Fills k
  members : ∀ i < g.nodes.size, (k.node i).members = (g.node i).members

theorem Onward.refl (hg : Linking d g) : Onward d g g := ⟨hg, .refl _ g, fun _ _ => rfl⟩

theorem members_modify {f : Node → Node} (hf : ∀ n, (f n).members = n.members) (i j : NodeId) :
    ((g.modify i f).node j).members = (g.node j).members := by
  simp only [node, node?_modify]
  split
  · cases g.node? j <;> simp [hf]
  · rfl

theorem Onward.fill (hk : Onward d g k) (hname : name ∈ d.names) (hkl : k.Adds l)
    {f : Node → Node} (hkind : ∀ n, (f n).kind = n.kind) (hnamed : ∀ n, (f n).name = n.name)
    (hmembers : ∀ n, (f n).members = n.members)
    (hlinking : Linking d (l.modify (l.declared name) f)) :
    Onward d g (l.modify (l.declared name) f) ∧
      GrowsAt (· = name) k (l.modify (l.declared name) f) := by
  have hfill := GrowsAt.fill hk.linking hname hkl hkind hnamed
  refine ⟨⟨hlinking, hk.fills.trans hfill.fills, ?_⟩, hfill⟩
  intro i hi
  rw [members_modify hmembers, hkl.node (Nat.lt_of_lt_of_le hi hk.fills.size_le), hk.members i hi]

theorem steps_linkScalar (d : Document) :
    Steps (fun s : ScalarDecl => s.name) linkScalar (Linking d) d.scalars :=
  fun _ _ _ hs hk hok => ⟨linkScalar_linking hk hs hok, linkScalar_growsAt hk hs hok⟩

theorem steps_linkEnum (d : Document) :
    Steps (fun x : EnumDecl => x.name) (fun g x => .ok (g.linkEnum x)) (Linking d) d.enums := by
  rintro k x l hx hk ⟨⟩
  exact ⟨linkEnum_linking hk hx, linkEnum_growsAt hk hx⟩

theorem steps_linkModel (d : Document) (g : Graph) :
    Steps (fun m : ModelDecl => m.name) linkModel (Onward d g) d.models := by
  intro k m l hm hk hok
  have hlinking := linkModel_linking hk.linking hm hok
  obtain ⟨⟨base, u⟩, hbase, hok⟩ := bind_eq_ok.mp (within_eq_ok.mp hok)
  obtain ⟨⟨properties, v⟩, hproperties, hok⟩ := bind_eq_ok.mp hok
  cases hok
  exact hk.fill (mem_names_model hm)
    ((modelBase_adds hbase).trans (linkProperties_adds hproperties))
    (fun _ => rfl) (fun _ => rfl) (fun _ => rfl) hlinking

theorem steps_linkUnion (d : Document) (g : Graph) :
    Steps (fun u : UnionDecl => u.name) linkUnion (Onward d g) d.unions := by
  intro k u l hu hk hok
  have hlinking := linkUnion_linking hk.linking hu hok
  obtain ⟨_, _, hok⟩ := bind_eq_ok.mp (within_eq_ok.mp hok)
  obtain ⟨⟨variants, v⟩, hvariants, hok⟩ := bind_eq_ok.mp hok
  cases hok
  have hadds :=
    (linkVariants_appends (Q := fun _ => True) (fun _ _ _ _ => trivial) hvariants).1.adds
  exact hk.fill (mem_names_union hu) hadds (fun _ => rfl) (fun _ => rfl) (fun _ => rfl) hlinking

end Changes

end Graph

end SchemaLoom

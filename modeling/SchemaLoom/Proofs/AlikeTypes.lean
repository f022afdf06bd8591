import SchemaLoom.Proofs.Alike
import SchemaLoom.Proofs.Assembly

/-!
# Alike types

A type reference is resolved alike in two graphs that are linked from the same
declarations, whatever has been filled in before.
-/

namespace SchemaLoom

set_option autoImplicit false

namespace Graph
open Result

/-! ### Resolving only adds -/

section Adds
variable {Q : List Property → Prop} {g k : Graph}

theorem Appends.adds (h : Appends Q g k) : g.Adds k := by
  induction h with
  | refl => exact .refl _ g
  | tail _ hnext ih =>
    cases hnext with
    | intro _ => exact ih.trans (.push _ _)

theorem resolve_adds {t : TypeRef} {r : NodeId × Graph} (h : g.resolve t = .ok r) : g.Adds r.2 :=
  (resolve_appends (Q := fun _ => True) (fun _ _ => trivial) h).adds

theorem resolveAll_adds {ts : List TypeRef} {r : List NodeId × Graph}
    (h : g.resolveAll ts = .ok r) : g.Adds r.2 :=
  (resolveAll_appends (Q := fun _ => True) (fun _ _ _ _ => trivial) h).adds

theorem linkProperties_adds {ps : List Property} {r : List NodeId × Graph}
    (h : g.linkProperties ps = .ok r) : g.Adds r.2 :=
  (linkProperties_appends (Q := fun _ => True)
    (fun _ hp => ⟨⟨ps, trivial, hp⟩, fun _ _ => trivial⟩) h).adds

end Adds

/-! ### Resolving in two graphs -/

/-- Two graphs in which the enums are linked already. -/
structure Matched (d e : Document) (g h : Graph) : Prop extends Paired d e g h where
  members : ∀ name i j, g.lookup? name = some i → h.lookup? name = some j →
    List.Forall₂ (g.Lasting h) (g.node i).members (h.node j).members

/-- Nodes are added, and the related results of two runs are among them. -/
structure Reached {α β : Type} (P : Graph → Graph → α → β → Prop) (g h : Graph) (r : α × Graph)
    (s : β × Graph) : Prop where
  left : g.Adds r.2
  right : h.Adds s.2
  related : P r.2 s.2 r.1 s.1

abbrev LastingAll (g h : Graph) (is js : List NodeId) : Prop := List.Forall₂ (g.Lasting h) is js

section Reached
variable {d e : Document} {g h k l : Graph}

theorem Matched.later (hgh : Matched d e g h) (hk : Linking d k) (hl : Linking e l)
    (hgk : g.Fills k) (hhl : h.Fills l)
    (hleft : ∀ i < g.nodes.size, (k.node i).members = (g.node i).members)
    (hright : ∀ i < h.nodes.size, (l.node i).members = (h.node i).members) : Matched d e k l where
  permuted := hgh.permuted
  left := hk
  right := hl
  members := by
    intro name i j hi hj
    rw [hgk.lookup? hgh.left.fit.kept] at hi
    rw [hhl.lookup? hgh.right.fit.kept] at hj
    rw [hleft i (hgh.left.fit.lookup?_lt hi), hright j (hgh.right.fit.lookup?_lt hj)]
    exact (hgh.members name i j hi hj).imp fun _ _ hab => hab.fills hgk hhl

theorem Matched.adds (hgh : Matched d e g h) (hk : Linking d k) (hl : Linking e l)
    (hgk : g.Adds k) (hhl : h.Adds l) : Matched d e k l :=
  hgh.later hk hl hgk.fills hhl.fills (fun _ hi => by rw [hgk.node hi])
    fun _ hi => by rw [hhl.node hi]

theorem Reached.push {α β : Type} {P : Graph → Graph → α → β → Prop} {r : α × Graph}
    {s : β × Graph} (hgh : Paired d e g h) (hrs : Reached P g h r s) {n m : Node}
    (hnm : n.Alike (r.2.Lasting s.2) m) : Reached Lasting g h (r.2.push n) (s.2.push m) where
  left := hrs.left.trans (.push _ _)
  right := hrs.right.trans (.push _ _)
  related := .push (hrs.left.kept hgh.left.fit.kept) (hrs.right.kept hgh.right.fit.kept)
    (Nat.le_trans hgh.left.fit.size_le hrs.left.size_le)
    (Nat.le_trans hgh.right.fit.size_le hrs.right.size_le) hnm

theorem Reached.nil (g h : Graph) : Reached LastingAll g h ([], g) ([], h) :=
  ⟨.refl _ g, .refl _ h, .nil⟩

theorem Reached.cons {i j : NodeId} {is js : List NodeId} {k' l' : Graph}
    (hi : Reached Lasting g h (i, k) (j, l)) (his : Reached LastingAll k l (is, k') (js, l')) :
    Reached LastingAll g h (i :: is, k') (j :: js, l') where
  left := hi.left.trans his.left
  right := hi.right.trans his.right
  related := .cons (hi.related.fills his.left.fills his.right.fills) his.related

theorem resolveName_agree (hgh : Paired d e g h) (name : Text) :
    Agree (fun i j => g.Lasting h i j ∧ g.lookup? name = some i ∧ h.lookup? name = some j)
      (g.resolveName name) (h.resolveName name) := by
  have hlookup := hgh.lookup? name
  unfold resolveName
  generalize g.lookup? name = x at *
  generalize h.lookup? name = y at *
  cases hlookup with
  | some hij => exact .ok ⟨hij, rfl, rfl⟩
  | none => exact .fail

theorem resolveMember_agree (hgh : Matched d e g h) (ref : Text) :
    Agree (g.Lasting h) (g.resolveMember ref) (h.resolveMember ref) := by
  unfold resolveMember
  cases splitMember? ref with
  | none => exact .fail
  | some p =>
    refine .bind (resolveName_agree hgh.toPaired p.1) ?_
    rintro i j _ _ ⟨_, hi, hj⟩
    have hfind := find?_forall₂ (p := fun m => g.nameOf m == p.2) (q := fun m => h.nameOf m == p.2)
      (fun a b hab => by rw [(hgh.eq_of_same hab.same).2]) (hgh.members p.1 i j hi hj)
    generalize (g.node i).members.find? _ = x at hfind ⊢
    generalize (h.node j).members.find? _ = y at hfind ⊢
    cases hfind with
    | some hab => exact .ok hab
    | none => exact .fail

theorem pushVariants_reached (hgh : Paired d e g h) {types types' : List NodeId} (hk : g.Adds k)
    (hl : h.Adds l) (htypes : LastingAll k l types types') :
    Reached LastingAll k l (k.pushVariants types) (l.pushVariants types') := by
  induction types generalizing types' k l with
  | nil =>
    cases htypes
    exact .nil k l
  | cons t ts ih =>
    cases htypes with
    | @cons _ t' _ ts' ht hts =>
      have hpush : Reached Lasting g h _ _ := Reached.push (r := (t, k)) (s := (t', l)) hgh
        ⟨hk, hl, ht⟩ (n := { kind := .unionVariant, type := some t })
        (m := { kind := .unionVariant, type := some t' }) (by simpa [Node.alike_iff] using ht)
      have hvariant : Reached Lasting k l _ _ := ⟨.push k _, .push l _, hpush.related⟩
      have hrest : LastingAll (k.push _).2 (l.push _).2 ts ts' :=
        hts.imp fun _ _ hab => hab.fills hvariant.left.fills hvariant.right.fills
      exact .cons hvariant (ih (hk.trans (.push k _)) (hl.trans (.push l _)) hrest)

theorem Matched.resolved (hgh : Matched d e g h) {t : TypeRef} {i j : NodeId}
    (hi : g.resolve t = .ok (i, k)) (hj : h.resolve t = .ok (j, l))
    (hij : Reached Lasting g h (i, k) (j, l)) : Matched d e k l :=
  hgh.adds (hgh.left.made (resolve_made hgh.left.fit hi))
    (hgh.right.made (resolve_made hgh.right.fit hj)) hij.left hij.right

/-- Types, properties and lists of them are resolved alike. -/
theorem resolve_agree_all (d e : Document) :
    (∀ (g : Graph) t, ∀ h, Matched d e g h →
      Agree (Reached Lasting g h) (g.resolve t) (h.resolve t)) ∧
    (∀ (g : Graph) ps, ∀ h, Matched d e g h →
      Agree (Reached LastingAll g h) (g.linkProperties ps) (h.linkProperties ps)) ∧
    (∀ (g : Graph) p, ∀ h, Matched d e g h →
      Agree (Reached Lasting g h) (g.linkProperty p) (h.linkProperty p)) ∧
    (∀ (g : Graph) ts, ∀ h, Matched d e g h →
      Agree (Reached LastingAll g h) (g.resolveAll ts) (h.resolveAll ts)) := by
  apply resolve.mutual_induct
  · intro g name array record literal union tuple object member hname h hgh
    rw [resolve.eq_def, resolve.eq_def h]
    simp only [if_pos hname]
    exact (resolveName_agree hgh.toPaired name).map fun i j hij => ⟨.refl _ g, .refl _ h, hij.1⟩
  · intro g name record literal union tuple object member hname t ih h hgh
    rw [resolve, if_neg hname, resolve, if_neg hname]
    refine .bind (ih h hgh) ?_
    rintro ⟨i, k⟩ ⟨j, l⟩ _ _ hij
    exact .ok (.push hgh.toPaired hij (by
      simpa [Node.alike_iff, Indexer.alike_iff, arrayNode] using hij.related))
  · intro g name literal union tuple object member hname t ih h hgh
    rw [resolve, if_neg hname, resolve, if_neg hname]
    refine .bind (ih h hgh) ?_
    rintro ⟨i, k⟩ ⟨j, l⟩ _ _ hij
    have hstring : k.Lasting l stringType stringType := fun _ _ _ _ => .builtIn (by decide)
    exact .ok (.push hgh.toPaired hij (by
      simpa [Node.alike_iff, Indexer.alike_iff, recordNode] using ⟨hstring, hij.related⟩))
  · intro g name union tuple object member hname v h hgh
    rw [resolve, if_neg hname, resolve, if_neg hname]
    cases hv : literalNode v with
    | error e => exact .error
    | ok n =>
      obtain ⟨_, kind, _, rfl⟩ := literalNode_eq_ok hv
      have hnothing : Reached (fun _ _ (_ _ : Unit) => True) g h ((), g) ((), h) :=
        ⟨.refl _ g, .refl _ h, trivial⟩
      exact .ok (hnothing.push hgh.toPaired (.of_base _ _ _ _ .none))
  · intro g name tuple object member hname ts ih h hgh
    rw [resolve, if_neg hname, resolve, if_neg hname]
    refine .bind (ih h hgh) ?_
    rintro ⟨is, k⟩ ⟨js, l⟩ _ _ hij
    have hvariants := pushVariants_reached hgh.toPaired hij.left hij.right hij.related
    have hall : Reached LastingAll g h (k.pushVariants is) (l.pushVariants js) :=
      ⟨hij.left.trans hvariants.left, hij.right.trans hvariants.right, hvariants.related⟩
    exact .ok (.push hgh.toPaired hall (by simpa [Node.alike_iff] using hall.related))
  · intro g name object member hname ts ih h hgh
    rw [resolve, if_neg hname, resolve, if_neg hname]
    refine .bind (ih h hgh) ?_
    rintro ⟨is, k⟩ ⟨js, l⟩ _ _ hij
    exact .ok (.push hgh.toPaired hij (by simpa [Node.alike_iff] using hij.related))
  · intro g name member hname ps ih h hgh
    rw [resolve, if_neg hname, resolve, if_neg hname]
    refine .bind (ih h hgh) ?_
    rintro ⟨is, k⟩ ⟨js, l⟩ _ _ hij
    exact .ok (.push hgh.toPaired hij (by simpa [Node.alike_iff] using hij.related))
  · intro g name member hname hmember h hgh
    rw [resolve, if_neg hname, resolve, if_neg hname]
    simp only [if_pos hmember]
    exact (resolveMember_agree hgh member).map fun i j hij => ⟨.refl _ g, .refl _ h, hij⟩
  · intro g name member hname hmember h hgh
    rw [resolve, if_neg hname, resolve, if_neg hname]
    simp only [if_neg hmember]
    exact .fail
  · intro g name type optional default decorators ih h hgh
    rw [linkProperty, linkProperty]
    refine .bind (ih h hgh).within ?_
    rintro ⟨i, k⟩ ⟨j, l⟩ _ _ hij
    exact .ok (.push hgh.toPaired hij (by simpa [Node.alike_iff, propertyNode] using hij.related))
  · intro g h hgh
    exact .ok (.nil g h)
  · intro g t ts iht ihts h hgh
    rw [resolveAll, resolveAll]
    refine .bind (iht h hgh) ?_
    rintro ⟨i, k⟩ ⟨j, l⟩ hi hj hij
    refine .bind (ihts k l (hgh.resolved hi hj hij)) ?_
    rintro ⟨is, k'⟩ ⟨js, l'⟩ _ _ his
    exact .ok (.cons hij his)
  · intro g h hgh
    exact .ok (.nil g h)
  · intro g p ps ihp ihps h hgh
    rw [linkProperties, linkProperties]
    refine .bind (ihp h hgh) ?_
    rintro ⟨i, k⟩ ⟨j, l⟩ hi hj hij
    have hkl := hgh.adds (hgh.left.made (resolve_made_all.2.2.1 g p hgh.left.fit _ hi))
      (hgh.right.made (resolve_made_all.2.2.1 h p hgh.right.fit _ hj)) hij.left hij.right
    refine .bind (ihps k l hkl) ?_
    rintro ⟨is, k'⟩ ⟨js, l'⟩ _ _ his
    exact .ok (.cons hij his)

theorem resolve_agree (hgh : Matched d e g h) (t : TypeRef) :
    Agree (Reached Lasting g h) (g.resolve t) (h.resolve t) :=
  (resolve_agree_all d e).1 g t h hgh

theorem linkProperties_agree (hgh : Matched d e g h) (ps : List Property) :
    Agree (Reached LastingAll g h) (g.linkProperties ps) (h.linkProperties ps) :=
  (resolve_agree_all d e).2.1 g ps h hgh

end Reached

end Graph

end SchemaLoom

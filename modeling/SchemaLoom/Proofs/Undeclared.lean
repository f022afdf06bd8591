import SchemaLoom.Proofs.Assembly

/-!
# Anonymous models and unions

What a document does not name stays as it was made: an undeclared model has no base and the
properties of one list, an undeclared union has no discriminator. Bodies and copies are
filled into declarations only.

Which lists there are is settled by the document; here they repeat no name.
-/

namespace SchemaLoom

set_option autoImplicit false

/-- No list of properties repeats a name. -/
def Document.Unrepeated (d : Document) : Prop :=
  ∀ ps, d.Lists ps → (ps.map (·.name)).Nodup

/-- The node is no more than one list of properties, or than its variants. -/
structure Node.Untouched (g : Graph) (n : Node) : Prop where
  base : n.kind = .model → n.base = none
  discriminator : n.discriminator = none
  lt : ∀ p ∈ n.properties, p < g.nodes.size
  unrepeated : (n.properties.map g.nameOf).Nodup

theorem Node.Untouched.mono {g h : Graph} {n : Node} (hn : n.Untouched g) (hgh : g.Grows h) :
    n.Untouched h where
  base := hn.base
  discriminator := hn.discriminator
  lt := fun p hp => Nat.lt_of_lt_of_le (hn.lt p hp) hgh.size_le
  unrepeated := by
    have hnames : n.properties.map h.nameOf = n.properties.map g.nameOf :=
      List.map_congr_left fun p hp => hgh.name p (hn.lt p hp)
    rw [hnames]
    exact hn.unrepeated

theorem Node.untouched_of_bare {g : Graph} {n : Node} (hbase : n.kind = .model → n.base = none)
    (hdiscriminator : n.discriminator = none) (hproperties : n.properties = []) :
    n.Untouched g :=
  ⟨hbase, hdiscriminator, by simp [hproperties], by simp [hproperties]⟩

namespace Graph

/-- Nodes without a declaration are as they were made. -/
def AllUntouched (g : Graph) : Prop := ∀ i, i ∉ g.declarations → (g.node i).Untouched g

section Changes
variable {d : Document} {g h : Graph}

theorem AllUntouched.push (hg : g.AllUntouched) {n : Node} (hn : n.Untouched g) :
    (g.push n).2.AllUntouched := by
  intro i hi
  apply Node.Untouched.mono (g := g) _ (.push g n)
  rw [node, node?_push]
  split
  · exact hn
  · exact hg i (by simpa using hi)

/-- Filling in a declaration leaves the others alone. -/
theorem AllUntouched.modify (hg : g.AllUntouched) {i : NodeId} (hi : i ∈ g.declarations)
    {f : Node → Node} (hkind : ∀ n, (f n).kind = n.kind) (hname : ∀ n, (f n).name = n.name) :
    (g.modify i f).AllUntouched := by
  intro j hj
  rw [declarations_modify] at hj
  apply Node.Untouched.mono (g := g) _ (.modify g i hkind hname)
  rw [node, node?_modify, if_neg]
  · exact hg j hj
  · rintro rfl
    exact hj hi

theorem untouched_of_appended (hd : d.Unrepeated) {n : Node} (hn : n.Appended d.Lists g) :
    n.Untouched g := by
  cases hn with
  | @model ps properties hps hlt hnames =>
    refine ⟨fun _ => rfl, rfl, hlt, ?_⟩
    rw [hnames]
    exact hd ps hps
  | _ => exact Node.untouched_of_bare (fun _ => rfl) rfl rfl

theorem AllUntouched.change (hd : d.Unrepeated) (hg : g.AllUntouched) (hgh : Change d g h) :
    h.AllUntouched := by
  cases hgh with
  | append hgh =>
    cases hgh with
    | intro hn => exact hg.push (untouched_of_appended hd hn)
  | scalar base hi _ _ => exact hg.modify hi (fun _ => rfl) fun _ => rfl
  | enum doc members hi => exact hg.modify hi (fun _ => rfl) fun _ => rfl
  | model base properties hi _ => exact hg.modify hi (fun _ => rfl) fun _ => rfl
  | union doc hi _ _ => exact hg.modify hi (fun _ => rfl) fun _ => rfl
  | copy src hn => exact hg.modify hn (fun _ => rfl) fun _ => rfl

theorem untouched_ofNames (d : Document) : (ofNames d).AllUntouched := by
  intro i _
  obtain ⟨kind, name, builtIn, base, hn, hbase, _⟩ := unlinked_ofNames d i
  rw [hn]
  refine Node.untouched_of_bare ?_ rfl rfl
  rintro rfl
  cases base with
  | none => rfl
  | some b => cases hbase rfl

/-- Where no list of the document repeats a name, no anonymous model does. -/
theorem untouched_of_link (hd : d.Unrepeated) (hok : link d = .ok g) : g.AllUntouched :=
  (changes_of_link hok).preserves (fun _ _ => AllUntouched.change hd) (untouched_ofNames d)

end Changes

end Graph

end SchemaLoom

import SchemaLoom.Proofs.Assembly

/-!
# Where defaults and decorators come from

Linking makes up no values: a default of a linked graph is the default of some property
of the document, however deep in a type that property stands, and decorators are those
of a property, a scalar or a model. Enums and unions bring their documentation only.
Copies share property nodes and add nothing.

Nothing is said about literal types and enum members, nor about which node a property
of the document becomes.
-/

namespace SchemaLoom

set_option autoImplicit false

/-- Decorators that stand somewhere in a document, or that are documentation and nothing else. -/
inductive Document.Attaches (d : Document) (x : Decorators) : Prop
  | doc {text : String} : x = { doc := text } → Attaches d x
  | property {p : Property} : d.Holds p → p.decorators = x → Attaches d x
  | scalar {s : ScalarDecl} : s ∈ d.scalars → s.decorators = x → Attaches d x
  | model {m : ModelDecl} : m ∈ d.models → m.decorators = x → Attaches d x

/-- The values of a node come from the document. -/
structure Node.Drawn (d : Document) (n : Node) : Prop where
  default : ∀ v, n.default = some v → ∃ p, d.Holds p ∧ p.default = some v
  decorators : d.Attaches n.decorators

theorem Node.drawn_of_bare {d : Document} {n : Node} (hdefault : n.default = none)
    (hdecorators : n.decorators = {}) : n.Drawn d :=
  ⟨by simp [hdefault], .doc hdecorators⟩

namespace Graph

/-- The values of every node come from the document. -/
def Drawn (d : Document) (g : Graph) : Prop := ∀ i, (g.node i).Drawn d

section Changes
variable {d : Document} {g h : Graph}

theorem Drawn.push (hg : g.Drawn d) {n : Node} (hn : n.Drawn d) : (g.push n).2.Drawn d := by
  intro i
  rw [node, node?_push]
  split
  · exact hn
  · exact hg i

theorem Drawn.modify (hg : g.Drawn d) {i : NodeId} {f : Node → Node}
    (hf : (f (g.node i)).Drawn d) : (g.modify i f).Drawn d := by
  intro j
  rw [node, node?_modify]
  split
  · rename_i hij
    subst hij
    cases hnode : g.node? i with
    | none => exact Node.drawn_of_bare rfl rfl
    | some n =>
      rw [node_of_node? hnode] at hf
      exact hf
  · exact hg j

/-- Only properties bring values of their own. -/
theorem drawn_of_appended {n : Node} (hn : n.Appended d.Lists g) : n.Drawn d := by
  cases hn with
  | @property ps p t hps hp =>
    have hheld := hps.holds hp
    exact ⟨fun _ hv => ⟨p, hheld, hv⟩, .property hheld rfl⟩
  | _ => exact Node.drawn_of_bare rfl rfl

theorem Drawn.change (hg : g.Drawn d) (hgh : Change d g h) : h.Drawn d := by
  cases hgh with
  | append hgh =>
    cases hgh with
    | intro hn => exact hg.push (drawn_of_appended hn)
  | @scalar i s base encoding _ hs _ => exact hg.modify ⟨(hg i).default, .scalar hs rfl⟩
  | @enum i doc members _ => exact hg.modify ⟨(hg i).default, .doc rfl⟩
  | @model i m base properties _ hm => exact hg.modify ⟨(hg i).default, .model hm rfl⟩
  | @union i doc discriminator variants _ _ _ => exact hg.modify ⟨(hg i).default, .doc rfl⟩
  | @copy n src _ =>
    -- a copy takes the shape of its source and keeps its own decorators
    exact hg.modify ⟨(hg n).default, (hg n).decorators⟩

theorem drawn_ofNames (d : Document) : (ofNames d).Drawn d := by
  intro i
  obtain ⟨kind, name, builtIn, base, hn, _, _⟩ := unlinked_ofNames d i
  rw [hn]
  exact Node.drawn_of_bare rfl rfl

/-- What a linked graph holds by way of values is what its document says. -/
theorem drawn_of_link (hok : link d = .ok g) : g.Drawn d :=
  (changes_of_link hok).preserves (fun _ _ => Drawn.change) (drawn_ofNames d)

end Changes

end Graph

end SchemaLoom

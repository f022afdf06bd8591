import SchemaLoom.Proofs.Assembly
import SchemaLoom.Proofs.Chains

/-!
# Well-formed graphs

Everything that can be reached from the declarations of a linked graph is in order:
it is stored, its base chain ends, and its fields hold what its readers rely on.
Copies are expanded after the bodies were linked and the last check looks at
declarations only. So the fields that no check reads again are followed through
every change of linking; undeclared nodes derive from earlier undeclared ones.

Nothing is said about the decorators and defaults of a node, nor about what an
encoding is called.
-/

namespace SchemaLoom

set_option autoImplicit false

namespace Node

/-- What the fields of a node hold that only some declarations and only records have. -/
structure Sound (g : Graph) (n : Node) : Prop where
  encoding : ∀ e, n.encoding = some e → ∃ t, e.type = some t ∧ t < g.nodes.size
  key : ∀ ix, n.indexer = some ix → ix.key = none ∨ ix.key = some Graph.stringType
  envelope : ∀ d, n.discriminator = some d →
    d.envelope = Discriminator.objectEnvelope ∨ d.envelope = Discriminator.noEnvelope
  named : n.discriminator.isSome → ∀ v ∈ n.variants, v < g.nodes.size ∧ (g.node v).name ≠ []

theorem Sound.mono {g h : Graph} {n : Node} (hn : n.Sound g) (hgh : g.Grows h) : n.Sound h where
  encoding := by
    intro e he
    obtain ⟨t, ht, hlt⟩ := hn.encoding e he
    exact ⟨t, ht, Nat.lt_of_lt_of_le hlt hgh.size_le⟩
  key := hn.key
  envelope := hn.envelope
  named := by
    intro hd v hv
    obtain ⟨hlt, hname⟩ := hn.named hd v hv
    rw [hgh.name v hlt]
    exact ⟨Nat.lt_of_lt_of_le hlt hgh.size_le, hname⟩

theorem sound_of_none {g : Graph} {n : Node} (hencoding : n.encoding = none)
    (hdiscriminator : n.discriminator = none)
    (hkey : ∀ ix, n.indexer = some ix → ix.key = none ∨ ix.key = some Graph.stringType) :
    n.Sound g where
  encoding := by simp [hencoding]
  key := hkey
  envelope := by simp [hdiscriminator]
  named := by simp [hdiscriminator]

end Node

namespace Graph

/-- Every node is sound. -/
def AllSound (g : Graph) : Prop := ∀ i, (g.node i).Sound g

section Steps
variable {g : Graph}

theorem AllSound.push (hg : g.AllSound) {n : Node} (hn : n.Sound g) : (g.push n).2.AllSound := by
  have hgrow := Grows.push g n
  intro i
  rw [node, node?_push]
  split
  · exact hn.mono hgrow
  · exact (hg i).mono hgrow

theorem AllSound.modify (hg : g.AllSound) {i : NodeId} {f : Node → Node}
    (hkind : ∀ n, (f n).kind = n.kind) (hname : ∀ n, (f n).name = n.name)
    (hf : (f (g.node i)).Sound g) : (g.modify i f).AllSound := by
  have hgrow := Grows.modify g i hkind hname
  intro j
  rw [node, node?_modify]
  split
  · rename_i hij
    subst hij
    cases hnode : g.node? i with
    | none => exact Node.sound_of_none rfl rfl (by simp)
    | some n =>
      rw [node_of_node? hnode] at hf
      exact hf.mono hgrow
  · exact (hg j).mono hgrow

end Steps

/-! ### Changes -/

section Changes
variable {d : Document} {g h : Graph}

theorem sound_of_appended {Q : List Property → Prop} {n : Node} (hn : n.Appended Q g) :
    n.Sound g := by
  cases hn with
  | array elem => exact Node.sound_of_none rfl rfl (by simp [arrayNode])
  | record value => exact Node.sound_of_none rfl rfl (by simp [recordNode])
  | property t _ _ => exact Node.sound_of_none rfl rfl (by simp [propertyNode])
  | _ => exact Node.sound_of_none rfl rfl (by simp)

theorem checkEnvelope_eq_ok {discriminator : Option Discriminator}
    (hok : checkEnvelope discriminator = .ok ()) : ∀ x, discriminator = some x →
      x.envelope = Discriminator.objectEnvelope ∨ x.envelope = Discriminator.noEnvelope := by
  intro x hx
  subst hx
  rw [checkEnvelope] at hok
  split at hok
  · rename_i henvelope
    simpa using henvelope
  · simp at hok

theorem AllSound.change (hg : g.AllSound) (hgh : Change d g h) : h.AllSound := by
  cases hgh with
  | append hgh =>
    cases hgh with
    | intro hn => exact hg.push (sound_of_appended hn)
  | @scalar i s base encoding _ _ hencoding =>
    have hn := hg i
    exact hg.modify (fun _ => rfl) (fun _ => rfl) ⟨hencoding, hn.key, hn.envelope, hn.named⟩
  | @enum i doc members _ =>
    have hn := hg i
    exact hg.modify (fun _ => rfl) (fun _ => rfl) ⟨hn.encoding, hn.key, hn.envelope, hn.named⟩
  | @model i m base properties _ _ =>
    have hn := hg i
    exact hg.modify (fun _ => rfl) (fun _ => rfl) ⟨hn.encoding, hn.key, hn.envelope, hn.named⟩
  | @union i doc discriminator variants _ henvelope hnamed =>
    have hn := hg i
    exact hg.modify (fun _ => rfl) (fun _ => rfl)
      ⟨hn.encoding, hn.key, checkEnvelope_eq_ok henvelope, hnamed⟩
  | @copy n src _ =>
    -- a copy takes the keys of another model; encodings and discriminators are not copied
    have hn := hg n
    exact hg.modify (fun _ => rfl) (fun _ => rfl)
      ⟨hn.encoding, (hg src).key, hn.envelope, hn.named⟩

theorem sound_ofNames (d : Document) : (ofNames d).AllSound := by
  intro i
  obtain ⟨kind, name, builtIn, base, hn, _, _⟩ := unlinked_ofNames d i
  rw [hn]
  exact Node.sound_of_none rfl rfl (by simp)

theorem sound_of_link (hok : link d = .ok g) : g.AllSound :=
  (changes_of_link hok).preserves (fun _ _ => AllSound.change) (sound_ofNames d)

end Changes

/-! ### Declarations -/

/-- The declarations with their kinds, in order. -/
def listing (g : Graph) : List (Kind × Text) :=
  g.declarations.map fun i => ((g.node i).kind, (g.node i).name)

theorem listing_withNames {g : Graph} {kind : Kind} {names : List Text} (hg : g.Kept) :
    (g.withNames kind names).listing = g.listing ++ names.map fun name => (kind, name) := by
  have hnodes := congrArg (List.map fun n => (n.kind, n.name)) (@map_node_withNames g kind names hg)
  simp only [List.map_append, List.map_map] at hnodes
  exact hnodes

end Graph

/-- What a document declares: scalars, models, enums and unions, each in source order. -/
def Document.listing (d : Document) : List (Kind × Text) :=
  d.scalars.map (fun s => (.scalar, s.name)) ++ d.models.map (fun m => (.model, m.name)) ++
    d.enums.map (fun e => (.enum, e.name)) ++ d.unions.map (fun u => (.union, u.name))

theorem Document.map_listing (d : Document) : d.listing.map (·.2) = d.names := by
  simp [Document.listing, Document.names, Function.comp_def]

namespace Graph

theorem listing_ofNames (d : Document) : (ofNames d).listing = d.listing := by
  have h₁ : (empty.withNames .scalar (d.scalars.map (·.name))).Kept := kept_withNames kept_empty
  have h₂ : (Graph.withNames _ .model (d.models.map (·.name))).Kept := kept_withNames h₁
  have h₃ : (Graph.withNames _ .enum (d.enums.map (·.name))).Kept := kept_withNames h₂
  have hnone : empty.listing = [] := rfl
  rw [ofNames, listing_withNames h₃, listing_withNames h₂, listing_withNames h₁,
    listing_withNames kept_empty, hnone]
  simp [Document.listing, Function.comp_def]

section Linking
variable {d : Document} {g : Graph}

theorem Linking.listing (hg : Linking d g) : g.listing = d.listing := by
  rw [← listing_ofNames d, Graph.listing, Graph.listing, hg.grows.declarations]
  apply List.map_congr_left
  intro i hi
  rw [hg.grows.kind i (kept_ofNames d i hi), hg.grows.name i (kept_ofNames d i hi)]

theorem Linking.declarable_name (hg : Linking d g) {i : NodeId} (hi : i ∈ g.declarations) :
    Declarable (g.node i).name := by
  apply hg.declarable
  have hmem : ((g.node i).kind, (g.node i).name) ∈ d.listing := by
    rw [← hg.listing]
    exact List.mem_map_of_mem hi
  rw [← Document.map_listing]
  exact List.mem_map_of_mem hmem

theorem Linking.stringType (hg : Linking d g) :
    (g.node stringType).builtIn = true ∧ (g.node stringType).kind = .scalar ∧
      (g.node stringType).name = Text.ofString "string" := by
  have hnode : (ofNames d).node? Graph.stringType =
      some { kind := .scalar, name := "string", builtIn := true } :=
    node?_ofNames_of_lt d (by decide)
  have hlt : Graph.stringType < (ofNames d).nodes.size := lt_of_node? hnode
  have hkind : (g.node Graph.stringType).kind = .scalar := by
    rw [hg.grows.kind _ hlt, node, hnode]
    rfl
  have hname : (g.node Graph.stringType).name = Text.ofString "string" := by
    rw [hg.grows.name _ hlt, node, hnode]
    rfl
  have hnot : Graph.stringType ∉ g.declarations := by
    intro hmem
    have hbuiltin := (hg.declarable_name hmem).not_builtin
    rw [hname] at hbuiltin
    exact absurd hbuiltin (by decide)
  have hfits := hg.fit.fits_of_lt (Nat.lt_of_lt_of_le hlt hg.grows.size_le)
  have hreferred := mt hfits.declared_iff.mp hnot
  exact ⟨by simpa [Node.isReferred, Node.isDeclaration, hkind] using hreferred, hkind, hname⟩

end Linking

end Graph

/-! ### What is reached -/

namespace Node

def edges (n : Node) : List NodeId := n.mentions ++ (n.encoding.bind (·.type)).toList

/-- What readers of a graph rely on. -/
structure WellFormed (g : Graph) (n : Node) : Prop where
  base : ∀ b, n.base = some b → (n.kind = .scalar ∧ (g.node b).kind = .scalar) ∨
    (n.kind = .model ∧ (g.node b).kind = .model)
  properties : ∀ p ∈ n.properties, (g.node p).kind = .modelProperty ∧ (g.node p).type.isSome
  variants : ∀ v ∈ n.variants, (g.node v).kind = .unionVariant ∧ (g.node v).type.isSome
  value : ∀ ix, n.indexer = some ix → ix.value.isSome
  key : ∀ ix, n.indexer = some ix → ∀ k, ix.key = some k →
    (g.node k).builtIn = true ∧ (g.node k).kind = .scalar ∧
      (g.node k).name = Text.ofString "string"
  literal : n.kind = .string ∨ n.kind = .number ∨ n.kind = .boolean →
    ∃ v, n.literal = some v ∧ v.isPrimitive = true
  envelope : ∀ d, n.discriminator = some d →
    d.envelope = Discriminator.objectEnvelope ∨ d.envelope = Discriminator.noEnvelope
  named : n.discriminator.isSome → ∀ v ∈ n.variants, (g.node v).name ≠ []

end Node

namespace Graph

def Edge (g : Graph) (a b : NodeId) : Prop := b ∈ (g.node a).edges

/-- The graph is what readers of it rely on. -/
structure WellFormed (g : Graph) (d : Document) : Prop where
  listing : g.listing = d.listing
  names : (g.listing.map (·.2)).Nodup
  declarable : ∀ i ∈ g.declarations, (g.node i).name ≠ [] ∧ (g.node i).name ∉ builtInNames
  stored : ∀ i ∈ g.declarations, ∀ n, Relation.ReflTransGen g.Edge i n → n < g.nodes.size
  ends : ∀ i ∈ g.declarations, ∀ n, Relation.ReflTransGen g.Edge i n →
    Ends (fun a => (g.node a).base) n
  nodes : ∀ i ∈ g.declarations, ∀ n, Relation.ReflTransGen g.Edge i n → (g.node n).WellFormed g

section Reached
variable {g : Graph}

theorem AllSound.lt_of_edge (hg : g.Fit) (hsound : g.AllSound) {a b : NodeId}
    (ha : a < g.nodes.size) (h : g.Edge a b) : b < g.nodes.size := by
  rcases List.mem_append.mp h with h | h
  · exact (hg.fits_of_lt ha).lt b h
  · obtain ⟨e, he, htype⟩ := Option.bind_eq_some_iff.mp (Option.mem_toList.mp h)
    obtain ⟨t, ht, hlt⟩ := (hsound a).encoding e he
    obtain rfl : b = t := Option.some.inj (htype.symm.trans ht)
    exact hlt

theorem AllSound.lt_of_reached (hg : g.Fit) (hsound : g.AllSound) {i n : NodeId}
    (hi : i ∈ g.declarations) (h : Relation.ReflTransGen g.Edge i n) : n < g.nodes.size := by
  induction h with
  | refl => exact hg.kept i hi
  | tail _ hedge ih => exact hsound.lt_of_edge hg ih hedge

theorem Linking.wellFormed_of_lt {d : Document} (hg : Linking d g) (hsound : g.AllSound)
    {n : NodeId} (hn : n < g.nodes.size) : (g.node n).WellFormed g := by
  have hfits := hg.fit.fits_of_lt hn
  have htyped : ∀ p ∈ (g.node n).mentions, (g.node p).kind = .modelProperty ∨
      (g.node p).kind = .unionVariant → (g.node p).type.isSome := fun p hp =>
    (hg.fit.fits_of_lt (hfits.lt p hp)).typed
  refine ⟨?_, ?_, ?_, hfits.valued, ?_, hfits.literal, (hsound n).envelope, ?_⟩
  · intro b hb
    obtain ⟨hkind | hkind, hbase⟩ := hfits.base b hb
    · exact .inl ⟨hkind, hbase.trans hkind⟩
    · exact .inr ⟨hkind, hbase.trans hkind⟩
  · intro p hp
    have hkind := hfits.properties p hp
    exact ⟨hkind, htyped p (Node.mem_mentions_of_property hp) (.inl hkind)⟩
  · intro v hv
    have hkind := hfits.variants v hv
    exact ⟨hkind, htyped v (Node.mem_mentions_of_variant hv) (.inr hkind)⟩
  · intro ix hix k hk
    rcases (hsound n).key ix hix with hnone | hstring
    · rw [hnone] at hk
      cases hk
    · rw [hstring] at hk
      cases hk
      exact hg.stringType
  · intro hd v hv
    exact ((hsound n).named hd v hv).2

end Reached

/-- Every graph that is linked is well formed. -/
theorem wellFormed_of_link {d : Document} {g : Graph} (h : link d = .ok g) : g.WellFormed d := by
  obtain ⟨_, _, _, _, _, hg, _⟩ := link_phases h
  have hlinked := linked_of_link h
  have hsound := sound_of_link h
  have hlt : ∀ i ∈ g.declarations, ∀ n, Relation.ReflTransGen g.Edge i n → n < g.nodes.size :=
    fun i hi n hn => hsound.lt_of_reached hg.fit hi hn
  refine ⟨hg.listing, ?_, ?_, hlt, ?_, ?_⟩
  · rw [hg.listing, Document.map_listing]
    exact hg.unique
  · intro i hi
    have hname := hg.declarable_name hi
    refine ⟨hname.ne_nil, ?_⟩
    rw [mem_builtInNames, hname.not_builtin]
    simp
  · intro i hi n hn
    exact hlinked.base_ends (hlt i hi n hn)
  · intro i hi n hn
    exact hg.wellFormed_of_lt hsound (hlt i hi n hn)

end Graph

/-- Copies of copies, bases that are copied, an encoding, a map and a discriminated union. -/
def kiosk : Document where
  scalars := [{ name := "Stamp", base := "utcDateTime",
                encode := some { encoding := "unixTimestamp" } }]
  models :=
    [{ name := "Shelf", source := some (.named "Items") },
     { name := "Items", source := some { array := some (.named "Item") } },
     { name := "Item", base := some (.named "Thing")
       properties := [{ name := "stock", type := { record := some (.named "int32") } },
         { name := "state", type := { member := "State.Sold" } }] },
     { name := "Gift", source := some (.named "Item") },
     { name := "Thing", properties := [{ name := "made", type := .named "Stamp" }] }]
  enums := [{ name := "State", members := [{ name := "Sold" }] }]
  unions :=
    [{ name := "Payment", discriminated := some { envelope := "none" }
       variants := [{ name := "cash", type := .named "Thing" },
         { name := "card", type := { literal := some (.string "card") } }] }]

set_option maxRecDepth 100000 in
theorem wellFormed_of_link_kiosk : ∃ g : Graph, Graph.link kiosk = .ok g ∧
    g.listing.map (·.1) = [.scalar, .model, .model, .model, .model, .model, .enum, .union] ∧
    g.WellFormed kiosk := by
  have hrun : (Graph.link kiosk).map (fun g => g.listing.map (·.1)) =
      .ok [.scalar, .model, .model, .model, .model, .model, .enum, .union] := by
    decide +kernel
  obtain ⟨g, hg, hkinds⟩ := Result.map_eq_ok.mp hrun
  exact ⟨g, hg, hkinds, Graph.wellFormed_of_link hg⟩

end SchemaLoom

import SchemaLoom.JsonSchema
import SchemaLoom.JsonSchema.Reference

/-!
# Traversal

Every schema of a graph once, parents before children. With references followed,
the target of a reference comes before the children of the schema that refers.
A schema is known by its identity, so a schema met before is not visited again:
it may be shared, and it may come back to itself. Whoever receives the schemas
can stop at any of them.

In a tree the identity of a schema is its position.
-/

namespace SchemaLoom

/-- Finitely many schemas by identity. A subschema can stand in several places. -/
structure SchemaGraph (ι : Type) where
  /-- The keywords and the subschemas in order; nothing where no schema is. -/
  node? : ι → Option (Keywords × List (Location × ι))
  ids : List ι
  mem_ids : ∀ i, (node? i).isSome = true → i ∈ ids

namespace SchemaGraph

variable {ι : Type}

/-- The identity of the schema a reference leads to. -/
abbrev Resolver (ι : Type) := String → Option ι

/-- Whether more is wanted, after all that has been received. -/
abbrev Consumer (ι : Type) := List ι → Bool

/-- What has been received, and whether more is wanted. -/
structure Progress (ι : Type) where
  received : List ι
  wanted : Bool

/-- The identities next to one: the target of its reference, then its subschemas. -/
def next (g : SchemaGraph ι) (resolve : Resolver ι) (i : ι) : List ι :=
  match g.node? i with
  | none => []
  | some (k, cs) =>
    (if k.ref.isEmpty then none else resolve k.ref).toList ++ cs.map (·.2)

/-- Visits one after another, as long as more is wanted. -/
def along (visit : List ι → ι → Option (Progress ι)) : List ι → List ι → Option (Progress ι)
  | seen, [] => some ⟨seen, true⟩
  | seen, i :: is =>
    match visit seen i with
    | some ⟨seen, true⟩ => along visit seen is
    | ended => ended

/-- Visits a schema and everything behind it that is not visited yet, at most `fuel` levels
deep. The identities are listed in the order they are visited. -/
def visit [DecidableEq ι] (g : SchemaGraph ι) (resolve : Resolver ι) (wants : Consumer ι) :
    Nat → List ι → ι → Option (Progress ι)
  | 0, _, _ => none
  | fuel + 1, seen, i =>
    if (g.node? i).isNone || seen.contains i then some ⟨seen, true⟩
    else if wants (seen ++ [i]) then
      along (visit g resolve wants fuel) (seen ++ [i]) (g.next resolve i)
    else some ⟨seen ++ [i], false⟩

/-- What a consumer receives of the schemas behind one. No level is deeper than there are
schemas. -/
def traverse [DecidableEq ι] (g : SchemaGraph ι) (resolve : Resolver ι) (wants : Consumer ι)
    (start : ι) : Option (List ι) :=
  (g.visit resolve wants (g.ids.length + 1) [] start).map (·.received)

end SchemaGraph

namespace Schema

/-- The steps from the root to a schema. -/
abbrev Position := List Location

def at? (root : Schema) : Position → Option Schema
  | [] => some root
  | l :: ls => (root.child? l).bind fun c => c.at? ls

mutual
def places : Schema → List Position
  | null => []
  | node _ cs => [] :: placesAll cs

def placesAll : List (Location × Schema) → List Position
  | [] => []
  | c :: cs => placesChild c ++ placesAll cs

def placesChild : Location × Schema → List Position
  | (l, s) => s.places.map (l :: ·)
end

theorem mem_placesAll {l : Location} {c : Schema} {p : Position} (hp : p ∈ c.places)
    {cs : List (Location × Schema)} (hc : cs.lookup l = some c) : l :: p ∈ placesAll cs := by
  induction cs with
  | nil => cases hc
  | cons x cs ih =>
    obtain ⟨m, s⟩ := x
    rw [placesAll, List.mem_append]
    by_cases hl : l = m
    · subst hl
      rw [List.lookup_cons_self] at hc
      cases hc
      exact .inl (List.mem_map_of_mem hp)
    · rw [List.lookup_cons, beq_false_of_ne hl] at hc
      exact .inr (ih hc)

theorem mem_places {root s : Schema} {p : Position} (h : root.at? p = some s)
    (hs : s.isNull = false) : p ∈ root.places := by
  induction p generalizing root with
  | nil =>
    obtain rfl : root = s := Option.some.inj h
    cases root with
    | null => cases hs
    | node k cs => exact List.mem_cons_self
  | cons l p ih =>
    obtain ⟨c, hc, hp⟩ := Option.bind_eq_some_iff.mp h
    cases root with
    | null => cases hc
    | node k cs => exact List.mem_cons_of_mem _ (mem_placesAll (ih hp) hc)

/-- The keywords at a position, and the positions right below it. -/
def nodeAt? (root : Schema) (p : Position) : Option (Keywords × List (Location × Position)) :=
  match root.at? p with
  | some (node k cs) => some (k, cs.map fun c => (c.1, p ++ [c.1]))
  | _ => none

def graph (root : Schema) : SchemaGraph Position where
  node? := root.nodeAt?
  ids := root.places
  mem_ids := by
    intro p h
    unfold nodeAt? at h
    split at h
    · rename_i k cs hat
      exact mem_places hat rfl
    · cases h

/-- The position a reference leads to. -/
abbrev Resolver := SchemaGraph.Resolver Position

def noResolver : Resolver := fun _ => none

/-- Follows references to the definitions of the root. -/
def defResolver (root : Schema) : Resolver := fun ref => do
  let name ← Reference.defName? (Text.ofString ref)
  let name := name.toDisplay
  if (root.child? (.def_ name)).isSome then
    if (root.child? (.def_ name)).all isNull then none else some [.def_ name]
  else if (root.child? (.definition name)).all isNull then none
  else some [.definition name]

/-- The positions of a schema in the order of traversal, up to where no more is wanted. -/
def positions (root : Schema) (resolve : Resolver) (wants : SchemaGraph.Consumer Position) :
    List Position :=
  (root.graph.traverse resolve wants []).getD []

def traverse (root : Schema) (resolve : Resolver) : List Schema :=
  (positions root resolve fun _ => true).filterMap root.at?

def traverseFirst (root : Schema) (resolve : Resolver) (limit : Nat) : List Schema :=
  (positions root resolve fun ps => decide (ps.length < limit)).filterMap root.at?

end Schema

end SchemaLoom

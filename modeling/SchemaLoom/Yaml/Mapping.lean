import SchemaLoom.Yaml.Decode

/-!
# Mappings with free keys

Reading of a mapping whose keys are not fixed: its own entries in order, and
then those of the mappings it merges, which never replace what is there.
-/

namespace SchemaLoom.Yaml

/-- What a mapping has set so far, in the order of first setting; `none` is the null key. -/
abbrev Entries (α : Type) := List (Option String × α)

/-- Sets an entry, in place of one of the same key. -/
def Entries.set {α : Type} (es : Entries α) (key : Option String) (a : α) : Entries α :=
  if es.any (·.1 == key) then es.map fun e => if e.1 == key then (key, a) else e
  else es ++ [(key, a)]

namespace Decode

/-- The tag of a node, or of the node an alias stands for. -/
def keyTag (anchors : Anchors) : Node → String
  | .aliasOf _ _ target _ => (anchors[target]?.map Node.tag).getD ""
  | n => n.tag

/-- No key can be a sequence or a mapping. -/
def isCollection (anchors : Anchors) (key : Node) : Bool :=
  match key with
  | .aliasOf _ _ target _ =>
    match anchors[target]? with
    | some (.sequence ..) | some (.mapping ..) => true
    | _ => false
  | .sequence .. | .mapping .. => true
  | .scalar .. => false

def hasStringKeys (anchors : Anchors) (entries : List (Node × Node)) : Bool :=
  entries.all fun e => keyTag anchors e.1 == "!!str" || keyTag anchors e.1 == "!!merge"

/-- Reads the entries of one mapping. `merged` holds the keys that a mapping merged from
elsewhere may not set any more; `nullKeys` says whether null counts as a key. -/
def readEntries {α : Type} (nullKeys : Bool) (value : Reader α) (scope : Scope) :
    List (Node × Node) → Option (List String) → Entries α →
    Decode (Entries α × Option (List String))
  | [], merged, es => pure (es, merged)
  | (k, v) :: rest, merged, es => do
    if isMergeKey k then readEntries nullKeys value scope rest merged es
    else
      if isCollection scope.anchors k then fatal .malformed
      match ← through text scope k with
      | none =>
        let es ← if nullKeys then
            match ← value scope v with
            | some a => pure (es.set none a)
            | none => pure es
          else pure es
        readEntries nullKeys value scope rest merged es
      | some key =>
        let key := key.toDisplay
        if (merged.map (·.contains key)).getD false then
          readEntries nullKeys value scope rest merged es
        else
          let merged := merged.map (key :: ·)
          match ← value scope v with
          | none => readEntries nullKeys value scope rest merged es
          | some a => readEntries nullKeys value scope rest merged (es.set (some key) a)

/-- Reads a mapping, and then what it merges; nothing if a key stands in it twice. -/
def readMapping {α : Type} (nullKeys : Bool) (value : Reader α) :
    Nat → Scope → List (Node × Node) → Option (List String) → Entries α →
    Decode (Option (Entries α × Option (List String)))
  | 0, _, _, _, _ => fatal .diverges
  | fuel + 1, scope, entries, merged, es => do
    if !(← keysDiffer entries) then pure none
    else
      let (es, merged) ← readEntries nullKeys value scope entries merged es
      mergeInto (readMapping nullKeys value fuel) scope entries merged es

end Decode

end SchemaLoom.Yaml

import SchemaLoom.Graph

/-!
# Linking

A document becomes a graph in four steps: every name is declared, every body is
linked, copies (`is`) are expanded, and the base chains are checked. Because
names come first, declarations may mention each other in any order.
-/

namespace SchemaLoom

namespace Graph

/-- Finds what a name denotes. -/
def resolveName (g : Graph) (name : Text) : Result NodeId :=
  match g.lookup? name with
  | some n => .ok n
  | none => Result.fail (.unknownType name)

/-- The parts of `Enum.Member`. -/
def splitMember? (ref : Text) : Option (Text × Text) :=
  match ref.span (· != .char '.') with
  | (name, _ :: member) => some (name, member)
  | (_, []) => none

/-- Finds a member by `Enum.Member`. -/
def resolveMember (g : Graph) (ref : Text) : Result NodeId :=
  match splitMember? ref with
  | none => Result.fail (.malformedMember ref)
  | some (name, member) => do
    let e ← g.resolveName name
    match (g.node e).members.find? fun m => g.nameOf m == member with
    | some m => .ok m
    | none => Result.fail (.unknownMember ref)

/-- A literal type holds a string, a number or a boolean. -/
def literalNode (v : Value) : Result Node :=
  match v with
  | .string _ => .ok { kind := .string, literal := some v }
  | .numeric _ => .ok { kind := .number, literal := some v }
  | .boolean _ => .ok { kind := .boolean, literal := some v }
  | _ => Result.fail .literalKind

def arrayNode (elem : NodeId) : Node :=
  { kind := .model, name := Text.ofString "Array", builtIn := true,
    indexer := some { value := some elem } }

def recordNode (value : NodeId) : Node :=
  { kind := .model, name := Text.ofString "Record", builtIn := true,
    indexer := some { key := some stringType, value := some value } }

def propertyNode (p : Property) (type : NodeId) : Node :=
  { kind := .modelProperty, name := p.name, type := some type, optional := p.optional,
    default := p.default, decorators := p.decorators }

def pushVariants (g : Graph) : List NodeId → List NodeId × Graph
  | [] => ([], g)
  | t :: ts =>
    let (n, g) := g.push { kind := .unionVariant, type := some t }
    let (ns, g) := g.pushVariants ts
    (n :: ns, g)

mutual
/-- The node of a type reference; anonymous types are appended to the store. -/
def resolve (g : Graph) : TypeRef → Result (NodeId × Graph)
  | ⟨name, array, record, literal, union, tuple, object, member⟩ =>
    -- the first part that is given counts
    if !name.isEmpty then (g.resolveName name).map (·, g)
    else match array with
    | some t => do
      let (elem, g) ← g.resolve t
      .ok (g.push (arrayNode elem))
    | none =>
    match record with
    | some t => do
      let (value, g) ← g.resolve t
      .ok (g.push (recordNode value))
    | none =>
    match literal with
    | some v => (literalNode v).map g.push
    | none =>
    match union with
    | some ts => do
      let (types, g) ← g.resolveAll ts
      let (variants, g) := g.pushVariants types
      .ok (g.push { kind := .union, variants })
    | none =>
    match tuple with
    | some ts => do
      let (elements, g) ← g.resolveAll ts
      .ok (g.push { kind := .tuple, elements })
    | none =>
    match object with
    | some ps => do
      let (properties, g) ← g.linkProperties ps
      .ok (g.push { kind := .model, properties })
    | none =>
      if !member.isEmpty then (g.resolveMember member).map (·, g)
      else Result.fail .emptyTypeRef

def resolveAll (g : Graph) : List TypeRef → Result (List NodeId × Graph)
  | [] => .ok ([], g)
  | t :: ts => do
    let (n, g) ← g.resolve t
    let (ns, g) ← g.resolveAll ts
    .ok (n :: ns, g)

/-- The property nodes of a model, in order. -/
def linkProperties (g : Graph) : List Property → Result (List NodeId × Graph)
  | [] => .ok ([], g)
  | p :: ps => do
    let (n, g) ← g.linkProperty p
    let (ns, g) ← g.linkProperties ps
    .ok (n :: ns, g)

def linkProperty (g : Graph) : Property → Result (NodeId × Graph)
  | ⟨name, type, optional, default, decorators⟩ => do
    let (t, g) ← Result.within ("property " ++ name.mentioned) (g.resolve type)
    .ok (g.push (propertyNode ⟨name, type, optional, default, decorators⟩ t))
end

/-! ### Declarations -/

def declareAll (g : Graph) (kind : Kind) (names : List Text) : Result Graph :=
  names.foldlM (fun g name => let (n, g) := g.push { kind, name }; g.declare n) g

def declareNames (d : Document) : Result Graph := do
  let g ← empty.declareAll .scalar (d.scalars.map (·.name))
  let g ← g.declareAll .model (d.models.map (·.name))
  let g ← g.declareAll .enum (d.enums.map (·.name))
  g.declareAll .union (d.unions.map (·.name))

/-- The declaration with a name, once names are declared. -/
def declared (g : Graph) (name : Text) : NodeId := (g.declaration? name).getD g.nodes.size

/-- The type an encoding has unless it says otherwise. -/
def defaultEncodingType (encoding : Text) : Text :=
  if encoding == Text.ofString "unixTimestamp" || encoding == Text.ofString "seconds" then "int32"
  else "string"

/-- The kind of a node in running text. -/
def kindWord (g : Graph) (n : NodeId) : Text := Text.ofString (g.node n).kind.name.toLower

def scalarBase (g : Graph) (name : Text) : Result (Option NodeId) :=
  if name.isEmpty then .ok none
  else do
    let b ← g.resolveName name
    if (g.node b).kind == .scalar then .ok (some b)
    else Result.fail (.notExtendable (g.kindWord b ++ " " ++ name.mentioned))

def scalarEncoding (g : Graph) : Option EncodingDecl → Result (Option Encoding)
  | none => .ok none
  | some e => do
    let name := if e.type.isEmpty then defaultEncodingType e.encoding else e.type
    let t ← Result.within "encoding" (g.resolveName name)
    .ok (some { name := e.encoding, type := some t })

def linkScalar (g : Graph) (s : ScalarDecl) : Result Graph :=
  Result.within ("scalar " ++ s.name.mentioned) do
    let base ← g.scalarBase s.base
    let encoding ← g.scalarEncoding s.encode
    .ok (g.modify (g.declared s.name) fun n =>
      { n with decorators := s.decorators, base, encoding })

/-- The members of an enum, in order. -/
def pushMembers (g : Graph) (parent : NodeId) : List MemberDecl → List NodeId × Graph
  | [] => ([], g)
  | m :: ms =>
    let (n, g) := g.push
      { kind := .enumMember, name := m.name, parent := some parent, literal := m.value }
    let (ns, g) := g.pushMembers parent ms
    (n :: ns, g)

def linkEnum (g : Graph) (e : EnumDecl) : Graph :=
  let n := g.declared e.name
  let (members, g) := g.pushMembers n e.members
  g.modify n fun node => { node with members, decorators := { doc := e.doc } }

def modelBase (g : Graph) : Option TypeRef → Result (Option NodeId × Graph)
  | none => .ok (none, g)
  | some t => do
    let (b, g) ← Result.within "extends" (g.resolve t)
    if (g.node b).kind == .model then .ok (some b, g)
    else Result.fail (.notExtendable (g.kindWord b))

def linkModel (g : Graph) (m : ModelDecl) : Result Graph :=
  Result.within ("model " ++ m.name.mentioned) do
    let (base, g) ← g.modelBase m.base
    let (properties, g) ← g.linkProperties m.properties
    .ok (g.modify (g.declared m.name) fun n =>
      { n with decorators := m.decorators, base, properties })

/-- The settings of a discriminated union; unset ones take their default. -/
def discriminatorOf : Option DiscriminatorDecl → Option Discriminator
  | none => none
  | some d =>
    if d.disabled then none
    else
      let std : Discriminator := {}
      let pick (given default : Text) := if given.isEmpty then default else given
      some { property := pick d.property std.property, envelope := pick d.envelope std.envelope,
             envelopeProperty := pick d.envelopeProperty std.envelopeProperty }

def checkEnvelope : Option Discriminator → Result Unit
  | none => .ok ()
  | some d =>
    if d.envelope == Discriminator.objectEnvelope || d.envelope == Discriminator.noEnvelope
    then .ok ()
    else Result.fail (.unknownEnvelope d.envelope)

/-- The variants of a declared union from the `i`-th on. -/
def linkVariants (g : Graph) (tagged : Bool) : Nat → List VariantDecl →
    Result (List NodeId × Graph)
  | _, [] => .ok ([], g)
  | i, v :: vs => do
    let (t, g) ← Result.within ("variant " ++ Text.ofNat i) (g.resolve v.type)
    -- the name of a variant is its tag
    if tagged && v.name.isEmpty then Result.fail (.unnamedVariant i)
    else
      let (n, g) := g.push { kind := .unionVariant, name := v.name, type := some t }
      let (ns, g) ← g.linkVariants tagged (i + 1) vs
      .ok (n :: ns, g)

def linkUnion (g : Graph) (u : UnionDecl) : Result Graph :=
  Result.within ("union " ++ u.name.mentioned) do
    let discriminator := discriminatorOf u.discriminated
    checkEnvelope discriminator
    let (variants, g) ← g.linkVariants discriminator.isSome 0 u.variants
    .ok (g.modify (g.declared u.name) fun n =>
      { n with decorators := { doc := u.doc }, discriminator, variants })

def linkBodies (g : Graph) (d : Document) : Result Graph := do
  let g ← d.scalars.foldlM linkScalar g
  -- models may mention members
  let g := d.enums.foldl linkEnum g
  let g ← d.models.foldlM linkModel g
  d.unions.foldlM linkUnion g

/-! ### Copies -/

/-- The models still to be expanded, with what each one copies. -/
abbrev Copies := List (NodeId × TypeRef)

/-- Puts the shape of `src` in front of the own shape of `n`. -/
def copyShape (g : Graph) (n src : NodeId) : Graph :=
  let s := g.node src
  -- a base of its own stays, elements and keys do not
  g.modify n fun m =>
    { m with indexer := s.indexer, base := m.base.or s.base,
             properties := s.properties ++ m.properties }

/-- Expands a model after the model it copies. `visiting` holds the models whose expansion has
begun. -/
def expand : Nat → List NodeId → Graph → Copies → NodeId → Result (Graph × Copies)
  | 0, _, _, _, _ => Result.fail .diverges
  | fuel + 1, visiting, g, copies, n =>
    match copies.lookup n with
    | none => .ok (g, copies)
    | some source =>
      if visiting.contains n then Result.within "is" (Result.fail .baseCycle)
      else do
        let (src, g) ← Result.within "is" (g.resolve source)
        if (g.node src).kind != .model then Result.fail (.notAModel (g.nameOf src))
        else do
          let (g, copies) ← expand fuel (n :: visiting) g copies src
          .ok (g.copyShape n src, copies.filter fun c => c.1 != n)

def copiesOf (g : Graph) (ms : List ModelDecl) : Copies :=
  ms.filterMap fun m => m.source.map fun t => (g.declared m.name, t)

def expandCopies (g : Graph) (copies : Copies) : Result Graph := do
  let (g, _) ← g.declarations.foldlM (fun (g, copies) n =>
    Result.within ("model " ++ (g.nameOf n).mentioned)
      (expand (copies.length + 1) [] g copies n)) (g, copies)
  .ok g

/-! ### Documents -/

/-- The graph of a document. -/
def link (d : Document) : Result Graph := do
  let g ← declareNames d
  let g ← g.linkBodies d
  let g ← g.expandCopies (g.copiesOf d.models)
  g.checkBases
  .ok g

end Graph

end SchemaLoom

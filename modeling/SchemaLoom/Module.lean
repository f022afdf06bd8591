import SchemaLoom.Naming
import SchemaLoom.Text.Quoted

/-!
# Generated modules

The layout of expressions and of whole modules. Arguments stay on one line
unless there are several and one of them spans lines; an array stays on one
line while it fits.
-/

namespace SchemaLoom

/-- The widest array kept on one line, in bytes, its indentation included. -/
def maxInlineWidth : Nat := 80

/-- Indentation, two spaces a level. -/
def pad (indent : Nat) : Text := Text.spaces (2 * indent)

def hasBreak (t : Text) : Bool := t.hasChar '\n'

/-- A property name, quoted unless it is an identifier. -/
def propertyKey (name : Text) : Text :=
  if (name.chars?.map isIdentifier).getD false then name else name.quoteLiteral

/-- Items on one line. -/
def inlineItems (opening closing : Text) (items : List Text) : Text :=
  opening ++ Text.join ", " items ++ closing

/-- Items on a line each. -/
def brokenItems (opening closing : Text) (indent : Nat) (items : List Text) : Text :=
  opening ++ "\n" ++ pad (indent + 1) ++ Text.join (",\n" ++ pad (indent + 1)) items ++ "\n" ++
    pad indent ++ closing

/-- Arguments that need a line each: there are several, and one of them spans lines. -/
def needsLines (items : List Text) : Bool :=
  items.any hasBreak && decide (2 ≤ items.length)

/-- An array, given its elements one level deeper. -/
def layoutArray (indent : Nat) (items : List Text) : Text :=
  if items.isEmpty then "[]"
  else
    let single := inlineItems "[" "]" items
    if !items.any hasBreak && decide (2 * indent + single.size ≤ maxInlineWidth) then single
    else brokenItems "[" "]" indent items

/-- An object, given its properties one level deeper. -/
def layoutObject (indent : Nat) (props : List Text) : Text :=
  if props.isEmpty then "\x7b\x7d"
  else "\x7b\n" ++ Text.concat (props.map fun p => pad (indent + 1) ++ p ++ ",\n") ++
    pad indent ++ "\x7d"

namespace Expr

mutual
def print (names : NodeId → Text) : Expr → Nat → Text
  | ident name, _ => name
  | raw text, _ => text
  | nothing, _ => []
  | ref n, _ => names n
  | lazy n, _ => "z.lazy(() => " ++ names n ++ ")"
  | call name args, indent =>
    let items := printAll names args indent
    if needsLines items then
      name ++ brokenItems "(" ")" indent (printAll names args (indent + 1))
    else name ++ inlineItems "(" ")" items
  | chain parts, indent => Text.join "." (printAll names parts indent)
  | object props, indent => layoutObject indent (printProps names props (indent + 1))
  | array elems, indent => layoutArray indent (printAll names elems (indent + 1))

def printAll (names : NodeId → Text) : List Expr → Nat → List Text
  | [], _ => []
  | e :: es, indent => print names e indent :: printAll names es indent

def printProps (names : NodeId → Text) : List (Text × Expr) → Nat → List Text
  | [], _ => []
  | p :: ps, indent => printProp names p indent :: printProps names ps indent

def printProp (names : NodeId → Text) : Text × Expr → Nat → Text
  | (key, e), indent => propertyKey key ++ ": " ++ print names e indent
end

/-- The text of an expression, once every node it mentions has an identifier. -/
def render (names : NodeId → Result String) (e : Expr) : Result Text := do
  for n in e.targets do
    let _ ← names n
  .ok (print (fun n => Text.ofString ((names n).toOption.getD "")) e 0)

end Expr

structure Definition where
  node : NodeId
  name : Text
  expr : Expr
  deriving Repr, Inhabited

/-- Declares every definition in order. -/
def Namer.declareAll (nm : Namer) : List Definition → Result (List String × Namer)
  | [] => .ok ([], nm)
  | d :: ds => do
    let (id, nm) ← nm.declare d.node d.name
    let (ids, nm) ← nm.declareAll ds
    .ok (id :: ids, nm)

def declarationLines (id : String) (body : Text) (inferred? : Option String) : Text :=
  "\nexport const " ++ Text.ofString id ++ " = " ++ body ++ ";\n" ++
    match inferred? with
    | none => []
    | some t => "export type " ++ Text.ofString t ++ " = z.infer<typeof " ++
        Text.ofString id ++ ">;\n"

/-- A whole module. With `infer`, each declaration is followed by a type alias, named in the
type namespace by the plain style. `nameOf` gives the name of a node that is mentioned. -/
def renderModule (style : NamingStyle) (infer : Bool) (nameOf : NodeId → Text)
    (ds : List Definition) : Result Text := do
  let (ids, nm) ← Namer.declareAll ⟨style, []⟩ ds
  let (types, _) ← Namer.declareAll ⟨.plain, []⟩ ds
  let bodies ← ds.mapM fun d => d.expr.render fun n => nm.nameOf n (nameOf n)
  let decls := (ids.zip bodies).zip types |>.map fun ((id, body), t) =>
    declarationLines id body (if infer then some t else none)
  .ok ("import \x7b z \x7d from \"zod\";\n" ++ Text.concat decls)

end SchemaLoom

import Mathlib.Data.List.Chain
import Mathlib.Data.List.Forall2
import SchemaLoom.Module
import SchemaLoom.Proofs.StrictNames
import SchemaLoom.Proofs.StringLiterals

/-!
# Printed tokens

The tokens of an expression are read off the tree. Where its lines are broken and how deep they
are indented is decided from texts that were printed before, sometimes twice over, and none of
that is seen in the tokens: what is printed is always the same ones in the same order, with
spaces and line feeds between them.

What is written for a token is said without the printer: a property key stands bare where it is a
name, and where it is none a literal stands that reads as it. The text of a token is taken as it
is. A line break inside of it stays where it is.
-/

namespace SchemaLoom

set_option autoImplicit false

/-! ### Tokens -/

/-- A piece of source text that no layout looks into. -/
inductive Token where
  | mark (sign : String)
  /-- An identifier, or the name of what is called. -/
  | name (text : Text)
  /-- The declaration of a node, where it is referred to. -/
  | node (n : NodeId)
  | key (name : Text)
  /-- Finished source text. -/
  | raw (text : Text)

/-- What is written for a property key: the key as it is if it is a name, else a literal that
spells it, where a stray byte stands as the replacement character. -/
inductive KeyText (name : Text) : Text → Prop
  | bare : name.IsName → KeyText name name
  | quoted {literal : List Char} : ¬ name.IsName → StringLiteral.Spells literal name.toChars →
      KeyText name (Text.ofChars literal)

theorem isName_iff {t : Text} : t.IsName ↔ (t.chars?.map isIdentifier).getD false = true := by
  constructor
  · rintro ⟨cs, rfl, hcs⟩
    simpa [chars?_ofChars] using Binding.name_iff.mp hcs
  · intro h
    cases hcs : t.chars? with
    | none => simp [hcs] at h
    | some cs =>
      exact ⟨cs, eq_ofChars_of_chars? hcs, Binding.name_iff.mpr (by simpa [hcs] using h)⟩

theorem keyText_propertyKey (name : Text) : KeyText name (propertyKey name) := by
  unfold propertyKey
  split
  · next h => exact .bare (isName_iff.mpr h)
  · next h => exact .quoted (mt isName_iff.mp h) (StringLiteral.spells_quoteChars _)

namespace Token

/-- What is written for a token, once the nodes have identifiers. -/
inductive Writes (names : NodeId → Text) : Token → Text → Prop
  | mark (sign : String) : Writes names (.mark sign) (Text.ofString sign)
  | name (text : Text) : Writes names (.name text) text
  | node (n : NodeId) : Writes names (.node n) (names n)
  | key {name text : Text} : KeyText name text → Writes names (.key name) text
  | raw (text : Text) : Writes names (.raw text) text

/-- The text that is printed for a token. -/
def text (names : NodeId → Text) : Token → Text
  | mark sign => sign
  | name t | raw t => t
  | node n => names n
  | key t => propertyKey t

theorem writes_text (names : NodeId → Text) (t : Token) : Writes names t (t.text names) := by
  cases t with
  | key name => exact .key (keyText_propertyKey name)
  | mark | name | node | raw => constructor

def isMark : Token → Bool
  | mark _ => true
  | _ => false

def node? : Token → Option NodeId
  | node n => some n
  | _ => none

/-- Lists of tokens with a sign between neighbours. -/
def joined (sign : String) : List (List Token) → List Token
  | [] => []
  | [ts] => ts
  | ts :: us :: rest => ts ++ mark sign :: joined sign (us :: rest)

/-- A sign stands on one side wherever two tokens meet. -/
def Apart : List Token → Prop := List.IsChain fun a b => a.isMark = true ∨ b.isMark = true

theorem Apart.append_mark {ts us : List Token} (hts : Apart ts) (sign : String) (hus : Apart us) :
    Apart (ts ++ mark sign :: us) := by
  refine List.isChain_append.mpr ⟨hts, List.isChain_cons.mpr ⟨fun _ _ => .inl rfl, hus⟩, ?_⟩
  rintro _ _ _ ⟨⟩
  exact .inr rfl

theorem Apart.cons_mark {ts : List Token} (sign : String) (hts : Apart ts) :
    Apart (mark sign :: ts) := Apart.append_mark .nil sign hts

theorem Apart.cons_cons_mark {ts : List Token} (t : Token) (sign : String) (hts : Apart ts) :
    Apart (t :: mark sign :: ts) := Apart.append_mark (.singleton t) sign hts

theorem apart_joined (sign : String) {tss : List (List Token)} (h : ∀ ts ∈ tss, Apart ts) :
    Apart (joined sign tss) := by
  induction tss with
  | nil => exact .nil
  | cons ts tss ih =>
    obtain ⟨hts, htss⟩ := List.forall_mem_cons.mp h
    cases tss with
    | nil => exact hts
    | cons us rest => exact hts.append_mark sign (ih htss)

theorem filterMap_joined (sign : String) (tss : List (List Token)) :
    (joined sign tss).filterMap node? = tss.flatMap (List.filterMap node?) := by
  induction tss with
  | nil => rfl
  | cons ts tss ih =>
    cases tss with
    | nil => simp [joined]
    | cons us rest => simp [joined, List.filterMap_cons, node?, ih]

end Token

namespace Expr

mutual
/-- The tokens of an expression, with nothing decided about their layout. -/
def tokens : Expr → List Token
  | ident name => [.name name]
  | raw text => [.raw text]
  | nothing => []
  | ref n => [.node n]
  | lazy n =>
    [.name "z", .mark ".", .name "lazy", .mark "(", .mark "(", .mark ")", .mark "=>", .node n,
      .mark ")"]
  | call name args => .name name :: .mark "(" :: Token.joined "," (tokensAll args) ++ [.mark ")"]
  | chain parts => Token.joined "." (tokensAll parts)
  | object props => .mark "\x7b" :: tokensProps props ++ [.mark "\x7d"]
  | array elems => .mark "[" :: Token.joined "," (tokensAll elems) ++ [.mark "]"]

def tokensAll : List Expr → List (List Token)
  | [] => []
  | e :: es => tokens e :: tokensAll es

/-- Every property ends with a comma, the last one too. -/
def tokensProps : List (Text × Expr) → List Token
  | [] => []
  | p :: ps => tokensProp p ++ .mark "," :: tokensProps ps

def tokensProp : Text × Expr → List Token
  | (key, e) => .key key :: .mark ":" :: tokens e
end

mutual
/-- The nodes among the tokens are the ones that the expression mentions. -/
theorem nodes_tokens : ∀ e : Expr, e.tokens.filterMap Token.node? = e.targets
  | ident _ | raw _ | nothing | ref _ | lazy _ => rfl
  | call _ args => by
    simp [tokens, targets, List.filterMap_cons, Token.node?, Token.filterMap_joined,
      nodes_tokensAll args]
  | chain parts => by simp [tokens, targets, Token.filterMap_joined, nodes_tokensAll parts]
  | object props => by
    simp [tokens, targets, List.filterMap_cons, Token.node?, nodes_tokensProps props]
  | array elems => by
    simp [tokens, targets, List.filterMap_cons, Token.node?, Token.filterMap_joined,
      nodes_tokensAll elems]

theorem nodes_tokensAll : ∀ es : List Expr,
    (tokensAll es).flatMap (List.filterMap Token.node?) = targetsOf es
  | [] => rfl
  | e :: es => by simp [tokensAll, targetsOf, nodes_tokens e, nodes_tokensAll es]

theorem nodes_tokensProps : ∀ ps : List (Text × Expr),
    (tokensProps ps).filterMap Token.node? = targetsOfProps ps
  | [] => rfl
  | p :: ps => by
    simp [tokensProps, targetsOfProps, List.filterMap_cons, Token.node?, nodes_tokensProp p,
      nodes_tokensProps ps]

theorem nodes_tokensProp : ∀ p : Text × Expr,
    (tokensProp p).filterMap Token.node? = targetsOfProp p
  | (_, e) => by
    simp [tokensProp, targetsOfProp, List.filterMap_cons, Token.node?, nodes_tokens e]
end

theorem mem_targets_of_mem_tokens {e : Expr} {n : NodeId} (h : Token.node n ∈ e.tokens) :
    n ∈ e.targets := by
  rw [← e.nodes_tokens]
  exact List.mem_filterMap.mpr ⟨_, h, rfl⟩

end Expr

/-! ### Texts that consist of tokens -/

/-- Nothing but spaces and line feeds. -/
def Blank (t : Text) : Prop := ∀ r ∈ t, r = .char ' ' ∨ r = .char '\n'

/-- A text that consists of tokens, with nothing but blanks before, between and behind them. -/
inductive Spaced (text : Token → Text) : List Token → Text → Prop
  | nil {gap : Text} : Blank gap → Spaced text [] gap
  | cons {gap rest : Text} {t : Token} {ts : List Token} : Blank gap → Spaced text ts rest →
      Spaced text (t :: ts) (gap ++ text t ++ rest)

instance (t : Text) : Decidable (Blank t) :=
  inferInstanceAs (Decidable (∀ r ∈ t, r = .char ' ' ∨ r = .char '\n'))

theorem Blank.append {s t : Text} (hs : Blank s) (ht : Blank t) : Blank (s ++ t) :=
  List.forall_mem_append.mpr ⟨hs, ht⟩

theorem blank_pad (indent : Nat) : Blank (pad indent) :=
  fun _ hr => .inl (List.eq_of_mem_replicate hr)

theorem blank_space : Blank (Text.ofString " ") := by decide

theorem blank_lineFeed : Blank (Text.ofString "\n") := by decide

/-- A text that consists of tokens in the way they are printed. -/
abbrev Prints (names : NodeId → Text) : List Token → Text → Prop := Spaced (Token.text names)

namespace Spaced

section Parts
variable {text : Token → Text} {ss ts : List Token} {s t gap : Text}

theorem single (t : Token) : Spaced text [t] (text t) := by
  have hnil : Blank [] := nofun
  have hcons : Spaced text [t] ([] ++ text t ++ []) := .cons hnil (.nil hnil)
  simpa using hcons

theorem blank_append (hgap : Blank gap) (h : Spaced text ts t) : Spaced text ts (gap ++ t) := by
  cases h with
  | nil hmore => exact .nil (hgap.append hmore)
  | cons hmore hrest =>
    rw [← List.append_assoc, ← List.append_assoc]
    exact .cons (hgap.append hmore) hrest

theorem append (hs : Spaced text ss s) (ht : Spaced text ts t) :
    Spaced text (ss ++ ts) (s ++ t) := by
  induction hs with
  | nil hgap => exact ht.blank_append hgap
  | cons hgap _ ih =>
    rw [List.append_assoc, List.cons_append]
    exact .cons hgap ih

theorem append_blank (h : Spaced text ts t) (hgap : Blank gap) : Spaced text ts (t ++ gap) := by
  simpa using h.append (.nil hgap)

end Parts

theorem mark_blank {names : NodeId → Text} (sign gap : String) (hgap : Blank gap) :
    Prints names [.mark sign] (Text.ofString sign ++ Text.ofString gap) :=
  (single (.mark sign)).append_blank hgap

end Spaced

/-- A text that is printed for an expression: what is written for its tokens, in their order and
with nothing but blanks between them. -/
def Expr.Printed (names : NodeId → Text) (e : Expr) (t : Text) : Prop :=
  ∃ text : Token → Text, (∀ x, Token.Writes names x (text x)) ∧ Spaced text e.tokens t

section Items
variable (names : NodeId → Text)

/-- A declaration that is looked up when it is used. -/
theorem spaced_lazy (n : NodeId) :
    Prints names (Expr.lazy n).tokens ("z.lazy(() => " ++ names n ++ ")") := by
  have harrow : Prints names [.mark "=>"] (Text.ofString " => ") :=
    .blank_append blank_space (.mark_blank "=>" " " blank_space)
  have hcall : Prints names [.name "z", .mark ".", .name "lazy", .mark "(", .mark "(", .mark ")"]
      (Text.ofString "z.lazy(()") :=
    .append (.single (.name "z")) <| .append (.single (.mark ".")) <|
      .append (.single (.name "lazy")) <| .append (.single (.mark "(")) <|
      .append (.single (.mark "(")) (.single (.mark ")"))
  exact ((hcall.append harrow).append (.single (.node n))).append (.single (.mark ")"))

/-! ### Lists of items -/

variable {names} {tss : List (List Token)} {items : List Text}

theorem spaced_join {sign : String} {sep : Text} (hsep : Prints names [.mark sign] sep)
    (h : List.Forall₂ (Prints names) tss items) :
    Prints names (Token.joined sign tss) (Text.join sep items) := by
  induction h with
  | nil => exact .nil nofun
  | @cons ts item tss items hitem htail ih =>
    cases htail with
    | nil => exact hitem
    | cons _ _ =>
      rw [Token.joined, Text.join, List.append_cons]
      exact (hitem.append hsep).append ih

theorem spaced_inlineItems (opening closing : String) (h : List.Forall₂ (Prints names) tss items) :
    Prints names (.mark opening :: Token.joined "," tss ++ [.mark closing])
      (inlineItems opening closing items) := by
  have hsep : Prints names [.mark ","] (Text.ofString ", ") := .mark_blank "," " " blank_space
  exact ((Spaced.single (.mark opening)).append (spaced_join hsep h)).append
    (.single (.mark closing))

theorem spaced_brokenItems (opening closing : String) (indent : Nat)
    (h : List.Forall₂ (Prints names) tss items) :
    Prints names (.mark opening :: Token.joined "," tss ++ [.mark closing])
      (brokenItems opening closing indent items) := by
  have hsep : Prints names [.mark ","] (",\n" ++ pad (indent + 1)) :=
    .append_blank (.mark_blank "," "\n" blank_lineFeed) (blank_pad (indent + 1))
  have hopening : Prints names [.mark opening]
      (opening ++ Text.ofString "\n" ++ pad (indent + 1)) :=
    .append_blank (.mark_blank opening "\n" blank_lineFeed) (blank_pad (indent + 1))
  have hitems := ((hopening.append (spaced_join hsep h)).append_blank blank_lineFeed).append_blank
    (blank_pad indent)
  exact hitems.append (.single (.mark closing))

theorem spaced_layoutArray (indent : Nat) (h : List.Forall₂ (Prints names) tss items) :
    Prints names (.mark "[" :: Token.joined "," tss ++ [.mark "]"]) (layoutArray indent items) := by
  unfold layoutArray
  split
  · rename_i hempty
    obtain rfl := List.isEmpty_iff.mp hempty
    cases h
    exact spaced_inlineItems "[" "]" .nil
  · dsimp only
    split
    · exact spaced_inlineItems "[" "]" h
    · exact spaced_brokenItems "[" "]" indent h

theorem spaced_lines (indent : Nat) {tss : List (List Token)} {props : List Text}
    (h : List.Forall₂ (Prints names) tss props) :
    Prints names (tss.flatMap (· ++ [.mark ","]))
      (Text.concat (props.map fun p => pad indent ++ p ++ ",\n")) := by
  have hend : Prints names [.mark ","] (Text.ofString ",\n") := .mark_blank "," "\n" blank_lineFeed
  induction h with
  | nil => exact .nil nofun
  | cons hprop _ ih =>
    have hline := ((hprop.blank_append (blank_pad indent)).append hend).append ih
    simpa [Text.concat] using hline

theorem spaced_layoutObject (indent : Nat) (h : List.Forall₂ (Prints names) tss items) :
    Prints names (.mark "\x7b" :: tss.flatMap (· ++ [.mark ","]) ++ [.mark "\x7d"])
      (layoutObject indent items) := by
  unfold layoutObject
  split
  · rename_i hempty
    obtain rfl := List.isEmpty_iff.mp hempty
    cases h
    exact (Spaced.single (.mark "\x7b")).append (.single (.mark "\x7d"))
  · have hopening : Prints names [.mark "\x7b"] (Text.ofString "\x7b" ++ Text.ofString "\n") :=
      .mark_blank _ _ blank_lineFeed
    exact ((hopening.append (spaced_lines (indent + 1) h)).append_blank (blank_pad indent)).append
      (.single (.mark "\x7d"))

end Items

/-! ### Expressions -/

namespace Expr

theorem tokensProps_eq (ps : List (Text × Expr)) :
    tokensProps ps = (ps.map tokensProp).flatMap (· ++ [.mark ","]) := by
  induction ps with
  | nil => rfl
  | cons p ps ih => simp [tokensProps, ih]

section Print
variable (names : NodeId → Text)

mutual
theorem spaced_print : ∀ (e : Expr) (indent : Nat), Prints names e.tokens (e.print names indent)
  | ident name, _ => .single (.name name)
  | raw text, _ => .single (.raw text)
  | nothing, _ => .nil nofun
  | ref n, _ => .single (.node n)
  | lazy n, _ => spaced_lazy names n
  | call name args, indent => by
    rw [tokens, print]
    split
    · exact (Spaced.single (.name name)).append
        (spaced_brokenItems "(" ")" indent (spaced_printAll args (indent + 1)))
    · exact (Spaced.single (.name name)).append
        (spaced_inlineItems "(" ")" (spaced_printAll args indent))
  | chain parts, indent => spaced_join (.single (.mark ".")) (spaced_printAll parts indent)
  | object props, indent => by
    rw [tokens, print, tokensProps_eq]
    exact spaced_layoutObject indent (spaced_printProps props (indent + 1))
  | array elems, indent => spaced_layoutArray indent (spaced_printAll elems (indent + 1))

theorem spaced_printAll : ∀ (es : List Expr) (indent : Nat),
    List.Forall₂ (Prints names) (tokensAll es) (printAll names es indent)
  | [], _ => .nil
  | e :: es, indent => .cons (spaced_print e indent) (spaced_printAll es indent)

theorem spaced_printProps : ∀ (ps : List (Text × Expr)) (indent : Nat),
    List.Forall₂ (Prints names) (ps.map tokensProp) (printProps names ps indent)
  | [], _ => .nil
  | p :: ps, indent => .cons (spaced_printProp p indent) (spaced_printProps ps indent)

theorem spaced_printProp : ∀ (p : Text × Expr) (indent : Nat),
    Prints names (tokensProp p) (printProp names p indent)
  | (key, e), indent => by
    have hcolon : Prints names [.mark ":"] (Text.ofString ": ") := .mark_blank ":" " " blank_space
    exact ((Spaced.single (.key key)).append hcolon).append (spaced_print e indent)
end

theorem printed_print (e : Expr) (indent : Nat) : e.Printed names (e.print names indent) :=
  ⟨Token.text names, Token.writes_text names, e.spaced_print names indent⟩

end Print

mutual
theorem apart_tokens : ∀ e : Expr, Token.Apart e.tokens
  | ident _ | raw _ | ref _ => .singleton _
  | nothing => .nil
  | lazy _ =>
    .cons_cons_mark _ "." <| .cons_cons_mark _ "(" <| .cons_mark "(" <| .cons_mark ")" <|
      .cons_mark "=>" <| .cons_cons_mark _ ")" .nil
  | call _ args =>
    .cons_cons_mark _ "(" <| .append_mark (Token.apart_joined "," (apart_tokensAll args)) ")" .nil
  | chain parts => Token.apart_joined "." (apart_tokensAll parts)
  | object props => .cons_mark "\x7b" (.append_mark (apart_tokensProps props) "\x7d" .nil)
  | array elems =>
    .cons_mark "[" (.append_mark (Token.apart_joined "," (apart_tokensAll elems)) "]" .nil)

theorem apart_tokensAll : ∀ (es : List Expr), ∀ ts ∈ tokensAll es, Token.Apart ts
  | [] => nofun
  | e :: es => List.forall_mem_cons.mpr ⟨apart_tokens e, apart_tokensAll es⟩

theorem apart_tokensProps : ∀ ps : List (Text × Expr), Token.Apart (tokensProps ps)
  | [] => .nil
  | p :: ps => (apart_tokensProp p).append_mark "," (apart_tokensProps ps)

theorem apart_tokensProp : ∀ p : Text × Expr, Token.Apart (tokensProp p)
  | (_, e) => .cons_cons_mark _ ":" (apart_tokens e)
end

/-- Every token has one text, and at every indentation what is printed for an expression consists
of the texts of its tokens, in their order and with nothing but blanks between them. No two of
them but signs are neighbours, so none runs into the next one where there is no blank. -/
theorem print_spaced (names : NodeId → Text) : ∃ text : Token → Text,
    (∀ x, Token.Writes names x (text x)) ∧
    ∀ e : Expr, (∀ indent, Spaced text e.tokens (e.print names indent)) ∧ Token.Apart e.tokens :=
  ⟨Token.text names, Token.writes_text names, fun e => ⟨e.spaced_print names, e.apart_tokens⟩⟩

end Expr

end SchemaLoom

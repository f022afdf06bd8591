import SchemaLoom.Proofs.FreshNames
import SchemaLoom.Proofs.Occurrence
import SchemaLoom.Proofs.PrintedTokens

/-!
# Identifiers of a module

Every definition of a module gets an identifier of its own, legal and not reserved,
and whatever refers to the definition spells that identifier. The aliases of the
inferred types are numbered apart from the identifiers, and they too differ from each
other. The lines of a module are set down on their own, and what a reference is written
as is told by the tokens of its expression.

Names that differ may be sanitised or recased into one, and a number chosen for a
collision may itself be a later name, so nothing is said about which definition keeps
its name unnumbered.
-/

namespace SchemaLoom

set_option autoImplicit false

/-! ### Legal identifiers -/

/-- An identifier that may be declared. -/
structure Legal (id : String) : Prop where
  shape : isIdentifier id.toList = true
  free : id ∉ reservedWords

theorem isAlpha_of_mem_reservedWords {w : String} (hw : w ∈ reservedWords) {c : Char}
    (hc : c ∈ w.toList) : c.isAlpha = true := by
  have hall : reservedWords.all (·.toList.all Char.isAlpha) = true := by decide +kernel
  exact List.all_eq_true.mp (List.all_eq_true.mp hall w hw) c hc

/-- Reserved words are made of letters, so anything else at the end of an identifier frees it. -/
theorem legal_append {cs ds : List Char} (hcs : isIdentifier cs = true)
    (hds : ∀ c ∈ ds, isIdentPart c = true) (hfree : ∃ c ∈ ds, c.isAlpha = false) :
    Legal (String.ofList (cs ++ ds)) where
  shape := by
    rw [String.toList_ofList]
    exact isIdentifier_append hcs hds
  free := by
    intro hmem
    obtain ⟨c, hc, hnot⟩ := hfree
    have halpha := isAlpha_of_mem_reservedWords hmem (c := c) (by simp [hc])
    rw [hnot] at halpha
    cases halpha

theorem isIdentPart_of_mem_identChars {t : Text} {c : Char} (h : c ∈ identChars t) :
    isIdentPart c = true := by
  obtain ⟨r, _, rfl⟩ := List.mem_map.mp h
  split
  · assumption
  · rfl

theorem isIdentifier_leadIdent {cs : List Char} (h : ∀ c ∈ cs, isIdentPart c = true) :
    isIdentifier (leadIdent cs) = true := by
  cases cs with
  | nil => rfl
  | cons c cs =>
    have hc := h c List.mem_cons_self
    have hcs : cs.all isIdentPart = true :=
      List.all_eq_true.mpr fun d hd => h d (List.mem_cons_of_mem c hd)
    rw [leadIdent]
    split
    · simp only [isIdentifier, List.all_cons, hc, hcs]
      rfl
    · rename_i hdigit
      simp only [isIdentPart, Char.isAlphanum] at hc
      simp only [isIdentifier, isIdentStart, hcs, Bool.and_true]
      simpa [hdigit] using hc

theorem legal_identifier (t : Text) : Legal (identifier t) := by
  have hshape : isIdentifier (leadIdent (identChars t)) = true :=
    isIdentifier_leadIdent fun _ => isIdentPart_of_mem_identChars
  unfold identifier unreserve
  split
  · apply legal_append hshape
    · intro c hc
      rw [List.mem_singleton.mp hc]
      rfl
    · exact ⟨'_', List.mem_singleton_self _, rfl⟩
  · rename_i hfree
    exact ⟨by rwa [String.toList_ofList], by simpa using hfree⟩

theorem legal_of_apply {style : NamingStyle} {t : Text} {id : String}
    (h : style.apply t = .ok id) : Legal id := by
  cases style with
  | plain =>
    cases h
    exact legal_identifier t
  | pascalSchema =>
    cases h
    exact legal_identifier _
  | camel =>
    simp only [NamingStyle.apply] at h
    split at h
    · cases h
      exact legal_identifier _
    · cases h

/-! ### New identifiers -/

namespace Namer

theorem ofString_append (s t : String) :
    Text.ofString (s ++ t) = Text.ofString s ++ Text.ofString t := by
  simp [Text.ofString, Text.ofChars, String.toList_append]

theorem append_toString_injective {base : String} {a b : Nat}
    (h : base ++ toString a = base ++ toString b) : a = b := by
  have htext := congrArg Text.ofString h
  rw [ofString_append, ofString_append] at htext
  exact Text.ofNat_injective (List.append_cancel_left htext)

theorem append_toString_ne (base : String) (a : Nat) : base ++ toString a ≠ base := by
  intro h
  have htext := congrArg Text.ofString h
  rw [ofString_append] at htext
  exact Text.ofNat_ne_nil a (List.append_right_eq_self.mp htext)

/-- Numbers are tried in turn; only where all of them are taken, a taken one is returned. -/
theorem suffixed_spec (base : String) (used : List String) (fuel i : Nat) :
    ∃ j : Nat, suffixed base used fuel i = base ++ toString j ∧
      (base ++ toString j ∈ used →
        ∀ k : Nat, i ≤ k → k < i + (fuel + 1) → base ++ toString k ∈ used) := by
  induction fuel generalizing i with
  | zero =>
    refine ⟨i, rfl, ?_⟩
    intro hmem k hle hlt
    have hk : k = i := by omega
    exact hk ▸ hmem
  | succ fuel ih =>
    rw [suffixed]
    by_cases hmem : base ++ toString i ∈ used
    · rw [if_pos (by simpa using hmem)]
      obtain ⟨j, heq, hall⟩ := ih (i + 1)
      refine ⟨j, heq, ?_⟩
      intro hj k hle hlt
      rcases Nat.eq_or_lt_of_le hle with rfl | hlt'
      · exact hmem
      · exact hall hj k hlt' (by omega)
    · rw [if_neg (by simpa using hmem)]
      exact ⟨i, rfl, fun h => absurd h hmem⟩

theorem fresh_eq (base : String) (used : List String) :
    fresh base used = base ∨ ∃ j : Nat, fresh base used = base ++ toString j := by
  unfold fresh
  split
  · obtain ⟨j, heq, _⟩ := suffixed_spec base used used.length 2
    exact .inr ⟨j, heq⟩
  · exact .inl rfl

theorem fresh_not_mem (base : String) (used : List String) : fresh base used ∉ used := by
  unfold fresh
  by_cases hbase : base ∈ used
  · rw [if_pos (by simpa using hbase)]
    obtain ⟨j, heq, hall⟩ := suffixed_spec base used used.length 2
    intro hmem
    rw [heq] at hmem
    have hlt := lt_length_of_numbered (fun a b => append_toString_injective)
      (append_toString_ne base) hbase (hall hmem)
    omega
  · rw [if_neg (by simpa using hbase)]
    exact hbase

theorem isAlpha_of_isDigit {c : Char} (h : c.isDigit = true) : c.isAlpha = false := by
  simp only [Char.isDigit, Bool.and_eq_true, decide_eq_true_eq, ge_iff_le, UInt32.le_iff_toNat_le]
    at h
  delta Char.isAlpha Char.isUpper Char.isLower
  simp only [Bool.or_eq_false_iff, Bool.and_eq_false_iff, decide_eq_false_iff_not, ge_iff_le,
    UInt32.le_iff_toNat_le]
  have hnine : '9'.val.toNat = 57 := rfl
  have hupper : 'A'.val.toNat = 65 := rfl
  have hlower : 'a'.val.toNat = 97 := rfl
  omega

theorem legal_fresh {base : String} (h : Legal base) (used : List String) :
    Legal (fresh base used) := by
  rcases fresh_eq base used with heq | ⟨j, heq⟩
  · rwa [heq]
  · have hdigit : ∀ c ∈ Nat.toDigits 10 j, c.isDigit = true := fun c hc =>
      Nat.isDigit_of_mem_toDigits (by decide) (by decide) hc
    have hlist : base ++ toString j = String.ofList (base.toList ++ Nat.toDigits 10 j) := by
      rw [← String.toList_inj, String.toList_append, String.toList_ofList, Nat.toString_eq_repr,
        Nat.toList_repr]
    rw [heq, hlist]
    apply legal_append h.shape
    · intro c hc
      simp [isIdentPart, Char.isAlphanum, hdigit c hc]
    · obtain ⟨c, hc⟩ := List.exists_mem_of_ne_nil _ (Nat.toDigits_ne_nil (n := j) (b := 10))
      exact ⟨c, hc, isAlpha_of_isDigit (hdigit c hc)⟩

/-! ### Declaring definitions -/

theorem declare_eq_ok {nm : Namer} {n : NodeId} {name : Text} {base : String}
    (hn : n ∉ nm.names.map (·.1)) (hbase : nm.style.apply name = .ok base) :
    nm.declare n name =
      .ok (fresh base nm.used, { nm with names := nm.names ++ [(n, fresh base nm.used)] }) := by
  have hnone : nm.names.lookup n = none := by
    rw [List.lookup_eq_none_iff]
    intro p hp
    simp only [bne_iff_ne]
    intro heq
    exact hn (List.mem_map.mpr ⟨p, hp, heq.symm⟩)
  rw [declare, hnone]
  simp only [hbase]
  rfl

/-- The identifiers given out are legal, and no two nodes share one. -/
structure Apart (nm : Namer) : Prop where
  legal : ∀ id ∈ nm.used, Legal id
  nodup : nm.used.Nodup

theorem Apart.push {nm : Namer} (h : nm.Apart) (n : NodeId) {base : String} (hbase : Legal base) :
    ({ nm with names := nm.names ++ [(n, fresh base nm.used)] } : Namer).Apart := by
  have hused : ({ nm with names := nm.names ++ [(n, fresh base nm.used)] } : Namer).used =
      nm.used ++ [fresh base nm.used] := by
    simp [used]
  constructor
  · intro id hid
    rw [hused, List.mem_append, List.mem_singleton] at hid
    rcases hid with hid | rfl
    · exact h.legal id hid
    · exact legal_fresh hbase _
  · rw [hused]
    exact List.nodup_append_comm.mp (List.nodup_cons.mpr ⟨fresh_not_mem _ _, h.nodup⟩)

/-- Definitions of new nodes get identifiers one after the other. -/
theorem declareAll_eq_ok {ds : List Definition} {nm : Namer} (hnm : nm.Apart)
    (happly : ∀ d ∈ ds, ∃ id, nm.style.apply d.name = .ok id)
    (hnodup : (nm.names.map (·.1) ++ ds.map (·.node)).Nodup) :
    ∃ ids nm', nm.declareAll ds = .ok (ids, nm') ∧ nm'.Apart ∧ nm'.style = nm.style ∧
      ids.length = ds.length ∧ nm'.names = nm.names ++ (ds.map (·.node)).zip ids := by
  induction ds generalizing nm with
  | nil => exact ⟨[], nm, rfl, hnm, rfl, rfl, by simp⟩
  | cons d ds ih =>
    obtain ⟨base, hbase⟩ := happly d List.mem_cons_self
    have hnew : d.node ∉ nm.names.map (·.1) := by
      intro hmem
      exact (List.nodup_append.mp hnodup).2.2 _ hmem d.node List.mem_cons_self rfl
    have hdeclare := declare_eq_ok hnew hbase
    obtain ⟨ids, nm', hids, hapart, hstyle, hlen, hnames⟩ :=
      ih (hnm.push d.node (legal_of_apply hbase))
        (fun d' hd' => happly d' (List.mem_cons_of_mem d hd')) (by simpa using hnodup)
    refine ⟨fresh base nm.used :: ids, nm', ?_, hapart, hstyle, by simp [hlen], ?_⟩
    · rw [declareAll, hdeclare]
      simp only [bind, Except.bind, hids]
    · rw [hnames]
      simp

/-- The identifier of a node that has one. -/
def label (nm : Namer) (n : NodeId) : String := (nm.names.lookup n).getD ""

theorem lookup_zip {ns : List NodeId} {ids : List String} (hlen : ids.length = ns.length)
    (hnodup : ns.Nodup) : ns.map (fun n => (ns.zip ids).lookup n) = ids.map some := by
  induction ns generalizing ids with
  | nil => simpa using hlen
  | cons n ns ih =>
    obtain _ | ⟨id, ids⟩ := ids
    · cases hlen
    · obtain ⟨hn, hns⟩ := List.nodup_cons.mp hnodup
      have hrest : ns.map (fun m => ((n :: ns).zip (id :: ids)).lookup m) =
          ns.map fun m => (ns.zip ids).lookup m := by
        apply List.map_congr_left
        intro m hm
        have hne : (m == n) = false := beq_false_of_ne fun heq => hn (heq ▸ hm)
        simp [List.lookup_cons, hne]
      rw [List.map_cons, hrest, ih (by simpa using hlen) hns]
      simp

/-- What is printed for a node. One that was never declared is named by the style alone. -/
def printed (nm : Namer) (nameOf : NodeId → Text) (n : NodeId) : String :=
  (nm.nameOf n (nameOf n)).toOption.getD ""

theorem nameOf_of_lookup {nm : Namer} {n : NodeId} (h : nm.names.lookup n = some (nm.label n))
    (name : Text) : nm.nameOf n name = .ok (nm.label n) := by
  rw [nameOf, h]

theorem printed_of_lookup {nm : Namer} {n : NodeId} (h : nm.names.lookup n = some (nm.label n))
    (nameOf : NodeId → Text) : nm.printed nameOf n = nm.label n := by
  rw [printed, nameOf_of_lookup h]
  rfl

/-- A run over definitions of different nodes, all of which have an identifier in the style. -/
theorem declareAll_label {style : NamingStyle} {ds : List Definition}
    (happly : ∀ d ∈ ds, ∃ id, style.apply d.name = .ok id) (hnodup : (ds.map (·.node)).Nodup) :
    ∃ nm : Namer, declareAll ⟨style, []⟩ ds = .ok (ds.map fun d => nm.label d.node, nm) ∧
      (∀ d ∈ ds, nm.names.lookup d.node = some (nm.label d.node)) ∧
      (∀ d ∈ ds, Legal (nm.label d.node)) ∧ (ds.map fun d => nm.label d.node).Nodup := by
  have hempty : (⟨style, []⟩ : Namer).Apart := ⟨by simp [used], by simp [used]⟩
  obtain ⟨ids, nm, hids, hapart, _, hlen, hnames⟩ :=
    declareAll_eq_ok hempty happly (by simpa using hnodup)
  have hlookup := lookup_zip (by simpa using hlen) hnodup
  rw [List.nil_append] at hnames
  rw [← hnames, List.map_map] at hlookup
  have hlabel : ids = ds.map fun d => nm.label d.node := by
    have hget := congrArg (List.map (·.getD "")) hlookup
    simpa [label, Function.comp_def] using hget.symm
  have hused : nm.used = ids := by
    rw [used, hnames]
    exact List.map_snd_zip (by simp [hlen])
  subst hlabel
  refine ⟨nm, hids, ?_, ?_, hused ▸ hapart.nodup⟩
  · intro d hd
    rw [List.map_map] at hlookup
    exact List.map_inj_left.mp hlookup d hd
  · intro d hd
    exact hapart.legal _ (hused ▸ List.mem_map_of_mem hd)

end Namer

/-! ### Rendering -/

namespace Expr

section Targets
variable {P : NodeId → Prop}

mutual
theorem Keeps.of_mem_targets : ∀ {e : Expr}, e.Keeps P P → ∀ n ∈ e.targets, P n
  | ident _, _, n, hn => by simp [targets] at hn
  | raw _, _, n, hn => by simp [targets] at hn
  | nothing, _, n, hn => by simp [targets] at hn
  | ref m, h, n, hn => by
    rw [targets, List.mem_singleton] at hn
    exact h.now n (hn ▸ .here)
  | lazy m, h, n, hn => by
    rw [targets, List.mem_singleton] at hn
    exact h.later n (hn ▸ .here)
  | call _ args, h, n, hn => by
    rw [targets] at hn
    exact KeepsAll.of_mem_targetsOf (keeps_call.mp h) n hn
  | chain ps, h, n, hn => by
    rw [targets] at hn
    exact KeepsAll.of_mem_targetsOf (keeps_chain.mp h) n hn
  | array elems, h, n, hn => by
    rw [targets] at hn
    exact KeepsAll.of_mem_targetsOf (keeps_array.mp h) n hn
  | object props, h, n, hn => by
    rw [targets] at hn
    exact of_mem_targetsOfProps (keeps_object.mp h) n hn

theorem KeepsAll.of_mem_targetsOf : ∀ {es : List Expr}, KeepsAll P P es → ∀ n ∈ targetsOf es, P n
  | [], _, n, hn => by simp [targetsOf] at hn
  | e :: es, h, n, hn => by
    obtain ⟨he, hes⟩ := keepsAll_cons.mp h
    rw [targetsOf, List.mem_append] at hn
    rcases hn with hn | hn
    · exact he.of_mem_targets n hn
    · exact hes.of_mem_targetsOf n hn

theorem of_mem_targetsOfProps : ∀ {ps : List (Text × Expr)}, (∀ p ∈ ps, p.2.Keeps P P) →
    ∀ n ∈ targetsOfProps ps, P n
  | [], _, n, hn => by simp [targetsOfProps] at hn
  | (_, e) :: ps, h, n, hn => by
    rw [targetsOfProps, targetsOfProp, List.mem_append] at hn
    rcases hn with hn | hn
    · exact (h _ List.mem_cons_self).of_mem_targets n hn
    · exact of_mem_targetsOfProps (fun p hp => h p (List.mem_cons_of_mem _ hp)) n hn
end

end Targets

theorem render_eq_ok {names : NodeId → Result String} {e : Expr}
    (h : ∀ n ∈ e.targets, ∃ id, names n = .ok id) :
    e.render names = .ok (e.print (fun n => Text.ofString ((names n).toOption.getD "")) 0) := by
  have hloop : ∀ ns : List NodeId, (∀ n ∈ ns, ∃ id, names n = .ok id) →
      (forIn ns PUnit.unit fun n _ => do
        let _ ← names n
        pure (ForInStep.yield PUnit.unit)) = (.ok PUnit.unit : Result PUnit) := by
    intro ns hns
    induction ns with
    | nil => rfl
    | cons n ns ih =>
      obtain ⟨id, hid⟩ := hns n List.mem_cons_self
      rw [List.forIn_cons, hid]
      exact ih fun m hm => hns m (List.mem_cons_of_mem n hm)
  rw [render, hloop _ h]
  rfl

end Expr

/-! ### The lines of a module -/

/-- The declaration of an identifier, behind an empty line. -/
def exportLine (id : String) (body : Text) : Text :=
  "\nexport const " ++ Text.ofString id ++ " = " ++ body ++ ";\n"

/-- The alias of the type that is inferred for an identifier. -/
def aliasLine (typeId id : String) : Text :=
  "export type " ++ Text.ofString typeId ++ " = z.infer<typeof " ++ Text.ofString id ++ ">;\n"

/-- The lines that declare definitions in their order, each with a text that is printed for its
expression, and with `infer` the alias of its type behind it. Whatever refers to a node is written
as the identifier of the node. -/
inductive Declares (infer : Bool) (id typeId : NodeId → String) : List Definition → Text → Prop
  | nil : Declares infer id typeId [] []
  | cons {d : Definition} {ds : List Definition} {body rest : Text} :
      d.expr.Printed (fun n => Text.ofString (id n)) body → Declares infer id typeId ds rest →
      Declares infer id typeId (d :: ds)
        (exportLine (id d.node) body ++
          (if infer then aliasLine (typeId d.node) (id d.node) else []) ++ rest)

theorem declarationLines_eq (infer : Bool) (id typeId : String) (body : Text) :
    declarationLines id body (if infer then some typeId else none) =
      exportLine id body ++ (if infer then aliasLine typeId id else []) := by
  cases infer <;> rfl

theorem declares_declarationLines (infer : Bool) (id typeId : NodeId → String)
    (ds : List Definition) :
    Declares infer id typeId ds (Text.concat (ds.map fun d =>
      declarationLines (id d.node) (d.expr.print (fun n => Text.ofString (id n)) 0)
        (if infer then some (typeId d.node) else none))) := by
  induction ds with
  | nil => exact .nil
  | cons d ds ih =>
    rw [List.map_cons, Text.concat, List.flatten_cons, declarationLines_eq]
    exact .cons (d.expr.printed_print _ 0) ih

/-- Identifiers that keep the definitions of a module apart; nothing but these is referred to. -/
structure Labels (ds : List Definition) (id typeId : NodeId → String) : Prop where
  name : ∀ d ∈ ds, Binding.Name (id d.node).toList
  free : ∀ d ∈ ds, id d.node ∉ reservedWords
  notReserved : ∀ d ∈ ds, id d.node ∉ Binding.reserved
  notLibrary : ∀ d ∈ ds, id d.node ≠ "z"
  nodup : (ds.map fun d => id d.node).Nodup
  typesNodup : (ds.map fun d => typeId d.node).Nodup
  declared : ∀ d ∈ ds, ∀ n, Token.node n ∈ d.expr.tokens → n ∈ ds.map (·.node)

/-- A module imports the library and then declares its definitions with such identifiers. -/
theorem renderModule_labels {style : NamingStyle} {ds : List Definition} (infer : Bool)
    (nameOf : NodeId → Text) (hnodup : (ds.map (·.node)).Nodup)
    (htargets : ∀ d ∈ ds, d.expr.Keeps (· ∈ ds.map (·.node)) (· ∈ ds.map (·.node)))
    (happly : ∀ d ∈ ds, ∃ id, style.apply d.name = .ok id) :
    ∃ id typeId lines,
      renderModule style infer nameOf ds = .ok ("import \x7b z \x7d from \"zod\";\n" ++ lines) ∧
      Declares infer id typeId ds lines ∧ Labels ds id typeId := by
  obtain ⟨nm, hnm, hlookup, hlegal, hids⟩ := Namer.declareAll_label happly hnodup
  have hplain : ∀ d ∈ ds, ∃ id, NamingStyle.plain.apply d.name = .ok id := fun _ _ => ⟨_, rfl⟩
  obtain ⟨types, htypes, _, _, htypesNodup⟩ := Namer.declareAll_label hplain hnodup
  have hprinted : ∀ d ∈ ds, nm.printed nameOf d.node = nm.label d.node := fun d hd =>
    Namer.printed_of_lookup (hlookup d hd) nameOf
  have hmap : (ds.map fun d => nm.label d.node) = ds.map fun d => nm.printed nameOf d.node :=
    List.map_congr_left fun d hd => (hprinted d hd).symm
  have hbodies : (ds.mapM fun d => d.expr.render fun n => nm.nameOf n (nameOf n)) =
      .ok (ds.map fun d => d.expr.print (fun n => Text.ofString (nm.printed nameOf n)) 0) := by
    rw [Result.mapM_eq_ok, List.forall₂_map_right_iff, List.forall₂_same]
    intro d hd
    apply Expr.render_eq_ok
    intro n hn
    obtain ⟨target, htarget, rfl⟩ := List.mem_map.mp ((htargets d hd).of_mem_targets n hn)
    exact ⟨_, Namer.nameOf_of_lookup (hlookup target htarget) _⟩
  have hlegal : ∀ d ∈ ds, Legal (nm.printed nameOf d.node) := fun d hd =>
    hprinted d hd ▸ hlegal d hd
  refine ⟨nm.printed nameOf, types.label, _, ?_,
    declares_declarationLines infer (nm.printed nameOf) types.label ds, ?_⟩
  · rw [renderModule, hnm, htypes, hmap]
    simp only [bind, Except.bind, hbodies, List.zip_map', List.map_map]
    rfl
  · constructor
    · exact fun d hd => Binding.name_iff.mpr (hlegal d hd).shape
    · exact fun d hd => (hlegal d hd).free
    · exact fun d hd hmem => (hlegal d hd).free (Binding.reserved_subset hmem)
    · exact fun d hd heq => (hlegal d hd).free (heq ▸ by decide)
    · exact hmap ▸ hids
    · exact htypesNodup
    · exact fun d hd n hn => (htargets d hd).of_mem_targets n (Expr.mem_targets_of_mem_tokens hn)

/-- Two names for one identifier, a third that is what the second is numbered, a reserved word. -/
def crowded : List Definition :=
  [⟨4, "a b", .call "array" [.lazy 9]⟩, ⟨7, "a-b", .chain [.ident "z", .ref 4]⟩,
    ⟨9, "a_b2", .object [("x", .ref 7), ("y", .lazy 9)]⟩, ⟨2, "class", .array [.ref 9, .ref 4]⟩]

theorem renderModule_labels_crowded :
    (crowded.map (·.node)).Nodup ∧
    (∀ d ∈ crowded, d.expr.Keeps (· ∈ crowded.map (·.node)) (· ∈ crowded.map (·.node))) ∧
    (∀ d ∈ crowded, ∃ id, NamingStyle.camel.apply d.name = .ok id) ∧
    ∃ id typeId lines, renderModule .camel true (fun _ => []) crowded =
      .ok ("import \x7b z \x7d from \"zod\";\n" ++ lines) ∧
      Declares true id typeId crowded lines ∧ Labels crowded id typeId := by
  have hnodup : (crowded.map (·.node)).Nodup := by decide
  have htargets : ∀ d ∈ crowded,
      d.expr.Keeps (· ∈ crowded.map (·.node)) (· ∈ crowded.map (·.node)) := by
    simp [crowded, Expr.keeps_ref, Expr.keeps_lazy]
  have happly : ∀ d ∈ crowded, ∃ id, NamingStyle.camel.apply d.name = .ok id := by
    have hsome : ∀ d ∈ crowded, (Text.camelizeDown? d.name).isSome := by decide +kernel
    intro d hd
    obtain ⟨w, hw⟩ := Option.isSome_iff_exists.mp (hsome d hd)
    exact ⟨identifier w, by rw [NamingStyle.apply, hw]⟩
  exact ⟨hnodup, htargets, happly, renderModule_labels true (fun _ => []) hnodup htargets happly⟩

end SchemaLoom

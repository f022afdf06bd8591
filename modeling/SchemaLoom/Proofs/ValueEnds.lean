import Mathlib.Data.Set.Finite.List
import Mathlib.Logic.Relation
import SchemaLoom.Document.Decode
import SchemaLoom.Proofs.Inquiries

/-!
# Values that are read to their end

A value follows every alias it comes to, so on a node that contains itself it can go
round without end. It is read to its end exactly when nothing that it comes to
comes to itself again, and then as many levels as the region of the node has nodes
are enough.

That a reading comes to a node is said by what the reading asks for, not by where
the node lies: items behind one that is refused, or keys that a constructor call
ignores, may well contain the call.
-/

namespace SchemaLoom.Value

open Yaml Yaml.Decode

set_option autoImplicit false

variable {anchors : Anchors} {l m n : Yaml.Node}

/-! ### One level -/

/-- The arguments and names of a constructor call, by the reader of the arguments. -/
def callFields (read : Answers Value) : Fields Call where
  type := "struct"
  fields := [
    field "fromISO" (Decode.optional "string" Decode.text)
      fun c t => { c with fromISO := some t },
    field "scalar" Decode.text fun c t => { c with scalar := t },
    field "constructor" Decode.text fun c t => { c with constructor := t },
    field "args" (Decode.list "[]graph.Value" (unlessNull plain (own read)))
      fun c vs => { c with args := vs }]

/-- The value of a node, by the reader of the values below it. -/
def level (read : Answers Value) (anchors : Anchors) : Yaml.Node → Result Value
  | .scalar line tag text => ofScalar line tag text
  | .sequence _ _ items => do
    let vs ← items.mapM (read anchors)
    .ok (.array vs)
  | .mapping line tag entries => do
    match ← readNode (Decode.record (callFields read) {}) anchors (.mapping line tag entries) with
    | some c => .ok c.value
    | none => .ok .object
  | .aliasOf _ _ target _ =>
    match anchors[target]? with
    | some n => read anchors n
    | none => Result.fail .malformed

theorem ofNode_succ (depth : Nat) (anchors : Anchors) (n : Yaml.Node) :
    ofNode (depth + 1) anchors n = level (ofNode depth) anchors n := by
  cases n <;> rfl

theorem ofScalar_settled (line : Nat) (tag text : String) : (ofScalar line tag text).Settled := by
  unfold ofScalar
  split
  · exact Result.settled_ok _
  · split
    · have hbool : Inquiry #[] (Node.region #[] (.scalar line tag text)) fun _ : Answers Value =>
          readNode Decode.bool #[] (.scalar line tag text) := .readNode .bool _
      refine hbool.to_settled.bind fun b => ?_
      cases b with
      | none | some => exact Result.settled_ok _
    · split
      · unfold Number.parse
        split
        · exact Result.settled_ok _
        · exact fun h => nomatch Option.some.inj h
      · exact Result.settled_ok _

theorem plain_asks : ReaderAsks anchors fun _ : Answers Value => plain := by
  have hfields : FieldsAsk anchors
      ([] : List (String × (Answers Value → Scope → Yaml.Node → Value → Decode Value))) := nofun
  exact .record hfields

theorem call_asks : ReaderAsks anchors fun read => Decode.record (callFields read) {} := by
  have hfields : FieldsAsk anchors [
      asking "fromISO" (fun _ : Answers Value => Decode.optional "string" Decode.text)
        fun (c : Call) t => { c with fromISO := some t },
      asking "scalar" (fun _ => Decode.text) fun c t => { c with scalar := t },
      asking "constructor" (fun _ => Decode.text) fun c t => { c with constructor := t },
      asking "args" (fun read => Decode.list "[]graph.Value" (unlessNull plain (own read)))
        fun c vs => { c with args := vs }] :=
    .cons (.optional .text) (.cons .text (.cons .text
      (.cons (.list (.unlessNull plain_asks .own)) nofun)))
  exact .record hfields

/-- One level asks for values in the region of the node. -/
theorem level_inquiry (anchors : Anchors) (n : Yaml.Node) :
    Inquiry anchors (Node.region anchors n) fun read => level read anchors n := by
  cases n with
  | scalar line tag text => exact .settled (ofScalar_settled line tag text)
  | sequence line tag items =>
    refine .bind (.mapM fun item hitem => .ask ?_) fun _ _ _ => .settled (Result.settled_ok _)
    exact mem_region_item (mem_region_self ..) hitem
  | mapping line tag entries =>
    refine .bind (.readNode call_asks _) fun _ c _ => ?_
    cases c with
    | none | some => exact .settled (Result.settled_ok _)
  | aliasOf line name target occurrence =>
    cases htarget : anchors[target]? with
    | some m =>
      simp only [level, htarget]
      exact .ask (mem_region_target htarget)
    | none =>
      simp only [level, htarget]
      exact .settled (Result.settled_fail nofun)

/-! ### Depth -/

/-- More depth leaves a settled result as it is. -/
theorem ofNode_stays {depth depth' : Nat} (hle : depth ≤ depth')
    (h : (ofNode depth anchors n).Settled) : ofNode depth' anchors n = ofNode depth anchors n := by
  induction depth generalizing depth' n with
  | zero => exact absurd rfl h
  | succ depth ih =>
    cases depth' with
    | zero => omega
    | succ depth' =>
      rw [ofNode_succ] at h ⊢
      rw [ofNode_succ]
      exact (level_inquiry anchors n).stays _ _
        (fun m _ hm => ih (Nat.le_of_succ_le_succ hle) hm) h

/-- The value of the node is read to its end, whatever it is. -/
def Ends (anchors : Anchors) (n : Yaml.Node) : Prop :=
  ∃ depth, (ofNode depth anchors n).Settled

theorem ofNode_eq {depth depth' : Nat} (h : (ofNode depth anchors n).Settled)
    (h' : (ofNode depth' anchors n).Settled) :
    ofNode depth anchors n = ofNode depth' anchors n := by
  rcases Nat.le_total depth depth' with hle | hle
  · exact (ofNode_stays hle h).symm
  · exact ofNode_stays hle h'

/-- As many levels as the region has nodes are enough for each of them. -/
theorem settled_of_ends (hm : m ∈ Node.region anchors n) (h : Ends anchors m) :
    (ofNode (Node.extent anchors n) anchors m).Settled := by
  classical
  -- the nodes that are read to their end at a depth; they grow with it until nothing is new
  let done (depth : Nat) : Finset Yaml.Node :=
    (Node.region anchors n).toFinset.filter fun m => (ofNode depth anchors m).Settled
  have mem_done {depth : Nat} {m : Yaml.Node} :
      m ∈ done depth ↔ m ∈ Node.region anchors n ∧ (ofNode depth anchors m).Settled := by
    simp [done]
  have grows {depth depth' : Nat} (hle : depth ≤ depth') : done depth ⊆ done depth' := by
    intro m hm
    obtain ⟨hm, h⟩ := mem_done.mp hm
    refine mem_done.mpr ⟨hm, ?_⟩
    rwa [ofNode_stays hle h]
  have same {depth depth' : Nat} (hle : depth ≤ depth')
      (hcard : (done depth).card = (done depth').card) : done depth = done depth' :=
    Finset.eq_of_subset_of_card_le (grows hle) hcard.ge
  have stops (depth : Nat) (hcard : (done depth).card = (done (depth + 1)).card) :
      (done (depth + 1)).card = (done (depth + 2)).card := by
    have hsame := same (Nat.le_succ _) hcard
    refine Nat.le_antisymm (Finset.card_le_card (grows (Nat.le_succ _)))
      (Finset.card_le_card fun m hm => ?_)
    obtain ⟨hm, h⟩ := mem_done.mp hm
    refine mem_done.mpr ⟨hm, ?_⟩
    by_contra hopen
    rw [ofNode_succ] at hopen h
    -- the node waits for one that is not read to its end a level later either
    obtain ⟨l, hl, hwait, hmore⟩ := (level_inquiry anchors m).waits _ hopen
    refine hmore _ (fun _ _ h => ofNode_stays (Nat.le_succ _) h) (fun hl' => hwait ?_) h
    have hmem := mem_done.mpr ⟨region_subset hm hl, hl'⟩
    rw [← hsame] at hmem
    exact (mem_done.mp hmem).2
  have bound (depth : Nat) : (done depth).card ≤ Node.extent anchors n :=
    (Finset.card_le_card (Finset.filter_subset ..)).trans
      ((List.toFinset_card_le _).trans_eq (length_region ..))
  obtain ⟨depth, h⟩ := h
  rcases Nat.le_total depth (Node.extent anchors n) with hle | hle
  · rwa [ofNode_stays hle h]
  · have hcard := Nat.stabilises_of_monotone (f := fun depth => (done depth).card)
      (fun _ _ hle => Finset.card_le_card (grows hle)) bound stops hle
    have hmem := mem_done.mpr ⟨hm, h⟩
    rw [← same hle hcard.symm] at hmem
    exact (mem_done.mp hmem).2

/-! ### What a reading comes to -/

/-- Every node but `m` has a result, its own if it is read to its end. -/
structure OpenAt (anchors : Anchors) (m : Yaml.Node) (read : Answers Value) : Prop where
  settled : ∀ l, l ≠ m → (read anchors l).Settled
  same : ∀ l, l ≠ m → ∀ depth, (ofNode depth anchors l).Settled →
    read anchors l = ofNode depth anchors l
  waits : ¬ (read anchors m).Settled

/-- Reading `n` comes to `m`: it has no result as long as `m` has none, even where every other node
has one. -/
def Reads (anchors : Anchors) (n m : Yaml.Node) : Prop :=
  ∃ read : Answers Value, OpenAt anchors m read ∧ ¬ (level read anchors n).Settled

/-- Nothing that reading the node comes to comes to itself again. -/
def Untangled (anchors : Anchors) (n : Yaml.Node) : Prop :=
  ∀ m, Relation.ReflTransGen (Reads anchors) n m → ¬ Relation.TransGen (Reads anchors) m m

/-- Where a node has no result, one can be made up. -/
theorem exists_openAt (anchors : Anchors) (m : Yaml.Node) : ∃ read : Answers Value,
    OpenAt anchors m read ∧ ∀ l, l ≠ m → ¬ Ends anchors l → ∃ v, read anchors l = .ok v := by
  classical
  have hown (l : Yaml.Node) : ∃ x : Result Value, x.Settled ∧
      (∀ depth, (ofNode depth anchors l).Settled → x = ofNode depth anchors l) ∧
      (¬ Ends anchors l → ∃ v, x = .ok v) := by
    by_cases h : Ends anchors l
    · obtain ⟨depth, hdepth⟩ := id h
      exact ⟨_, hdepth, fun depth' h' => ofNode_eq hdepth h', absurd h⟩
    · exact ⟨.ok .null, Result.settled_ok _, fun depth h' => absurd ⟨depth, h'⟩ h,
        fun _ => ⟨_, rfl⟩⟩
  choose own hsettled hsame hmade using hown
  refine ⟨fun _ l => if l = m then Result.fail .diverges else own l, ⟨?_, ?_, ?_⟩, ?_⟩
  · intro l hl
    simpa only [if_neg hl] using hsettled l
  · intro l hl
    simpa only [if_neg hl] using hsame l
  · simpa only [if_true] using fun h : Result.Settled (Result.fail .diverges) => h rfl
  · intro l hl
    simpa only [if_neg hl] using hmade l

theorem mem_region_of_reads (h : Reads anchors n m) : m ∈ Node.region anchors n := by
  obtain ⟨read, hread, hopen⟩ := h
  obtain ⟨l, hl, hwait, _⟩ := (level_inquiry anchors n).waits read hopen
  by_cases hlm : l = m
  · rwa [← hlm]
  · exact absurd (hread.settled l hlm) hwait

/-- What a reading comes to is read to its end a level below. -/
theorem settled_of_reads {depth : Nat} (h : Reads anchors n m)
    (hn : (ofNode (depth + 1) anchors n).Settled) : (ofNode depth anchors m).Settled := by
  obtain ⟨read, hread, hopen⟩ := h
  by_contra hm
  refine hopen ?_
  rw [ofNode_succ] at hn
  have hbelow : Answers.Below anchors (Node.region anchors n) (ofNode depth) read := by
    intro l _ hl
    by_cases hlm : l = m
    · exact absurd (hlm ▸ hl) hm
    · exact hread.same l hlm depth hl
  rwa [(level_inquiry anchors n).stays _ _ hbelow hn]

theorem exists_lt_of_transGen {depth : Nat} (h : Relation.TransGen (Reads anchors) n m)
    (hn : (ofNode depth anchors n).Settled) :
    ∃ depth' < depth, (ofNode depth' anchors m).Settled := by
  have down {l m : Yaml.Node} {depth : Nat} (h : Reads anchors l m)
      (hl : (ofNode depth anchors l).Settled) :
      ∃ depth' < depth, (ofNode depth' anchors m).Settled := by
    cases depth with
    | zero => exact absurd rfl hl
    | succ depth => exact ⟨depth, Nat.lt_succ_self _, settled_of_reads h hl⟩
  induction h with
  | single h => exact down h hn
  | tail _ h ih =>
    obtain ⟨depth', hlt, hl⟩ := ih
    obtain ⟨depth'', hlt', hm⟩ := down h hl
    exact ⟨depth'', hlt'.trans hlt, hm⟩

/-- A node that comes to itself again is never read to its end. -/
theorem not_ends_of_cycle (h : Relation.TransGen (Reads anchors) n n) : ¬ Ends anchors n := by
  rintro ⟨depth, hdepth⟩
  induction depth using Nat.strong_induction_on with
  | _ depth ih =>
    obtain ⟨depth', hlt, h'⟩ := exists_lt_of_transGen h hdepth
    exact ih depth' hlt h'

theorem Ends.of_reads (hn : Ends anchors n) (h : Relation.ReflTransGen (Reads anchors) n m) :
    Ends anchors m := by
  induction h with
  | refl => exact hn
  | tail _ hreads ih =>
    obtain ⟨depth, h⟩ := ih
    obtain ⟨depth', _, h'⟩ := exists_lt_of_transGen (.single hreads) h
    exact ⟨depth', h'⟩

/-- A node that is never read to its end comes to another one. -/
theorem exists_reads (h : ¬ Ends anchors n) : ∃ m, Reads anchors n m ∧ ¬ Ends anchors m := by
  have hopen : ¬ (ofNode (Node.extent anchors n + 1) anchors n).Settled := fun h' => h ⟨_, h'⟩
  rw [ofNode_succ] at hopen
  obtain ⟨m, hm, hwait, hmore⟩ := (level_inquiry anchors n).waits _ hopen
  obtain ⟨read, hread, _⟩ := exists_openAt anchors m
  refine ⟨m, ⟨read, hread, hmore read (fun l _ hl => ?_) hread.waits⟩,
    fun hends => hwait (settled_of_ends hm hends)⟩
  by_cases hlm : l = m
  · exact absurd (hlm ▸ hl) hwait
  · exact hread.same l hlm _ hl

/-- The region is finite, so a reading without cycle comes to an end everywhere. -/
theorem ends_of_untangled (h : Untangled anchors n) : Ends anchors n := by
  let Reached := {m // m ∈ Node.region anchors n ∧ Relation.ReflTransGen (Reads anchors) n m}
  let After (l m : Reached) : Prop := Relation.TransGen (Reads anchors) m.1 l.1
  have : Finite Reached :=
    (Set.Finite.subset (List.finite_toSet (Node.region anchors n)) fun _ hm => hm.1 :
      Set.Finite {m | m ∈ Node.region anchors n ∧ Relation.ReflTransGen (Reads anchors) n m})
  have : IsTrans Reached After := ⟨fun _ _ _ hlm hmo => hmo.trans hlm⟩
  have : Std.Irrefl After := ⟨fun m => h m.1 m.2.2⟩
  have hwf : WellFounded After := Finite.wellFounded_of_trans_of_irrefl After
  suffices ∀ m : Reached, Ends anchors m.1 from this ⟨n, mem_region_self .., .refl⟩
  intro m
  induction m using hwf.induction with
  | _ m ih =>
    by_contra hopen
    obtain ⟨l, hreads, hl⟩ := exists_reads hopen
    have hmem := region_subset m.2.1 (mem_region_of_reads hreads)
    exact hl (ih ⟨l, hmem, m.2.2.tail hreads⟩ (.single hreads))

/-! ### Aliases and sequences -/

/-- An alias comes to the node it stands for. -/
theorem reads_aliasOf {line target occurrence : Nat} {name : String} :
    Reads anchors (.aliasOf line name target occurrence) m ↔ anchors[target]? = some m := by
  constructor
  · rintro ⟨read, hread, hopen⟩
    cases htarget : anchors[target]? with
    | none =>
      simp only [level, htarget] at hopen
      exact absurd (Result.settled_fail (c := .malformed) nofun) hopen
    | some l =>
      simp only [level, htarget] at hopen
      by_cases hlm : l = m
      · rw [hlm]
      · exact absurd (hread.settled l hlm) hopen
  · intro htarget
    obtain ⟨read, hread, _⟩ := exists_openAt anchors m
    refine ⟨read, hread, ?_⟩
    simpa only [level, htarget] using hread.waits

/-- A sequence comes to its items, up to the first one that is refused. -/
theorem reads_sequence {line : Nat} {tag : String} {items : List Yaml.Node} :
    Reads anchors (.sequence line tag items) m ↔ ∃ before after, items = before ++ m :: after ∧
      ∀ l ∈ before, ∀ depth e, ofNode depth anchors l = .error e → e.cause = .diverges := by
  have hlevel (read : Answers Value) : ¬ (level read anchors (.sequence line tag items)).Settled ↔
      ¬ Result.Settled (items.mapM (read anchors)) := by
    simp only [level]
    cases items.mapM (read anchors) <;> rfl
  constructor
  · rintro ⟨read, hread, hopen⟩
    obtain ⟨before, l, after, rfl, hbefore, hl⟩ :=
      Result.not_settled_mapM.mp ((hlevel read).mp hopen)
    have hlm : l = m := by
      by_contra hlm
      exact hl (hread.settled l hlm)
    refine ⟨before, after, by rw [hlm], fun l hl depth e he => ?_⟩
    by_contra hcause
    obtain ⟨v, hv⟩ := hbefore l hl
    have hlm : l ≠ m := by
      rintro rfl
      exact hread.waits (hv ▸ Result.settled_ok v)
    have hsettled : (ofNode depth anchors l).Settled := by
      rw [he]
      exact fun h => hcause (Option.some.inj h)
    rw [← hread.same l hlm depth hsettled, hv] at he
    cases he
  · rintro ⟨before, after, rfl, hbefore⟩
    obtain ⟨read, hread, hmade⟩ := exists_openAt anchors m
    refine ⟨read, hread, (hlevel read).mpr (Result.not_settled_mapM.mpr ?_)⟩
    have hok (l : Yaml.Node) (hl : l ∈ before) (hlm : l ≠ m) : ∃ v, read anchors l = .ok v := by
      by_cases hends : Ends anchors l
      · obtain ⟨depth, hdepth⟩ := hends
        rw [hread.same l hlm depth hdepth]
        cases hx : ofNode depth anchors l with
        | ok v => exact ⟨v, rfl⟩
        | error e =>
          have hopen := Result.not_settled.mpr ⟨e, hx, hbefore l hl depth e hx⟩
          exact absurd hdepth hopen
      · exact hmade l hlm hends
    by_cases hm : m ∈ before
    · obtain ⟨first, rest, rfl, hnot⟩ := List.eq_append_cons_of_mem hm
      refine ⟨first, m, rest ++ m :: after, by simp, fun l hl => hok l ?_ ?_, hread.waits⟩
      · exact List.mem_append_left _ hl
      · exact fun hlm => hnot (hlm ▸ hl)
    · exact ⟨before, m, after, rfl, fun l hl => hok l hl fun hlm => hm (hlm ▸ hl), hread.waits⟩

/-- The depth that is given to a document is enough. -/
theorem extent_le_depth (y : Yaml.Document) : Node.extent y.anchors y.root ≤ y.depth := by
  unfold Node.extent Yaml.Document.depth
  exact (Nat.le_succ _).trans (Nat.le_mul_of_pos_left _ (Nat.succ_pos _))

theorem parse_settled {t : Text} {y : Yaml.Document} (hy : Yaml.parse t = .ok (some y)) :
    (parse t).Settled ↔ (ofNode y.depth y.anchors y.root).Settled := by
  have hparse : parse t = (ofNode y.depth y.anchors y.root).map some := by
    rw [parse, hy]
    rfl
  rw [hparse]
  cases ofNode y.depth y.anchors y.root <;> rfl

/-! ### The end -/

/-- A value is read to its end exactly when nothing that its reading comes to comes to itself again.
Then the result is the same at every depth from the number of nodes in its region on, and the
depth of a document is one of these. -/
theorem ofNode_ends_iff (anchors : Anchors) (n : Yaml.Node) :
    ((∃ depth, (ofNode depth anchors n).Settled) ↔ Untangled anchors n) ∧
    (Untangled anchors n → ∃ x : Result Value, x.Settled ∧
      ∀ depth, Node.extent anchors n ≤ depth → ofNode depth anchors n = x) ∧
    ∀ t y, Yaml.parse t = .ok (some y) → ((parse t).Settled ↔ Untangled y.anchors y.root) := by
  have hends {anchors : Anchors} {n : Yaml.Node} : Ends anchors n ↔ Untangled anchors n :=
    ⟨fun h _ hm hcycle => not_ends_of_cycle hcycle (h.of_reads hm), ends_of_untangled⟩
  have hdepth {anchors : Anchors} {n : Yaml.Node} {depth : Nat}
      (hle : Node.extent anchors n ≤ depth) :
      (ofNode depth anchors n).Settled ↔ Ends anchors n := by
    refine ⟨fun h => ⟨depth, h⟩, fun h => ?_⟩
    have hsettled := settled_of_ends (mem_region_self anchors n) h
    rwa [ofNode_stays hle hsettled]
  refine ⟨hends, fun h => ?_, fun t y hy => ?_⟩
  · have hsettled := (hdepth le_rfl).mpr (hends.mpr h)
    exact ⟨_, hsettled, fun depth hle => ofNode_stays hle hsettled⟩
  · rw [← hends, ← hdepth (extent_le_depth y), parse_settled hy]

/-- A sequence whose second item is an alias of its first one. -/
def shared : Text := "[&x 1, *x]"

set_option maxRecDepth 100000 in
theorem shared_runs : (Yaml.parse shared).toOption.join.map (fun y =>
    (ofNode y.depth y.anchors y.root).cause?) = some none := by
  decide +kernel

theorem ofNode_ends_iff_shared : ∃ y, Yaml.parse shared = .ok (some y) ∧
    Untangled y.anchors y.root ∧ ∃ x : Result Value, x.Settled ∧
      ∀ depth, Node.extent y.anchors y.root ≤ depth → ofNode depth y.anchors y.root = x := by
  obtain ⟨y, hy, hnone⟩ := Option.map_eq_some_iff.mp shared_runs
  have hsettled : (ofNode y.depth y.anchors y.root).Settled := by
    rw [Result.Settled, hnone]
    intro hdiverges
    cases hdiverges
  have h := (ofNode_ends_iff y.anchors y.root).1.mp ⟨y.depth, hsettled⟩
  exact ⟨y, Result.ok_of_toOption (Option.join_eq_some_iff.mp hy), h,
    (ofNode_ends_iff y.anchors y.root).2.1 h⟩

/-- A sequence that is its own item. -/
def knotted : Text := "&x [*x]"

set_option maxRecDepth 100000 in
theorem knotted_runs : (do
    let y ← (Yaml.parse knotted).toOption.join
    match y.root with
    | .sequence _ _ [.aliasOf _ _ target _] =>
      match y.anchors[target]? with
      | some (.sequence _ _ [.aliasOf _ _ again _]) => some (decide (again = target))
      | _ => none
    | _ => none) = some true := by
  decide +kernel

/-- The parser accepts the sequence that is its own item, and no depth reads it to its end. -/
theorem knotted_never_ends : ∃ y, Yaml.parse knotted = .ok (some y) ∧
    (∀ depth, ¬ (ofNode depth y.anchors y.root).Settled) ∧ ¬ (parse knotted).Settled := by
  obtain ⟨y, hy, h⟩ := Option.bind_eq_some_iff.mp knotted_runs
  have hy := Result.ok_of_toOption (Option.join_eq_some_iff.mp hy)
  suffices hnot : ¬ Ends y.anchors y.root from
    ⟨y, hy, fun depth h => hnot ⟨depth, h⟩, fun h => hnot ⟨_, (parse_settled hy).mp h⟩⟩
  split at h
  · next line tag line' name target occurrence hroot =>
    split at h
    · next line₂ tag₂ line₂' name₂ again occurrence₂ htarget =>
      obtain rfl : again = target := by simpa using h
      rw [hroot]
      -- the anchored sequence comes to its alias, and that one back to the sequence
      have item (line : Nat) (tag : String) (a : Yaml.Node) :
          Reads y.anchors (.sequence line tag [a]) a := reads_sequence.mpr ⟨[], [], rfl, nofun⟩
      have target (line occurrence : Nat) (name : String) :
          Reads y.anchors (.aliasOf line name again occurrence) _ := reads_aliasOf.mpr htarget
      have hcycle := Relation.TransGen.tail (.single (item line₂ tag₂ _))
        (target line₂' occurrence₂ name₂)
      exact fun h => not_ends_of_cycle hcycle
        (h.of_reads (.tail (.single (item line tag _)) (target line' occurrence name)))
    · cases h
  · cases h

end SchemaLoom.Value

import Mathlib.Data.Finset.Card
import Mathlib.Logic.Relation
import SchemaLoom.JsonSchema.Traverse

/-!
# Traversals

A traversal comes to every schema behind its start once, and to each but the start after one
that leads to it. It ends for any finite graph: a level is only gone down for a schema that is
new, so there are no more levels than schemas.

A consumer that stops early has received the beginning of what it would have received. What it
is asked may depend on all it has received, and on nothing else.
-/

namespace SchemaLoom

set_option autoImplicit false

namespace SchemaGraph

variable {ι : Type} {g : SchemaGraph ι} {resolve : Resolver ι}

/-! ### What is behind a schema -/

/-- A schema is there; at any other identity there is nothing to visit. -/
def Present (g : SchemaGraph ι) (i : ι) : Prop := (g.node? i).isSome = true

/-- A schema stands below another one, or is what the reference of that one leads to. -/
inductive Links (g : SchemaGraph ι) (resolve : Resolver ι) (i : ι) : ι → Prop
  | child {k : Keywords} {cs : List (Location × ι)} {l : Location} {j : ι} :
      g.node? i = some (k, cs) → (l, j) ∈ cs → g.Present j → Links g resolve i j
  | target {k : Keywords} {cs : List (Location × ι)} {j : ι} :
      g.node? i = some (k, cs) → k.ref ≠ "" → resolve k.ref = some j → g.Present j →
      Links g resolve i j

theorem Links.present {i j : ι} (h : g.Links resolve i j) : g.Present i := by
  rcases h with ⟨hi, -, -⟩ | ⟨hi, -, -, -⟩ <;> rw [Present, hi] <;> rfl

theorem present_of_path {i j : ι} (h : Relation.ReflTransGen (g.Links resolve) i j)
    (hj : g.Present j) : g.Present i := by
  cases h using Relation.ReflTransGen.head_induction_on with
  | refl => exact hj
  | head hlink _ => exact hlink.present

theorem links_iff {i j : ι} : g.Links resolve i j ↔ j ∈ g.next resolve i ∧ g.Present j := by
  unfold next
  constructor
  · rintro (⟨hi, hj, hthere⟩ | ⟨hi, href, hj, hthere⟩)
    · refine ⟨?_, hthere⟩
      rw [hi]
      exact List.mem_append_right _ (List.mem_map_of_mem hj)
    · refine ⟨?_, hthere⟩
      rw [hi]
      simp [String.isEmpty_iff, href, hj]
  · rintro ⟨hj, hthere⟩
    split at hj
    · cases hj
    · rename_i k cs hi
      rcases List.mem_append.mp hj with hj | hj
      · split at hj
        · cases hj
        · rename_i href
          exact .target hi (by simpa [String.isEmpty_iff] using href) (by simpa using hj) hthere
      · obtain ⟨⟨l, _⟩, hmem, rfl⟩ := List.mem_map.mp hj
        exact .child hi hmem hthere

/-! ### What a consumer hears -/

/-- Offers schemas to a consumer that has received some already. -/
def offer (wants : Consumer ι) : List ι → List ι → Progress ι
  | seen, [] => ⟨seen, true⟩
  | seen, x :: more =>
    if wants (seen ++ [x]) then offer wants (seen ++ [x]) more else ⟨seen ++ [x], false⟩

section Offer
variable {wants : Consumer ι} {seen : List ι}

theorem received_offer {more : List ι} (h : (offer wants seen more).wanted = true) :
    (offer wants seen more).received = seen ++ more := by
  induction more generalizing seen with
  | nil => simp [offer]
  | cons x more ih =>
    rw [offer] at h ⊢
    split at h
    · rw [if_pos (by assumption), ih h, List.append_assoc]
      rfl
    · cases h

theorem offer_append (a b : List ι) :
    offer wants seen (a ++ b) = if (offer wants seen a).wanted then offer wants (seen ++ a) b
      else offer wants seen a := by
  induction a generalizing seen with
  | nil => simp [offer]
  | cons x a ih =>
    rw [List.cons_append, offer, offer, List.append_cons seen x a]
    split
    · exact ih
    · rfl

theorem offer_all (more : List ι) : offer (fun _ => true) seen more = ⟨seen ++ more, true⟩ := by
  induction more generalizing seen with
  | nil => simp [offer]
  | cons x more ih => simp [offer, ih]

/-- A consumer receives one by one until it wants no more. -/
theorem exists_take_offer (wants : Consumer ι) (seen more : List ι) :
    ∃ n, (offer wants seen more).received = seen ++ more.take n ∧
      (∀ j, 0 < j → j < n → wants (seen ++ more.take j) = true) ∧
      (n = more.length ∨ 0 < n ∧ n ≤ more.length ∧ wants (seen ++ more.take n) = false) := by
  induction more generalizing seen with
  | nil => exact ⟨0, by simp [offer], nofun, .inl rfl⟩
  | cons x more ih =>
    rw [offer]
    split
    · rename_i hx
      obtain ⟨n, hreceived, hbefore, hend⟩ := ih (seen ++ [x])
      simp only [List.append_assoc, List.singleton_append] at hreceived hbefore hend
      refine ⟨n + 1, hreceived, ?_, ?_⟩
      · rintro (_ | _ | j) hpos hj
        · cases hpos
        · exact hx
        · exact hbefore (j + 1) j.succ_pos (by omega)
      · rcases hend with rfl | ⟨hpos, hle, hstop⟩
        · exact .inl rfl
        · exact .inr ⟨n.succ_pos, Nat.succ_le_succ hle, hstop⟩
    · rename_i hx
      refine ⟨1, rfl, fun j hpos hj => by omega, .inr ⟨Nat.one_pos, ?_, by simpa using hx⟩⟩
      simp

/-- A consumer that wants so many receives so many, unless there are fewer. -/
theorem offer_first (k : Nat) (more : List ι) :
    (offer (fun received => decide (received.length < k + 1)) [] more).received =
      more.take (k + 1) := by
  obtain ⟨n, hreceived, hwanted, hend⟩ :=
    exists_take_offer (fun received => decide (received.length < k + 1)) [] more
  simp only [List.nil_append, decide_eq_true_eq, decide_eq_false_iff_not, List.length_take]
    at hreceived hwanted hend
  have hle : n ≤ k + 1 := by
    by_contra hlt
    have := hwanted (k + 1) k.succ_pos (by omega)
    omega
  rw [hreceived]
  rcases hend with rfl | ⟨_, hlen, hstop⟩
  · rw [List.take_length, List.take_of_length_le hle]
  · obtain rfl : n = k + 1 := by omega
    rfl

end Offer

/-! ### What a visit adds -/

/-- What is received next, from visits that start at some identities. -/
structure Adds (g : SchemaGraph ι) (resolve : Resolver ι) (starts seen more : List ι) : Prop where
  nodup : more.Nodup
  fresh : ∀ x ∈ more, x ∉ seen
  present : ∀ x ∈ more, g.Present x
  met : ∀ x ∈ starts, g.Present x → x ∈ seen ++ more
  closed : ∀ x ∈ more, ∀ y, g.Links resolve x y → y ∈ seen ++ more
  parent : ∀ before x after, more = before ++ x :: after →
    x ∈ starts ∨ ∃ p ∈ before, g.Links resolve p x

namespace Adds
variable {starts starts' seen more a b : List ι} {i : ι}

theorem nothing (h : ∀ x ∈ starts, g.Present x → x ∈ seen) : g.Adds resolve starts seen [] where
  nodup := .nil
  fresh := nofun
  present := nofun
  met := by simpa using h
  closed := nofun
  parent := by simp

theorem append (ha : g.Adds resolve starts seen a) (hb : g.Adds resolve starts' (seen ++ a) b) :
    g.Adds resolve (starts ++ starts') seen (a ++ b) where
  nodup := List.nodup_append'.mpr ⟨ha.nodup, hb.nodup, fun x hxa hxb =>
    hb.fresh x hxb (List.mem_append_right _ hxa)⟩
  fresh := List.forall_mem_append.mpr ⟨ha.fresh, fun x hx hseen =>
    hb.fresh x hx (List.mem_append_left _ hseen)⟩
  present := List.forall_mem_append.mpr ⟨ha.present, hb.present⟩
  met := by
    rw [← List.append_assoc]
    exact List.forall_mem_append.mpr
      ⟨fun x hx hthere => List.mem_append_left _ (ha.met x hx hthere), hb.met⟩
  closed := by
    rw [← List.append_assoc]
    exact List.forall_mem_append.mpr
      ⟨fun x hx y hy => List.mem_append_left _ (ha.closed x hx y hy), hb.closed⟩
  parent := by
    intro before x after heq
    -- the place is in `b` or in `a`; a parent that stands in `b` is behind all of `a`
    rcases List.append_eq_append_iff.mp heq with ⟨mid, rfl, hmid⟩ | ⟨mid, rfl, hmid⟩
    · rcases hb.parent mid x after hmid with hx | ⟨p, hp, hlink⟩
      · exact .inl (List.mem_append_right _ hx)
      · exact .inr ⟨p, List.mem_append_right _ hp, hlink⟩
    · cases mid with
      | nil =>
        rcases hb.parent [] x after hmid.symm with hx | ⟨p, hp, _⟩
        · exact .inl (List.mem_append_right _ hx)
        · cases hp
      | cons y mid =>
        obtain ⟨rfl, -⟩ := List.cons.inj hmid
        exact (ha.parent before x mid rfl).imp (List.mem_append_left _) id

/-- A schema that is new comes first, and what is next to it follows. -/
theorem visit (hi : i ∉ seen) (hthere : g.Present i)
    (h : g.Adds resolve (g.next resolve i) (seen ++ [i]) more) :
    g.Adds resolve [i] seen (i :: more) where
  nodup := List.nodup_cons.mpr ⟨fun hmem => h.fresh i hmem (by simp), h.nodup⟩
  fresh := List.forall_mem_cons.mpr ⟨hi, fun x hx hseen =>
    h.fresh x hx (List.mem_append_left _ hseen)⟩
  present := List.forall_mem_cons.mpr ⟨hthere, h.present⟩
  met := by simp
  closed := by
    rw [List.append_cons]
    refine List.forall_mem_cons.mpr ⟨fun y hy => ?_, h.closed⟩
    obtain ⟨hnext, hy⟩ := links_iff.mp hy
    exact h.met y hnext hy
  parent := by
    intro before x after heq
    rcases List.cons_eq_append_iff.mp heq with ⟨rfl, hx⟩ | ⟨rest, rfl, hrest⟩
    · obtain ⟨rfl, -⟩ := List.cons.inj hx
      exact .inl List.mem_cons_self
    · right
      rcases h.parent rest x after hrest with hx | ⟨p, hp, hlink⟩
      · refine ⟨i, List.mem_cons_self, links_iff.mpr ⟨hx, h.present x ?_⟩⟩
        simp [hrest]
      · exact ⟨p, List.mem_cons_of_mem _ hp, hlink⟩

/-- Everything that is received is behind one of the starts. -/
theorem behind (h : g.Adds resolve starts seen more) : ∀ x ∈ more, ∃ s ∈ starts,
    Relation.ReflTransGen (g.Links resolve) s x := by
  -- by induction on what was received before: a parent is among it, and so behind a start
  suffices hall : ∀ before after, more = before ++ after → ∀ x ∈ before, ∃ s ∈ starts,
      Relation.ReflTransGen (g.Links resolve) s x from hall more [] (by simp)
  intro before
  induction before using List.reverseRecOn with
  | nil => exact nofun
  | append_singleton before x ih =>
    intro after heq
    rw [List.append_assoc] at heq
    refine List.forall_mem_append.mpr ⟨ih _ heq, List.forall_mem_singleton.mpr ?_⟩
    rcases h.parent before x after heq with hx | ⟨p, hp, hlink⟩
    · exact ⟨x, hx, .refl⟩
    · obtain ⟨s, hs, hpath⟩ := ih _ heq p hp
      exact ⟨s, hs, hpath.tail hlink⟩

/-- From nothing seen, everything behind a start is received. -/
theorem mem_of_behind (h : g.Adds resolve [i] [] more) (hi : g.Present i) {x : ι}
    (hx : Relation.ReflTransGen (g.Links resolve) i x) : x ∈ more := by
  induction hx with
  | refl => exact h.met i List.mem_cons_self hi
  | tail _ hlink ih => exact h.closed _ ih _ hlink

end Adds

/-! ### Visits -/

section Visit
variable [DecidableEq ι] {seen : List ι}

/-- The number of identities that are not visited yet. -/
def unseen (g : SchemaGraph ι) (seen : List ι) : Nat := (g.ids.toFinset \ seen.toFinset).card

theorem unseen_append_le (seen more : List ι) : g.unseen (seen ++ more) ≤ g.unseen seen := by
  apply Finset.card_le_card
  intro x hx
  simp_all

theorem unseen_lt {i : ι} (hi : i ∉ seen) (hthere : g.Present i) :
    g.unseen (seen ++ [i]) < g.unseen seen := by
  apply Finset.card_lt_card
  refine Finset.ssubset_iff_subset_ne.mpr ⟨fun x hx => by simp_all, fun heq => ?_⟩
  have hmem : i ∈ g.ids.toFinset \ seen.toFinset := by simp [g.mem_ids i hthere, hi]
  rw [← heq] at hmem
  simp at hmem

/-- When each visit offers the same schemas to every consumer, so do visits one after another. -/
theorem along_offers {depth : Nat}
    (hvisit : ∀ seen i, g.unseen seen ≤ depth → ∃ more, g.Adds resolve [i] seen more ∧
      ∀ wants fuel, depth < fuel → g.visit resolve wants fuel seen i = some (offer wants seen more))
    (starts : List ι) (hseen : g.unseen seen ≤ depth) :
    ∃ more, g.Adds resolve starts seen more ∧ ∀ wants fuel, depth < fuel →
      along (g.visit resolve wants fuel) seen starts = some (offer wants seen more) := by
  induction starts generalizing seen with
  | nil => exact ⟨[], .nothing nofun, fun _ _ _ => rfl⟩
  | cons i starts ih =>
    obtain ⟨a, ha, hfirst⟩ := hvisit seen i hseen
    obtain ⟨b, hb, hrest⟩ := ih (Nat.le_trans (unseen_append_le seen a) hseen)
    refine ⟨a ++ b, ha.append hb, fun wants fuel hfuel => ?_⟩
    rw [along, hfirst wants fuel hfuel, offer_append]
    cases hoffer : offer wants seen a with
    | mk received wanted =>
      cases wanted with
      | false => rfl
      | true =>
        have hwanted : (offer wants seen a).wanted = true := by rw [hoffer]
        have hreceived : received = seen ++ a := by simpa [hoffer] using received_offer hwanted
        rw [if_pos rfl, hreceived]
        exact hrest wants fuel hfuel

theorem visit_of_seen {wants : Consumer ι} {i : ι} (h : g.Present i → i ∈ seen) {fuel : Nat}
    (hfuel : 0 < fuel) : g.visit resolve wants fuel seen i = some ⟨seen, true⟩ := by
  obtain ⟨fuel, rfl⟩ := Nat.exists_eq_succ_of_ne_zero hfuel.ne'
  rw [visit, if_pos]
  cases hi : g.node? i with
  | none => rfl
  | some => simpa using h (by rw [Present, hi]; rfl)

theorem visit_of_new {wants : Consumer ι} {i : ι} (hi : i ∉ seen) (hthere : g.Present i)
    (fuel : Nat) : g.visit resolve wants (fuel + 1) seen i =
      if wants (seen ++ [i]) then
        along (g.visit resolve wants fuel) (seen ++ [i]) (g.next resolve i)
      else some ⟨seen ++ [i], false⟩ := by
  have hsome : (g.node? i).isNone = false := by
    rw [← Option.not_isSome, hthere]
    rfl
  rw [visit, if_neg]
  simp [hsome, hi]

theorem visit_offers (depth : Nat) (seen : List ι) (i : ι) (hseen : g.unseen seen ≤ depth) :
    ∃ more, g.Adds resolve [i] seen more ∧ ∀ wants fuel, depth < fuel →
      g.visit resolve wants fuel seen i = some (offer wants seen more) := by
  induction depth using Nat.strong_induction_on generalizing seen i with
  | h depth ih =>
    -- a level is gone down only for a schema that is new, and that leaves fewer unseen
    by_cases hold : g.Present i → i ∈ seen
    · refine ⟨[], .nothing (by simpa using hold), fun wants fuel hfuel => ?_⟩
      exact visit_of_seen hold (Nat.zero_lt_of_lt hfuel)
    · obtain ⟨hthere, hi⟩ := Classical.not_imp.mp hold
      have hless := (unseen_lt hi hthere).trans_le hseen
      obtain ⟨depth, rfl⟩ := Nat.exists_eq_succ_of_ne_zero (Nat.ne_zero_of_lt hless)
      obtain ⟨more, hmore, hrun⟩ :=
        along_offers (ih depth depth.lt_succ_self) (g.next resolve i) (Nat.le_of_lt_succ hless)
      refine ⟨i :: more, .visit hi hthere hmore, fun wants fuel hfuel => ?_⟩
      obtain ⟨fuel, rfl⟩ := Nat.exists_eq_succ_of_ne_zero (Nat.ne_zero_of_lt hfuel)
      rw [visit_of_new hi hthere, hrun wants fuel (Nat.lt_of_succ_lt_succ hfuel), offer]
      split <;> rfl

end Visit

/-! ### Traversals -/

section Traverse
variable [DecidableEq ι]

theorem unseen_nil_le (g : SchemaGraph ι) : g.unseen [] ≤ g.ids.length := by
  refine (Finset.card_le_card Finset.sdiff_subset).trans ?_
  exact List.toFinset_card_le g.ids

/-- A traversal offers the same schemas to every consumer, and is not cut off by the number of
levels it is given. -/
theorem exists_offered (g : SchemaGraph ι) (resolve : Resolver ι) (start : ι) :
    ∃ full, g.Adds resolve [start] [] full ∧ ∀ wants fuel, g.ids.length < fuel →
      g.visit resolve wants fuel [] start = some (offer wants [] full) :=
  visit_offers g.ids.length [] start (unseen_nil_le g)

/-- A traversal ends. It comes to each schema behind its start once, to nothing else, and to
each but the start after one that links to it. A consumer receives a beginning of that, up to
where it wants no more. -/
theorem traverse_reachable (g : SchemaGraph ι) (resolve : Resolver ι) (start : ι) :
    ∃ full, g.traverse resolve (fun _ => true) start = some full ∧
      full.Nodup ∧
      (∀ x, x ∈ full ↔
        g.Present start ∧ Relation.ReflTransGen (g.Links resolve) start x) ∧
      (∀ before x after, full = before ++ x :: after → x ≠ start →
        ∃ p ∈ before, g.Links resolve p x) ∧
      (∀ wants, ∃ n, g.traverse resolve wants start = some (full.take n) ∧
        (∀ j, 0 < j → j < n → wants (full.take j) = true) ∧
        (n = full.length ∨ 0 < n ∧ n ≤ full.length ∧ wants (full.take n) = false)) ∧
      ∀ k, g.traverse resolve (fun received => decide (received.length < k + 1)) start =
        some (full.take (k + 1)) := by
  obtain ⟨full, hadds, hoffer⟩ := exists_offered g resolve start
  have htraverse : ∀ wants, g.traverse resolve wants start =
      some (offer wants [] full).received := fun wants => by
    rw [traverse, hoffer wants _ (Nat.lt_succ_self _), Option.map_some]
  refine ⟨full, ?_, hadds.nodup, fun x => ⟨fun hx => ?_, ?_⟩, ?_, fun wants => ?_, fun k => ?_⟩
  · rw [htraverse, offer_all, List.nil_append]
  · obtain ⟨_, hs, hpath⟩ := hadds.behind x hx
    obtain rfl := List.mem_singleton.mp hs
    exact ⟨present_of_path hpath (hadds.present x hx), hpath⟩
  · rintro ⟨hthere, hpath⟩
    exact hadds.mem_of_behind hthere hpath
  · intro before x after heq hne
    exact (hadds.parent before x after heq).resolve_left (by simpa using hne)
  · obtain ⟨n, hreceived, hwanted, hend⟩ := exists_take_offer wants [] full
    exact ⟨n, by rw [htraverse, hreceived, List.nil_append], hwanted, hend⟩
  · rw [htraverse, offer_first]

end Traverse

end SchemaGraph

/-! ### Positions in a tree -/

namespace Schema

theorem traverse_graph (root : Schema) (resolve : Resolver)
    (wants : SchemaGraph.Consumer Position) :
    root.graph.traverse resolve wants [] = some (root.positions resolve wants) := by
  obtain ⟨full, _, hoffer⟩ := SchemaGraph.exists_offered root.graph resolve []
  rw [positions, SchemaGraph.traverse, hoffer wants _ (Nat.lt_succ_self _)]
  rfl

theorem positions_first (root : Schema) (resolve : Resolver) (k : Nat) :
    (root.positions resolve fun received => decide (received.length < k + 1)) =
      (root.positions resolve fun _ => true).take (k + 1) := by
  obtain ⟨full, _, hoffer⟩ := SchemaGraph.exists_offered root.graph resolve []
  simp only [positions, SchemaGraph.traverse, hoffer _ _ (Nat.lt_succ_self _), Option.map_some,
    Option.getD_some, SchemaGraph.offer_first, SchemaGraph.offer_all, List.nil_append]

end Schema

end SchemaLoom

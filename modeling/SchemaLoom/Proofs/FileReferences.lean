import Mathlib.Data.List.Nodup
import Mathlib.Data.List.Perm.Subperm
import Mathlib.Logic.Relation
import SchemaLoom.JsonSchema.Load
import SchemaLoom.JsonSchema.Traverse
import SchemaLoom.Proofs.Result

/-!
# References to files

Resolving the files of a schema comes to an end with any finite set of files. It
succeeds exactly when every file the schema leads to can be loaded and none of them
leads back to itself. The result refers to no file, and it differs from the schema
only at and below the references.

What the loaded files mean to each other's definitions is not settled here.
-/

namespace SchemaLoom.Schema

set_option autoImplicit false

open Result

mutual
/-- The schemas that refer to a file and stand below no other one that does. -/
def fileRefs : Schema → List Schema
  | null => []
  | node k cs => if isFileRef (node k cs) then [node k cs] else fileRefsAll cs

def fileRefsAll : List (Location × Schema) → List Schema
  | [] => []
  | c :: cs => fileRefsChild c ++ fileRefsAll cs

def fileRefsChild : Location × Schema → List Schema
  | (_, s) => s.fileRefs
end

/-- The path a reference stands for, seen from a folder. -/
def refPath (folder : Text) (s : Schema) : Text := Path.join folder (Text.ofString s.keywords.ref)

def filePaths (folder : Text) (s : Schema) : List Text := s.fileRefs.map (refPath folder)

def Refers (read : ReadFile) (p q : Text) : Prop :=
  ∃ s, load read p = .ok s ∧ q ∈ s.filePaths (Path.dir p)

/-- A schema leads to a file, directly or through other files. -/
def Meets (read : ReadFile) (folder : Text) (s : Schema) (q : Text) : Prop :=
  ∃ p ∈ s.filePaths folder, Relation.ReflTransGen (Refers read) p q

/-! ### One schema -/

/-- The replacement of a schema succeeds or fails with the references in it. -/
theorem tells_replaceRefs (load : LoadRef) (s : Schema) :
    Tells (replaceRefs load s) (∀ t ∈ s.fileRefs, ∃ u, load t = .ok u)
      fun e => ∃ t ∈ s.fileRefs, load t = .error e := by
  refine (replaceRefs.mutual_induct
    (fun s => Tells (replaceRefs load s) (∀ t ∈ s.fileRefs, ∃ u, load t = .ok u)
      fun e => ∃ t ∈ s.fileRefs, load t = .error e)
    (fun cs => Tells (replaceRefsAll load cs)
      (∀ t ∈ fileRefsAll cs, ∃ u, load t = .ok u)
      fun e => ∃ t ∈ fileRefsAll cs, load t = .error e)
    (fun c => Tells (replaceRefsChild load c)
      (∀ t ∈ fileRefsChild c, ∃ u, load t = .ok u)
      fun e => ∃ t ∈ fileRefsChild c, load t = .error e) ?_ ?_ ?_ ?_ ?_ ?_).1 s
  · exact .of_ok rfl (by simp [fileRefs])
  · intro k cs hfile
    rw [replaceRefs, if_pos hfile, fileRefs, if_pos hfile]
    constructor
    · intro u hu t ht
      rw [List.mem_singleton.mp ht]
      exact ⟨u, hu⟩
    · exact fun e he => ⟨_, List.mem_singleton_self _, he⟩
  · intro k cs hfile ih
    rw [replaceRefs, if_neg hfile, fileRefs, if_neg hfile]
    exact ih.bind_ok fun ds => ⟨_, rfl⟩
  · exact .of_ok rfl (by simp [fileRefsAll])
  · intro c cs ihc ihcs
    rw [replaceRefsAll, fileRefsAll]
    refine (ihc.bind fun d _ => ihcs.bind_ok fun ds => ⟨_, rfl⟩).mono ?_ ?_
    · rintro ⟨hc, hcs⟩ t ht
      exact (List.mem_append.mp ht).elim (hc t) (hcs t)
    · rintro e (⟨t, ht, he⟩ | ⟨t, ht, he⟩)
      · exact ⟨t, List.mem_append_left _ ht, he⟩
      · exact ⟨t, List.mem_append_right _ ht, he⟩
  · intro l s ih
    rw [replaceRefsChild, fileRefsChild]
    exact ih.bind_ok fun d => ⟨_, rfl⟩

/-! ### One reference -/

/-- What stands in the place of a schema that refers to a file. -/
def follow (read : ReadFile) (resolve : Text → List Text → Schema → Result Schema)
    (folder : Text) (stack : List Text) : LoadRef := fun s => do
  let path := Path.join folder (Text.ofString s.keywords.ref)
  if stack.contains path then Result.fail (.circularFile path)
  else
    let loaded ← load read path
    let loaded ← resolve (Path.dir path) (path :: stack) loaded
    .ok (s.replaceBy loaded)

section Follow
variable {read : ReadFile} {resolve : Text → List Text → Schema → Result Schema} {folder : Text}
  {stack : List Text} {s : Schema}

theorem resolveFiles_succ (read : ReadFile) (fuel : Nat) (folder : Text) (stack : List Text)
    (s : Schema) : resolveFiles read (fuel + 1) folder stack s =
      replaceRefs (follow read (resolveFiles read fuel) folder stack) s := rfl

theorem follow_of_mem (h : s.refPath folder ∈ stack) :
    follow read resolve folder stack s = Result.fail (.circularFile (s.refPath folder)) :=
  if_pos (List.contains_iff_mem.mpr h)

theorem follow_of_not_mem (h : s.refPath folder ∉ stack) :
    follow read resolve folder stack s = (do
      let t ← load read (s.refPath folder)
      let u ← resolve (Path.dir (s.refPath folder)) (s.refPath folder :: stack) t
      .ok (s.replaceBy u)) :=
  if_neg fun hmem => h (List.contains_iff_mem.mp hmem)

theorem follow_eq_ok {v : Schema} (h : follow read resolve folder stack s = .ok v) :
    s.refPath folder ∉ stack ∧ ∃ t u, load read (s.refPath folder) = .ok t ∧
      resolve (Path.dir (s.refPath folder)) (s.refPath folder :: stack) t = .ok u ∧
      v = s.replaceBy u := by
  by_cases hmem : s.refPath folder ∈ stack
  · rw [follow_of_mem hmem] at h
    exact absurd h fail_ne_ok
  · rw [follow_of_not_mem hmem] at h
    obtain ⟨t, ht, h⟩ := bind_eq_ok.mp h
    obtain ⟨u, hu, h⟩ := bind_eq_ok.mp h
    cases h
    exact ⟨hmem, t, u, ht, hu, rfl⟩

theorem follow_eq_error {e : Failure} (h : follow read resolve folder stack s = .error e) :
    (s.refPath folder ∈ stack ∧ e = Failure.of (.circularFile (s.refPath folder))) ∨
      s.refPath folder ∉ stack ∧ (load read (s.refPath folder) = .error e ∨
        ∃ t, load read (s.refPath folder) = .ok t ∧
          resolve (Path.dir (s.refPath folder)) (s.refPath folder :: stack) t = .error e) := by
  by_cases hmem : s.refPath folder ∈ stack
  · rw [follow_of_mem hmem] at h
    exact .inl ⟨hmem, fail_eq_error.mp h⟩
  · rw [follow_of_not_mem hmem] at h
    refine .inr ⟨hmem, ?_⟩
    rcases bind_eq_error.mp h with h | ⟨t, ht, h⟩
    · exact .inl h
    · rcases bind_eq_error.mp h with h | ⟨u, _, h⟩
      · exact .inr ⟨t, ht, h⟩
      · cases h

end Follow

section Run
variable {read : ReadFile}

/-- More depth than there are files changes nothing: each level has one more file on the stack. -/
theorem resolveFiles_stable {known : List Text} (hknown : ∀ p s, load read p = .ok s → p ∈ known)
    {fuel : Nat} {stack : List Text} (hnodup : stack.Nodup) (hstack : stack ⊆ known)
    (hfuel : known.length < fuel + stack.length) (folder : Text) (s : Schema) :
    resolveFiles read (fuel + 1) folder stack s = resolveFiles read fuel folder stack s := by
  induction fuel generalizing stack folder s with
  | zero =>
    have hlen := (hnodup.subperm hstack).length_le
    omega
  | succ fuel ih =>
    rw [resolveFiles_succ, resolveFiles_succ read fuel]
    congr 1
    funext t
    by_cases hmem : t.refPath folder ∈ stack
    · rw [follow_of_mem hmem, follow_of_mem hmem]
    · rw [follow_of_not_mem hmem, follow_of_not_mem hmem]
      cases hload : load read (t.refPath folder) with
      | error e => rfl
      | ok u =>
        have hcons : (t.refPath folder :: stack).Nodup := List.nodup_cons.mpr ⟨hmem, hnodup⟩
        have hsub : t.refPath folder :: stack ⊆ known :=
          List.cons_subset.mpr ⟨hknown _ u hload, hstack⟩
        have hlt : known.length < fuel + (t.refPath folder :: stack).length := by
          rw [List.length_cons]
          omega
        change (resolveFiles read (fuel + 1) _ _ u >>= _) = (resolveFiles read fuel _ _ u >>= _)
        rw [ih hcons hsub hlt]

/-- The files on the stack are not met again, and each file that is met is resolved with itself on
the stack. -/
theorem resolved_of_meets {fuel : Nat} {folder : Text} {stack : List Text} {s s' : Schema}
    (h : resolveFiles read fuel folder stack s = .ok s') {q : Text} (hq : Meets read folder s q) :
    q ∉ stack ∧ ∃ fuel above t t', q ∈ above ∧ load read q = .ok t ∧
      resolveFiles read fuel (Path.dir q) above t = .ok t' := by
  induction fuel generalizing folder stack s s' with
  | zero => exact absurd h fail_ne_ok
  | succ fuel ih =>
    obtain ⟨p, hp, hpq⟩ := hq
    obtain ⟨r, hr, rfl⟩ := List.mem_map.mp hp
    obtain ⟨v, hv⟩ := (tells_replaceRefs _ s).ok s' h r hr
    obtain ⟨hmem, t, u, ht, hu, _⟩ := follow_eq_ok hv
    rcases Relation.ReflTransGen.cases_head hpq with rfl | ⟨p', ⟨t₂, ht₂, hp'⟩, hrest⟩
    · exact ⟨hmem, fuel, _, t, u, List.mem_cons_self, ht, hu⟩
    · obtain rfl : t = t₂ := by
        rw [ht] at ht₂
        exact Except.ok.inj ht₂
      obtain ⟨hnot, hresolved⟩ := ih hu ⟨p', hp', hrest⟩
      exact ⟨fun hstack => hnot (List.mem_cons_of_mem _ hstack), hresolved⟩

theorem not_cyclic_of_meets {fuel : Nat} {folder : Text} {stack : List Text} {s s' : Schema}
    (h : resolveFiles read fuel folder stack s = .ok s') {q : Text} (hq : Meets read folder s q) :
    (∃ t, load read q = .ok t) ∧ ¬ Relation.TransGen (Refers read) q q := by
  obtain ⟨_, fuel', above, t, t', habove, ht, ht'⟩ := resolved_of_meets h hq
  refine ⟨⟨t, ht⟩, ?_⟩
  intro hcycle
  obtain ⟨p, ⟨t₂, ht₂, hp⟩, hback⟩ := Relation.TransGen.head'_iff.mp hcycle
  obtain rfl : t = t₂ := by
    rw [ht] at ht₂
    exact Except.ok.inj ht₂
  exact (resolved_of_meets ht' ⟨p, hp, hback⟩).1 habove

/-- A failure is that of a file that is met, which cannot be loaded or leads back to itself. The
induction carries that every file on the stack leads to what is met next. -/
theorem meets_of_error {known : List Text} (hknown : ∀ p s, load read p = .ok s → p ∈ known)
    {fuel : Nat} {folder : Text} {stack : List Text} {s : Schema} (hnodup : stack.Nodup)
    (hstack : stack ⊆ known) (hfuel : known.length < fuel + stack.length)
    (hleads : ∀ q ∈ stack, ∀ p ∈ s.filePaths folder, Relation.TransGen (Refers read) q p)
    {e : Failure} (h : resolveFiles read fuel folder stack s = .error e) :
    ∃ q, Meets read folder s q ∧ (load read q = .error e ∨
      e = Failure.of (.circularFile q) ∧ Relation.TransGen (Refers read) q q) := by
  induction fuel generalizing folder stack s with
  | zero =>
    have hlen := (hnodup.subperm hstack).length_le
    omega
  | succ fuel ih =>
    obtain ⟨r, hr, he⟩ := (tells_replaceRefs _ s).error e h
    have hp : r.refPath folder ∈ s.filePaths folder := List.mem_map_of_mem hr
    rcases follow_eq_error he with ⟨hmem, he⟩ | ⟨hmem, he | ⟨t, ht, he⟩⟩
    · exact ⟨_, ⟨_, hp, .refl⟩, .inr ⟨he, hleads _ hmem _ hp⟩⟩
    · exact ⟨_, ⟨_, hp, .refl⟩, .inl he⟩
    · have hedge : ∀ p ∈ t.filePaths (Path.dir (r.refPath folder)),
          Refers read (r.refPath folder) p := fun p hp => ⟨t, ht, hp⟩
      obtain ⟨q, ⟨p, hpt, hpq⟩, hq⟩ := ih (List.nodup_cons.mpr ⟨hmem, hnodup⟩)
        (List.cons_subset.mpr ⟨hknown _ t ht, hstack⟩) (by rw [List.length_cons]; omega)
        (by
          intro x hx p hpt
          rcases List.mem_cons.mp hx with rfl | hx
          · exact .single (hedge p hpt)
          · exact (hleads x hx _ hp).tail (hedge p hpt)) he
      exact ⟨q, ⟨_, hp, .head (hedge p hpt) hpq⟩, hq⟩

end Run

/-! ### Before and after -/

/-- A schema and what it has become with the files in place. -/
inductive Inlined (read : ReadFile) : Text → Schema → Schema → Prop
  | null {folder : Text} : Inlined read folder null null
  | kept {folder : Text} {k : Keywords} {cs ds : List (Location × Schema)} :
      isFileRef (node k cs) = false → ds.map (·.1) = cs.map (·.1) →
      (∀ (i : Nat) (c d : Location × Schema), cs[i]? = some c → ds[i]? = some d →
        Inlined read folder c.2 d.2) →
      Inlined read folder (node k cs) (node k ds)
  | file {folder : Text} {s t u : Schema} : s.isFileRef = true →
      load read (s.refPath folder) = .ok t → Inlined read (Path.dir (s.refPath folder)) t u →
      Inlined read folder s (s.replaceBy u)

theorem inlined_of_replaceRefs {read : ReadFile} {folder : Text} {load : LoadRef}
    (hload : ∀ t u, t.isFileRef = true → load t = .ok u → Inlined read folder t u) (s : Schema) :
    ∀ s', replaceRefs load s = .ok s' → Inlined read folder s s' := by
  refine (replaceRefs.mutual_induct
    (fun s => ∀ s', replaceRefs load s = .ok s' → Inlined read folder s s')
    (fun cs => ∀ ds, replaceRefsAll load cs = .ok ds →
      ds.map (·.1) = cs.map (·.1) ∧ ∀ (i : Nat) (c d : Location × Schema), cs[i]? = some c →
        ds[i]? = some d → Inlined read folder c.2 d.2)
    (fun c => ∀ d, replaceRefsChild load c = .ok d →
      d.1 = c.1 ∧ Inlined read folder c.2 d.2) ?_ ?_ ?_ ?_ ?_ ?_).1 s
  · intro s' h
    cases h
    exact .null
  · intro k cs hfile s' h
    rw [replaceRefs, if_pos hfile] at h
    exact hload _ _ hfile h
  · intro k cs hfile ih s' h
    rw [replaceRefs, if_neg hfile] at h
    obtain ⟨ds, hds, h⟩ := bind_eq_ok.mp h
    cases h
    obtain ⟨hlocations, hall⟩ := ih ds hds
    exact .kept (Bool.eq_false_iff.mpr hfile) hlocations hall
  · intro ds h
    cases h
    exact ⟨rfl, by simp⟩
  · intro c cs ihc ihcs ds h
    rw [replaceRefsAll] at h
    obtain ⟨d, hd, h⟩ := bind_eq_ok.mp h
    obtain ⟨rest, hrest, h⟩ := bind_eq_ok.mp h
    cases h
    obtain ⟨hlocation, hfirst⟩ := ihc d hd
    obtain ⟨hlocations, hall⟩ := ihcs rest hrest
    refine ⟨by rw [List.map_cons, List.map_cons, hlocation, hlocations], ?_⟩
    intro i a b ha hb
    cases i with
    | zero =>
      cases ha
      cases hb
      exact hfirst
    | succ i => exact hall i a b ha hb
  · intro l s ih d h
    rw [replaceRefsChild] at h
    obtain ⟨s', hs', h⟩ := bind_eq_ok.mp h
    cases h
    exact ⟨rfl, ih s' hs'⟩

theorem inlined_of_resolveFiles {read : ReadFile} {fuel : Nat} {folder : Text}
    {stack : List Text} {s s' : Schema} (h : resolveFiles read fuel folder stack s = .ok s') :
    Inlined read folder s s' := by
  induction fuel generalizing folder stack s s' with
  | zero => exact absurd h fail_ne_ok
  | succ fuel ih =>
    refine inlined_of_replaceRefs ?_ s s' h
    intro t v hfile hv
    obtain ⟨_, u, w, hu, hw, rfl⟩ := follow_eq_ok hv
    exact .file hfile hu (ih hw)

theorem isFileRef_congr {s t : Schema} (h : s.keywords.ref = t.keywords.ref) :
    s.isFileRef = t.isFileRef := by
  rw [isFileRef, isFileRef, h]

theorem ref_replaceBy (s u : Schema) : (s.replaceBy u).keywords.ref = u.keywords.ref := rfl

theorem lookup_of_locations {α β : Type} {R : α → β → Prop} {cs : List (Location × α)}
    {ds : List (Location × β)} (hlocations : ds.map (·.1) = cs.map (·.1))
    (hall : ∀ (i : Nat) (c : Location × α) (d : Location × β), cs[i]? = some c →
      ds[i]? = some d → R c.2 d.2) (l : Location) :
    (cs.lookup l = none ∧ ds.lookup l = none) ∨
      ∃ c d, cs.lookup l = some c ∧ ds.lookup l = some d ∧ R c d := by
  induction cs generalizing ds with
  | nil =>
    obtain rfl : ds = [] := by simpa using hlocations
    exact .inl ⟨rfl, rfl⟩
  | cons c cs ih =>
    cases ds with
    | nil => simp at hlocations
    | cons d ds =>
      obtain ⟨hhead, htail⟩ := List.cons_eq_cons.mp hlocations
      obtain ⟨a, c⟩ := c
      obtain ⟨b, d⟩ := d
      obtain rfl : b = a := hhead
      by_cases hl : l = b
      · subst hl
        exact .inr ⟨c, d, by simp, by simp, hall 0 _ _ rfl rfl⟩
      · have hskip : (l == b) = false := by simpa using hl
        rw [List.lookup_cons, List.lookup_cons, hskip]
        exact ih htail fun i => hall (i + 1)

namespace Inlined
variable {read : ReadFile} {folder : Text} {s s' : Schema}

/-- Nothing refers to a file any more. -/
theorem not_isFileRef (h : Inlined read folder s s') {p : Position} {t : Schema}
    (ht : s'.at? p = some t) : t.isFileRef = false := by
  induction h generalizing p t with
  | null =>
    cases p with
    | nil =>
      cases ht
      rfl
    | cons l p => cases ht
  | @kept folder k cs ds hfile hlocations _ ih =>
    cases p with
    | nil =>
      cases ht
      exact hfile
    | cons l p =>
      obtain ⟨d, hd, ht⟩ := Option.bind_eq_some_iff.mp ht
      rcases lookup_of_locations hlocations (R := fun _ d => ∀ p t, Schema.at? d p = some t →
          t.isFileRef = false) (fun i c d hc hd p t => ih i c d hc hd) l with
        ⟨_, hnone⟩ | ⟨_, e, _, he, hR⟩
      · cases hnone.symm.trans hd
      · obtain rfl : e = d := Option.some.inj (he.symm.trans hd)
        exact hR p t ht
  | @file folder s t u _ _ _ ih =>
    cases p with
    | nil =>
      cases ht
      rw [isFileRef_congr (ref_replaceBy s u)]
      exact ih (p := []) rfl
    | cons l p => exact ih (p := l :: p) ht

end Inlined

/-- What a schema says itself, apart from its subschemas. -/
def surface (s : Schema) : Bool × Keywords × List Location :=
  (s.isNull, s.keywords, s.children.map (·.1))

/-- No reference to a file stands at a position or above it. -/
def ClearOfFiles (s : Schema) (p : Position) : Prop :=
  ∀ q t, q <+: p → s.at? q = some t → t.isFileRef = false

theorem Inlined.surface_at? {read : ReadFile} {folder : Text} {s s' : Schema}
    (h : Inlined read folder s s') {p : Position} (hp : s.ClearOfFiles p) :
    (s'.at? p).map surface = (s.at? p).map surface := by
  induction h generalizing p with
  | null => rfl
  | @kept folder k cs ds _ hlocations _ ih =>
    cases p with
    | nil => simp [at?, surface, isNull, keywords, children, hlocations]
    | cons l p =>
      rcases lookup_of_locations hlocations (R := fun c d => ∀ p, ClearOfFiles c p →
        (Schema.at? d p).map surface = (Schema.at? c p).map surface)
        (fun i c d hc hd p => ih i c d hc hd) l with ⟨hc, hd⟩ | ⟨c, d, hc, hd, hR⟩
      · simp [at?, child?, children, hc, hd]
      · have hclear : ClearOfFiles c p := by
          intro q t hq ht
          refine hp (l :: q) t (List.cons_prefix_cons.mpr ⟨rfl, hq⟩) ?_
          simpa [at?, child?, children, hc] using ht
        simpa [at?, child?, children, hc, hd] using hR p hclear
  | @file folder s t u hfile _ _ _ =>
    have hfalse := hp [] s (List.nil_prefix) rfl
    rw [hfile] at hfalse
    cases hfalse

theorem mem_traverse {s t : Schema} {resolve : Resolver} (h : t ∈ s.traverse resolve) :
    ∃ p, s.at? p = some t := by
  obtain ⟨p, _, hp⟩ := List.mem_filterMap.mp h
  exact ⟨p, hp⟩

/-! ### Sets of files -/

theorem mem_of_load {fs : Files} {p : Text} {s : Schema} (h : load fs.read p = .ok s) :
    p ∈ fs.entries.map (·.1) := by
  obtain ⟨t, ht, _⟩ := bind_eq_ok.mp h
  unfold Files.read at ht
  split at ht
  · exact absurd ht fail_ne_ok
  · split at ht
    · rename_i x hx
      obtain ⟨before, after, hentries, _⟩ := List.lookup_eq_some_iff.mp hx
      rw [hentries]
      simp
    · split at ht <;> exact absurd ht fail_ne_ok

/-- With a finite set of files there is a depth that more does not change anything about. Resolving
then succeeds exactly if all files that are met can be loaded and none leads back to itself, and a
failure names such a file. A result refers to no file and is the same outside of references. -/
theorem resolveFiles_iff (fs : Files) (folder : Text) (root : Schema) (more : Nat) :
    resolveFiles fs.read (fs.entries.length + 1 + more) folder [] root =
      resolveFiles fs.read (fs.entries.length + 1) folder [] root ∧
    ((∃ s, resolveFiles fs.read (fs.entries.length + 1) folder [] root = .ok s) ↔
      (∀ p, Meets fs.read folder root p → ∃ s, load fs.read p = .ok s) ∧
      ∀ p, Meets fs.read folder root p → ¬ Relation.TransGen (Refers fs.read) p p) ∧
    (∀ e, resolveFiles fs.read (fs.entries.length + 1) folder [] root = .error e →
      ∃ p, Meets fs.read folder root p ∧ (load fs.read p = .error e ∨
        e = Failure.of (.circularFile p) ∧ Relation.TransGen (Refers fs.read) p p)) ∧
    ∀ s, resolveFiles fs.read (fs.entries.length + 1) folder [] root = .ok s →
      (∀ resolve, ∀ t ∈ s.traverse resolve, t.isFileRef = false) ∧
      (∀ p t, s.at? p = some t → t.isFileRef = false) ∧
      ∀ p, root.ClearOfFiles p → (s.at? p).map surface = (root.at? p).map surface := by
  have hknown : ∀ p s, load fs.read p = .ok s → p ∈ fs.entries.map (·.1) := fun _ _ => mem_of_load
  have hdepth : (fs.entries.map (·.1)).length < fs.entries.length + 1 + ([] : List Text).length := by
    simp
  have herror : ∀ e, resolveFiles fs.read (fs.entries.length + 1) folder [] root = .error e →
      ∃ p, Meets fs.read folder root p ∧ (load fs.read p = .error e ∨
        e = Failure.of (.circularFile p) ∧ Relation.TransGen (Refers fs.read) p p) := fun _ =>
    meets_of_error hknown .nil (List.nil_subset _) hdepth (by simp)
  refine ⟨?_, ?_, herror, ?_⟩
  · induction more with
    | zero => rfl
    | succ more ih =>
      rw [← ih]
      exact resolveFiles_stable hknown .nil (List.nil_subset _) (by simp; omega) folder root
  · constructor
    · rintro ⟨s, hs⟩
      exact ⟨fun p hp => (not_cyclic_of_meets hs hp).1, fun p hp => (not_cyclic_of_meets hs hp).2⟩
    · rintro ⟨hloads, hacyclic⟩
      cases hrun : resolveFiles fs.read (fs.entries.length + 1) folder [] root with
      | ok s => exact ⟨s, rfl⟩
      | error e =>
        obtain ⟨p, hp, hload | ⟨_, hcycle⟩⟩ := herror e hrun
        · obtain ⟨s, hs⟩ := hloads p hp
          rw [hs] at hload
          cases hload
        · exact absurd hcycle (hacyclic p hp)
  · intro s hs
    have hinlined := inlined_of_resolveFiles hs
    refine ⟨?_, fun p t => hinlined.not_isFileRef, fun p => hinlined.surface_at?⟩
    intro resolve t ht
    obtain ⟨p, hp⟩ := mem_traverse ht
    exact hinlined.not_isFileRef hp

end SchemaLoom.Schema

import Flowchart.Proofs.BoundHistories
import Mathlib.Data.List.Forall2
import Mathlib.Data.List.Perm.Basic

/-!
# Histories of interleaved attempts

Attempts are filed by reference, and a parent is linked to its children only when all attempts are
there. So how the attempts of different tasks interleave shows in two orders only: in that of the
references, and in that of the children that one attempt spawned.
-/

namespace Flowchart

/-- Both requests fail, or both give results and these are related. -/
def Outcome.Both {α β ε : Type} (R : α → β → Prop) : Except ε α → Except ε β → Prop
  | .ok a, .ok b => R a b
  | .error _, .error _ => True
  | .ok _, .error _ | .error _, .ok _ => False

namespace Outcome

variable {α β ε : Type} {R : α → β → Prop}

theorem Both.of_ok {x : Except ε α} {y : Except ε β} {a : α} (h : Both R x y) (hx : x = .ok a) :
    ∃ b, y = .ok b ∧ R a b := by
  subst hx
  cases y with
  | error e => exact h.elim
  | ok b => exact ⟨b, rfl, h⟩

theorem Both.trans {x y z : Except ε (List α)} (h : Both List.Perm x y) (h' : Both List.Perm y z) :
    Both List.Perm x z := by
  cases x <;> cases y <;> cases z <;> try trivial
  exact List.Perm.trans h h'

/-- Requests that are made one by one give the same results in any order. -/
theorem mapM_perm {f : α → Except ε β} {as bs : List α} (h : as.Perm bs) :
    Both List.Perm (as.mapM f) (bs.mapM f) := by
  induction h with
  | nil => exact List.Perm.refl []
  | @cons a as bs _ ih =>
    rw [List.mapM_cons, List.mapM_cons]
    cases f a with
    | error e => trivial
    | ok c =>
      revert ih
      cases as.mapM f <;> cases bs.mapM f <;> intro ih
      · trivial
      · exact ih.elim
      · exact ih.elim
      · exact List.Perm.cons c ih
  | swap a b as =>
    simp only [List.mapM_cons]
    cases f a <;> cases f b <;> cases as.mapM f <;> try trivial
    exact List.Perm.swap _ _ _
  | trans _ _ ih ih' => exact ih.trans ih'

end Outcome

/-- Attempts that differ in the order of what they spawned, if at all. -/
structure Attempt.Alike (a b : Attempt) : Prop where
  same : { a with spawned := none } = { b with spawned := none }
  spawned : Option.Rel List.Perm a.spawned b.spawned

theorem relPerm_refl {α : Type} (o : Option (List α)) : Option.Rel List.Perm o o := by
  cases o with
  | none => exact .none
  | some as => exact .some (List.Perm.refl as)

theorem relPerm_symm {α : Type} {o o' : Option (List α)} (h : Option.Rel List.Perm o o') :
    Option.Rel List.Perm o' o := by
  cases h with
  | none => exact .none
  | some hrefs => exact .some hrefs.symm

theorem relPerm_trans {α : Type} {o o' o'' : Option (List α)} (h : Option.Rel List.Perm o o')
    (h' : Option.Rel List.Perm o' o'') : Option.Rel List.Perm o o'' := by
  cases h with
  | none => exact h'
  | some hrefs =>
    cases h' with
    | some hrefs' => exact .some (hrefs.trans hrefs')

theorem relPerm_getD {α : Type} {o o' : Option (List α)} (h : Option.Rel List.Perm o o') :
    (o.getD []).Perm (o'.getD []) := by
  cases h with
  | none => exact List.Perm.refl []
  | some hrefs => exact hrefs

/-- A reference that is recorded stands behind those before it, unless it is one of them. -/
def recordRef (refs : List String) (child : String) : List String :=
  if child ∈ refs then refs else refs ++ [child]

theorem recordRef_perm {refs refs' : List String} (h : refs.Perm refs') (child : String) :
    (recordRef refs child).Perm (recordRef refs' child) := by
  unfold recordRef
  by_cases hmem : child ∈ refs
  · rw [if_pos hmem, if_pos (h.mem_iff.mp hmem)]
    exact h
  · rw [if_neg hmem, if_neg fun hmem' => hmem (h.mem_iff.mpr hmem')]
    exact h.append_right [child]

theorem recordRef_swap (refs : List String) (c d : String) :
    (recordRef (recordRef refs c) d).Perm (recordRef (recordRef refs d) c) := by
  by_cases hcd : c = d
  · rw [hcd]
  · by_cases hc : c ∈ refs <;> by_cases hd : d ∈ refs <;>
      simp [recordRef, hc, hd, hcd, Ne.symm hcd]
    exact (List.Perm.swap d c []).append_left refs

namespace Attempt

theorem Alike.refl (a : Attempt) : a.Alike a := ⟨rfl, relPerm_refl _⟩

theorem Alike.trans {a b c : Attempt} (h : a.Alike b) (h' : b.Alike c) : a.Alike c :=
  ⟨h.same.trans h'.same, relPerm_trans h.spawned h'.spawned⟩

theorem Alike.symm {a b : Attempt} (h : a.Alike b) : b.Alike a :=
  ⟨h.same.symm, relPerm_symm h.spawned⟩

theorem Alike.status_eq {a b : Attempt} (h : a.Alike b) : a.status = b.status := by
  have heq := congrArg status h.same
  exact heq

theorem Alike.isBubble_eq {a b : Attempt} (h : a.Alike b) : a.isBubble = b.isBubble := by
  have heq := congrArg isBubble h.same
  exact heq

theorem Alike.task_eq {a b : Attempt} (h : a.Alike b) : a.task = b.task := by
  have heq := congrArg task h.same
  exact heq

theorem Alike.addSpawned {a b : Attempt} (h : a.Alike b) (child : String) :
    (a.addSpawned child).Alike (b.addSpawned child) :=
  ⟨h.same, .some (recordRef_perm (relPerm_getD h.spawned) child)⟩

theorem Alike.foldl_addSpawned {a b : Attempt} (h : a.Alike b) (children : List String) :
    (children.foldl Attempt.addSpawned a).Alike (children.foldl Attempt.addSpawned b) := by
  induction children generalizing a b with
  | nil => exact h
  | cons child rest ih => exact ih (h.addSpawned child)

theorem alike_addSpawned_swap (a : Attempt) (c d : String) :
    ((a.addSpawned c).addSpawned d).Alike ((a.addSpawned d).addSpawned c) :=
  ⟨rfl, .some (recordRef_swap _ c d)⟩

/-- The order in which children are linked shows in the order of the record alone. -/
theorem alike_foldl_addSpawned {children children' : List String} (h : children.Perm children')
    (a : Attempt) : (children.foldl addSpawned a).Alike (children'.foldl addSpawned a) := by
  induction h generalizing a with
  | nil => exact Alike.refl a
  | cons child _ ih => exact ih (a.addSpawned child)
  | swap c d rest => exact (alike_addSpawned_swap a d c).foldl_addSpawned rest
  | trans _ _ ih ih' => exact (ih a).trans (ih' a)

end Attempt

/-! ### Links

A link changes nothing but the last attempt of its parent. So the links of one parent can be taken
together, whichever others come between them, and histories whose links are in different orders are
compared parent by parent.
-/

theorem mapLast_mapLast {α : Type} (f g : α → α) (as : List α) :
    mapLast f (mapLast g as) = mapLast (f ∘ g) as := by
  induction as with
  | nil => rfl
  | cons a as ih =>
    cases as with
    | nil => rfl
    | cons b bs =>
      have hne : mapLast g (b :: bs) ≠ [] := fun h => List.cons_ne_nil b bs (mapLast_eq_nil.mp h)
      obtain ⟨c, cs, hcs⟩ := List.exists_cons_of_ne_nil hne
      have hcons : mapLast g (a :: b :: bs) = a :: mapLast g (b :: bs) := rfl
      rw [hcons]
      rw [hcs] at ih ⊢
      exact congrArg (a :: ·) ih

theorem mapLast_id {α : Type} (as : List α) : mapLast id as = as := by
  induction as with
  | nil => rfl
  | cons a as ih =>
    cases as with
    | nil => rfl
    | cons b bs => exact congrArg (a :: ·) ih

namespace History

variable {h h' : History} {links links' : List (String × String)}

/-- The children that links give to a parent. -/
def childrenOf (links : List (String × String)) (parent : String) : List String :=
  (links.filter (·.1 = parent)).map (·.2)

theorem terminated_link {parent child : String} (hlink : h.link parent child = .ok h') :
    h'.terminated = h.terminated := by
  unfold link at hlink
  split at hlink
  · cases hlink
  · obtain rfl := Outcome.pure_eq_ok.mp hlink
    rfl

/-- Links change the latest attempts of parents, by the children that these are linked to. -/
theorem links_ok (hlinks : links.foldlM (fun h link => h.link link.1 link.2) h = .ok h') :
    h'.terminated = h.terminated ∧ h'.references = h.references ∧ ∀ r, h'.attempts r =
      mapLast (fun a => (childrenOf links r).foldl Attempt.addSpawned a) (h.attempts r) := by
  induction links generalizing h with
  | nil =>
    obtain rfl := Outcome.pure_eq_ok.mp hlinks
    exact ⟨rfl, rfl, fun r => (mapLast_id _).symm⟩
  | cons first links ih =>
    rw [List.foldlM_cons, Outcome.bind_eq_ok] at hlinks
    obtain ⟨next, hfirst, hlinks⟩ := hlinks
    obtain ⟨hterminated, hreferences, hattempts⟩ := ih hlinks
    refine ⟨hterminated.trans (terminated_link hfirst),
      hreferences.trans (references_link hfirst), fun r => ?_⟩
    rw [hattempts, attempts_link hfirst]
    by_cases heq : first.1 = r
    · have hchildren : childrenOf (first :: links) r = first.2 :: childrenOf links r := by
        simp [childrenOf, heq]
      rw [if_pos heq, mapLast_mapLast, hchildren]
      rfl
    · have hchildren : childrenOf (first :: links) r = childrenOf links r := by
        simp [childrenOf, heq]
      rw [if_neg heq, hchildren]

/-- Links can be made if all parents have attempts. -/
theorem exists_links_iff :
    (∃ h', links.foldlM (fun h link => h.link link.1 link.2) h = .ok h') ↔
      ∀ link ∈ links, h.attempts link.1 ≠ [] := by
  induction links generalizing h with
  | nil => exact ⟨fun _ _ hlink => absurd hlink List.not_mem_nil, fun _ => ⟨h, rfl⟩⟩
  | cons first links ih =>
    rw [List.forall_mem_cons, ← latest?_isSome]
    cases hlatest : h.latest? first.1 with
    | none =>
      constructor
      · rintro ⟨h', hlinks⟩
        rw [List.foldlM_cons, link, hlatest] at hlinks
        cases hlinks
      · rintro ⟨hsome, -⟩
        cases hsome
    | some a =>
      obtain ⟨next, hnext⟩ : ∃ next, h.link first.1 first.2 = .ok next := by
        rw [link, hlatest]
        exact ⟨_, rfl⟩
      have hkeeps : ∀ r, next.attempts r = [] ↔ h.attempts r = [] := fun r =>
        attempts_link_eq_nil hnext
      simp only [List.foldlM_cons, hnext, ne_eq, ← hkeeps]
      exact ih.trans (by simp)

/-- Histories with the same attempts, but for the order of what one attempt spawned. -/
structure Alike (h h' : History) : Prop where
  terminated : h.terminated = h'.terminated
  references : h.references.Perm h'.references
  attempts : ∀ r, List.Forall₂ Attempt.Alike (h.attempts r) (h'.attempts r)

theorem Alike.add (hh : h.Alike h') (a : Attempt) : (h.add a).Alike (h'.add a) where
  terminated := hh.terminated
  references := by
    have hperm : (Dict.keys h.entries).Perm (Dict.keys h'.entries) := hh.references
    change (Dict.keys (Dict.put _ _ _)).Perm (Dict.keys (Dict.put _ _ _))
    rw [Dict.keys_put, Dict.keys_put]
    by_cases hknown : a.reference ∈ Dict.keys h.entries
    · rw [if_pos hknown, if_pos (hperm.mem_iff.mp hknown)]
      exact hperm
    · rw [if_neg hknown, if_neg fun hknown' => hknown (hperm.mem_iff.mpr hknown')]
      exact hperm.append_right _
  attempts r := by
    rw [attempts_add, attempts_add]
    split
    · exact List.rel_append (hh.attempts r) (.cons (Attempt.Alike.refl a) .nil)
    · exact hh.attempts r

theorem Alike.symm (hh : h.Alike h') : h'.Alike h where
  terminated := hh.terminated.symm
  references := hh.references.symm
  attempts r := (hh.attempts r).flip.imp fun _ _ halike => halike.symm

/-- A reference has a latest attempt in both histories or in neither. -/
theorem Alike.latest? (hh : h.Alike h') (r : String) :
    h.latest? r = none ∧ h'.latest? r = none ∨
      ∃ a b, h.latest? r = some a ∧ h'.latest? r = some b ∧ a.Alike b := by
  rw [History.latest?, History.latest?, ← List.head?_reverse, ← List.head?_reverse]
  have hreverse := List.rel_reverse (hh.attempts r)
  generalize (h.attempts r).reverse = as at hreverse
  generalize (h'.attempts r).reverse = bs at hreverse
  cases hreverse with
  | nil => exact Or.inl ⟨rfl, rfl⟩
  | cons halike _ => exact Or.inr ⟨_, _, rfl, rfl, halike⟩

theorem Alike.latest?_isSome (hh : h.Alike h') (r : String) :
    (h.latest? r).isSome = (h'.latest? r).isSome := by
  rcases hh.latest? r with ⟨hr, hr'⟩ | ⟨a, b, hr, hr', -⟩
  · rw [hr, hr']
  · rw [hr, hr']
    rfl

theorem Alike.spawned? (hh : h.Alike h') (r : String) :
    Option.Rel List.Perm (h.spawned? r) (h'.spawned? r) := by
  rw [History.spawned?, History.spawned?]
  rcases hh.latest? r with ⟨hr, hr'⟩ | ⟨a, b, hr, hr', halike⟩
  · rw [hr, hr']
    exact .none
  · rw [hr, hr']
    exact halike.spawned

theorem Alike.children (hh : h.Alike h') (r : String) :
    ((h.spawned? r).getD []).Perm ((h'.spawned? r).getD []) := relPerm_getD (hh.spawned? r)

theorem Alike.latestOfTask (hh : h.Alike h') (r : String) :
    Outcome.Both (Option.Rel Attempt.Alike) (h.latestOfTask r) (h'.latestOfTask r) := by
  rw [History.latestOfTask, History.latestOfTask]
  rcases hh.latest? r with ⟨hr, hr'⟩ | ⟨a, b, hr, hr', halike⟩
  · rw [hr, hr']
    exact .none
  · rw [hr, hr']
    dsimp only
    rw [halike.isBubble_eq]
    cases b.isBubble
    · exact .some halike
    · trivial

theorem childrenOf_perm (h : links.Perm links')
    (r : String) : (childrenOf links r).Perm (childrenOf links' r) := (h.filter _).map _

theorem mapLast_alike {f g : Attempt → Attempt} {as bs : List Attempt}
    (hfg : ∀ a b, a.Alike b → (f a).Alike (g b)) (h : List.Forall₂ Attempt.Alike as bs) :
    List.Forall₂ Attempt.Alike (mapLast f as) (mapLast g bs) := by
  induction h with
  | nil => exact .nil
  | cons hab hrest ih =>
    cases hrest with
    | nil => exact .cons (hfg _ _ hab) .nil
    | cons _ _ => exact .cons hab ih

/-- Links that are made in another order are made alike. -/
theorem Alike.linked (hh : h.Alike h')
    (hperm : links.Perm links') :
    Outcome.Both Alike (links.foldlM (fun h link => h.link link.1 link.2) h)
      (links'.foldlM (fun h link => h.link link.1 link.2) h') := by
  have hiff : (∀ link ∈ links, h.attempts link.1 ≠ []) ↔
      ∀ link ∈ links', h'.attempts link.1 ≠ [] := by
    have hempty : ∀ r, h.attempts r ≠ [] ↔ h'.attempts r ≠ [] := by
      intro r
      rw [← History.latest?_isSome, hh.latest?_isSome, History.latest?_isSome]
    simp only [hempty, hperm.mem_iff]
  rw [← exists_links_iff, ← exists_links_iff] at hiff
  cases hlinked : links.foldlM (fun h link => h.link link.1 link.2) h with
  | error e =>
    cases hlinked' : links'.foldlM (fun h link => h.link link.1 link.2) h' with
    | error e' => trivial
    | ok linked' =>
      obtain ⟨linked, hok⟩ := hiff.mpr ⟨linked', hlinked'⟩
      cases hlinked.symm.trans hok
  | ok linked =>
    obtain ⟨linked', hlinked'⟩ := hiff.mp ⟨linked, hlinked⟩
    obtain ⟨hterminated, hreferences, hattempts⟩ := links_ok hlinked
    obtain ⟨hterminated', hreferences', hattempts'⟩ := links_ok hlinked'
    rw [hlinked']
    refine ⟨by rw [hterminated, hterminated', hh.terminated], ?_, fun r => ?_⟩
    · rw [hreferences, hreferences']
      exact hh.references
    · rw [hattempts, hattempts']
      refine mapLast_alike (fun a b hab => ?_) (hh.attempts r)
      exact (hab.foldl_addSpawned _).trans
        (Attempt.alike_foldl_addSpawned (childrenOf_perm hperm r) b)

/-- What the attempts of an execution come to, before any is linked. -/
def ofAdded (attempts : List Attempt) : History :=
  { attempts.foldl add History.empty with terminated := attempts.any (·.type == TaskType.terminate) }

/-- The attempts of the bubbles come last. -/
def withBubbles (h : History) (status : RunStatus) : History :=
  let h := h.add (.bubble startBubble .completed)
  if status = .completed ∧ ¬ h.terminated then h.add (.bubble finalBubble .completed) else h

theorem ofAttempts_eq (status : RunStatus) (attempts : List Attempt) :
    ofAttempts status attempts =
      ((attempts.filterMap spawning?).foldlM (fun h link => h.link link.1 link.2)
        (ofAdded attempts) >>= fun h => pure (h.withBubbles status)) := by
  unfold ofAttempts withBubbles ofAdded
  dsimp only
  refine congrArg _ (funext fun h => ?_)
  split <;> rfl

theorem Alike.withBubbles (hh : h.Alike h') (status : RunStatus) :
    (h.withBubbles status).Alike (h'.withBubbles status) := by
  have hstart := hh.add (.bubble startBubble .completed)
  unfold History.withBubbles
  dsimp only
  rw [hstart.terminated]
  split
  · exact hstart.add _
  · exact hstart

theorem references_nodup_ofAdded (attempts : List Attempt) :
    (ofAdded attempts).references.Nodup :=
  List.foldlRecOn (motive := fun h : History => h.references.Nodup) attempts add List.nodup_nil
    fun _ h a _ => Dict.nodup_keys_put h a.reference _

end History

section

variable {as bs : List Attempt}

/-- Lists in which each reference has the same attempts in the same order are permutations of each
other. -/
theorem perm_of_filter_eq
    (h : ∀ r, as.filter (·.reference = r) = bs.filter (·.reference = r)) : as.Perm bs := by
  rw [List.perm_iff_count]
  intro a
  have hcount : ∀ l : List Attempt,
      l.count a = (l.filter (·.reference = a.reference)).count a := fun l =>
    (List.count_filter (by simp)).symm
  rw [hcount as, h, ← hcount bs]

namespace History

theorem alike_ofAdded (hsame : ∀ r, as.filter (·.reference = r) = bs.filter (·.reference = r)) :
    (ofAdded as).Alike (ofAdded bs) := by
  have hperm := perm_of_filter_eq hsame
  refine ⟨?_, ?_, fun r => ?_⟩
  · rw [Bool.eq_iff_iff]
    simp only [ofAdded, List.any_eq_true, hperm.mem_iff]
  · refine (List.perm_ext_iff_of_nodup (references_nodup_ofAdded as)
      (references_nodup_ofAdded bs)).mpr fun r => ?_
    change r ∈ (as.foldl add History.empty).references ↔
      r ∈ (bs.foldl add History.empty).references
    simp only [mem_references_foldl_add, hperm.mem_iff]
  · have hattempts : (ofAdded as).attempts r = (ofAdded bs).attempts r := by
      change (as.foldl add History.empty).attempts r = (bs.foldl add History.empty).attempts r
      rw [attempts_foldl_add, attempts_foldl_add, hsame]
    rw [hattempts]
    exact List.forall₂_same.mpr fun a _ => Attempt.Alike.refl a

/-- Executions whose attempts differ in how those of different references interleave are bound
alike: both or neither, and to the same attempts of each reference. -/
theorem alike_ofAttempts (hsame : ∀ r, as.filter (·.reference = r) = bs.filter (·.reference = r))
    (status : RunStatus) :
    Outcome.Both Alike (ofAttempts status as) (ofAttempts status bs) := by
  have hlinks := (alike_ofAdded hsame).linked ((perm_of_filter_eq hsame).filterMap spawning?)
  rw [ofAttempts_eq, ofAttempts_eq]
  revert hlinks
  cases (as.filterMap spawning?).foldlM (fun h link => h.link link.1 link.2) (ofAdded as) <;>
    cases (bs.filterMap spawning?).foldlM (fun h link => h.link link.1 link.2) (ofAdded bs) <;>
    intro hlinked
  · trivial
  · exact hlinked.elim
  · exact hlinked.elim
  · exact hlinked.withBubbles status

end History

end

end Flowchart

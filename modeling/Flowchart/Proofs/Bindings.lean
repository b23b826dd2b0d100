import Flowchart.Proofs.AlikeHistories
import Mathlib.Data.List.Induction

/-!
# What binding an execution computes

Binding an execution files each attempt under its own reference, in the order of arrival. It notes
on the latest attempt of each reference which tasks name that reference as their parent, and it
fails if and only if a task names a parent that was never tried. The bubbles have their attempts
last.
-/

namespace Flowchart

theorem recordRef_eraseDups (refs : List String) (child : String) :
    recordRef refs.eraseDups child = (refs ++ [child]).eraseDups := by
  unfold recordRef
  rw [List.eraseDups_append]
  by_cases hmem : child ∈ refs <;> simp [List.removeAll, List.eraseDups_cons, hmem]

/-- Recording references one by one leaves each where it came first. -/
theorem foldl_recordRef_eraseDups (refs children : List String) :
    children.foldl recordRef refs.eraseDups = (refs ++ children).eraseDups := by
  induction children generalizing refs with
  | nil => simp
  | cons child rest ih =>
    rw [List.foldl_cons, recordRef_eraseDups, ih, List.append_assoc, List.singleton_append]

theorem foldl_recordRef (children : List String) :
    children.foldl recordRef [] = children.eraseDups :=
  foldl_recordRef_eraseDups [] children

/-- References that are there keep their places, and behind them comes what is new, each once. -/
theorem foldl_recordRef_eq (refs children : List String) :
    children.foldl recordRef refs = refs ++ children.eraseDups.filter (· ∉ refs) := by
  induction children using List.reverseRecOn with
  | nil => simp
  | append_singleton children child ih =>
    rw [List.foldl_concat, ih, ← recordRef_eraseDups]
    unfold recordRef
    by_cases hold : child ∈ refs
    · by_cases hknown : child ∈ children <;> simp [hold, hknown]
    · by_cases hknown : child ∈ children <;> simp [hold, hknown]

theorem nodup_recordRef {refs : List String} (h : refs.Nodup) (child : String) :
    (recordRef refs child).Nodup := by
  unfold recordRef
  by_cases hmem : child ∈ refs
  · rwa [if_pos hmem]
  · rw [if_neg hmem]
    simpa [List.nodup_append, h] using fun a ha (heq : a = child) => hmem (heq ▸ ha)

theorem nodup_eraseDups (refs : List String) : refs.eraseDups.Nodup := by
  rw [← foldl_recordRef]
  exact List.foldlRecOn (motive := List.Nodup) refs recordRef List.nodup_nil
    fun _ h child _ => nodup_recordRef h child

theorem mapLast_congr {α : Type} {f g : α → α} {as : List α} (h : ∀ a ∈ as, f a = g a) :
    mapLast f as = mapLast g as := by
  induction as with
  | nil => rfl
  | cons a as ih =>
    obtain ⟨hfirst, hrest⟩ := List.forall_mem_cons.mp h
    cases as with
    | nil => exact congrArg (fun b => [b]) hfirst
    | cons b bs => exact congrArg (a :: ·) (ih hrest)

/-- The tasks that name `parent` as what spawned them, each once, in the order of arrival. Joins are
not spawned. -/
def spawnedUnder (attempts : List Attempt) (parent : String) : List String :=
  ((attempts.filter fun a => a.type ≠ .join ∧ a.parent = some parent).map (·.reference)).eraseDups

theorem mem_spawnedUnder {attempts : List Attempt} {parent r : String} :
    r ∈ spawnedUnder attempts parent ↔
      ∃ a ∈ attempts, a.type ≠ .join ∧ a.parent = some parent ∧ a.reference = r := by
  simp [spawnedUnder, List.mem_eraseDups, and_assoc]

/-- What the latest attempt with a reference says that it spawned before it is bound. An attempt
that is read does not say anything. -/
def carriedBy (attempts : List Attempt) (reference : String) : List String :=
  ((attempts.filter (·.reference = reference)).getLast?.bind (·.spawned)).getD []

/-- What `parent` is known to have spawned after it is bound: what its latest attempt carries, and
behind that what names it as the parent. -/
def recordedUnder (attempts : List Attempt) (parent : String) : List String :=
  carriedBy attempts parent ++
    (spawnedUnder attempts parent).filter (· ∉ carriedBy attempts parent)

theorem nodup_recordedUnder {attempts : List Attempt} {parent : String}
    (h : (carriedBy attempts parent).Nodup) : (recordedUnder attempts parent).Nodup := by
  refine List.nodup_append.mpr ⟨h, (nodup_eraseDups _).filter _, fun a ha b hb heq => ?_⟩
  exact of_decide_eq_true (List.mem_filter.mp hb).2 (heq ▸ ha)

namespace Attempt

/-- The attempt names a parent that none of `attempts` is of. -/
def IsOrphan (attempts : List Attempt) (a : Attempt) : Prop :=
  a.type ≠ .join ∧ ∃ parent, a.parent = some parent ∧ ∀ b ∈ attempts, b.reference ≠ parent

/-- The attempt with a note of these references, if there are any. -/
def withSpawned (children : List String) (a : Attempt) : Attempt :=
  { a with spawned := if children = [] then none else some children }

theorem foldl_addSpawned_some (children : List String) {a : Attempt} {refs : List String}
    (h : a.spawned = some refs) :
    children.foldl addSpawned a = { a with spawned := some (children.foldl recordRef refs) } := by
  induction children generalizing a refs with
  | nil => simp [← h]
  | cons child rest ih =>
    have hadd : (a.addSpawned child).spawned = some (recordRef refs child) := by
      simp [addSpawned, recordRef, h]
    rw [List.foldl_cons, ih hadd, List.foldl_cons]
    rfl

theorem spawned_foldl_addSpawned (children : List String) (a : Attempt) :
    (children.foldl addSpawned a).spawned.getD [] =
      children.foldl recordRef (a.spawned.getD []) := by
  induction children generalizing a with
  | nil => rfl
  | cons child rest ih => exact ih (a.addSpawned child)

/-- Children that are linked to an attempt without a note are noted once each. -/
theorem foldl_addSpawned_none (children : List String) {a : Attempt} (h : a.spawned = none) :
    children.foldl addSpawned a = a.withSpawned children.eraseDups := by
  cases children with
  | nil => simp [withSpawned, ← h]
  | cons child rest =>
    have hadd : (a.addSpawned child).spawned = some [child] := by
      simp [addSpawned, h]
    have hne : (child :: rest).eraseDups ≠ [] := by
      rw [List.eraseDups_cons]
      exact List.cons_ne_nil _ _
    rw [List.foldl_cons, foldl_addSpawned_some rest hadd, withSpawned, if_neg hne,
      ← foldl_recordRef (child :: rest)]
    rfl

end Attempt

namespace History

variable {h h' : History} {a : Attempt} {attempts : List Attempt} {status : RunStatus} {r : String}

theorem spawning?_eq_some {link : String × String} :
    spawning? a = some link ↔
      a.type ≠ .join ∧ a.parent = some link.1 ∧ a.reference = link.2 := by
  unfold spawning?
  split
  · simp_all
  · next htype => simp [htype, Prod.ext_iff]

theorem childrenOf_spawnings (attempts : List Attempt) (r : String) :
    childrenOf (attempts.filterMap spawning?) r =
      (attempts.filter fun a => a.type ≠ .join ∧ a.parent = some r).map (·.reference) := by
  induction attempts with
  | nil => rfl
  | cons a rest ih =>
    unfold childrenOf at ih ⊢
    by_cases hparent : a.type ≠ .join ∧ a.parent = some r
    · have hlink : spawning? a = some (r, a.reference) :=
        spawning?_eq_some.mpr ⟨hparent.1, hparent.2, rfl⟩
      simp [hlink, hparent, ih]
    · cases hlink : spawning? a with
      | none => simp [hlink, hparent, ih]
      | some link =>
        obtain ⟨htype, hnamed, -⟩ := spawning?_eq_some.mp hlink
        have hne : link.1 ≠ r := fun heq => hparent ⟨htype, heq ▸ hnamed⟩
        simp [hlink, hne, hparent, ih]

/-- The attempts that the bubbles have. The final one has none if a task has ended the execution. -/
def bubbles (status : RunStatus) (attempts : List Attempt) : List Attempt :=
  .bubble startBubble .completed ::
    if status = .completed ∧ ∀ a ∈ attempts, a.type ≠ .terminate then
      [.bubble finalBubble .completed]
    else []

theorem isBubble_of_mem_bubbles : ∀ b ∈ bubbles status attempts, b.isBubble = true := by
  unfold bubbles
  split <;> simp [Attempt.bubble, Attempt.bare, Attempt.isBubble]

theorem filter_bubbles (r : String) : (bubbles status attempts).filter (·.reference = r) =
    if r = startBubble then [.bubble startBubble .completed]
    else if r = finalBubble ∧ status = .completed ∧ ∀ a ∈ attempts, a.type ≠ .terminate then
      [.bubble finalBubble .completed]
    else [] := by
  have hapart : startBubble ≠ finalBubble := by decide
  have hreference : ∀ r status, (Attempt.bubble r status).reference = r := fun _ _ => rfl
  unfold bubbles
  by_cases hstart : r = startBubble
  · rw [if_pos hstart, hstart]
    split <;> simp [hreference, hapart.symm]
  · rw [if_neg hstart, List.filter_cons_of_neg (by simpa [hreference] using Ne.symm hstart)]
    by_cases hfinal : r = finalBubble
    · simp only [hfinal, true_and]
      split <;> simp [hreference]
    · simp only [hfinal, false_and, if_false]
      split <;> simp [hreference, Ne.symm hfinal]

theorem withBubbles_eq (hterminated : h.terminated = attempts.any (·.type == TaskType.terminate)) :
    h.withBubbles status = (bubbles status attempts).foldl add h := by
  have hcondition : (status = .completed ∧ ¬ h.terminated = true) ↔
      status = .completed ∧ ∀ a ∈ attempts, a.type ≠ .terminate := by
    simp [hterminated]
  have hstart : (h.add (.bubble startBubble .completed)).terminated = h.terminated := rfl
  unfold withBubbles bubbles
  dsimp only
  rw [hstart, List.foldl_cons]
  by_cases hcompleted : status = .completed ∧ ∀ a ∈ attempts, a.type ≠ .terminate
  · rw [if_pos hcompleted, if_pos (hcondition.mpr hcompleted)]
    rfl
  · rw [if_neg hcompleted, if_neg (mt hcondition.mp hcompleted)]
    rfl

theorem references_foldl_add (as : List Attempt) (h : History) :
    (as.foldl add h).references = (as.map (·.reference)).foldl recordRef h.references := by
  induction as generalizing h with
  | nil => rfl
  | cons a as ih =>
    have hadd : (h.add a).references = recordRef h.references a.reference := Dict.keys_put _ _ _
    rw [List.foldl_cons, ih, hadd, List.map_cons, List.foldl_cons]

theorem terminated_foldl_add (as : List Attempt) (h : History) :
    (as.foldl add h).terminated = h.terminated :=
  List.foldlRecOn (motive := fun h' : History => h'.terminated = h.terminated) as add rfl
    fun _ heq _ _ => heq

/-- Binding makes the links between the attempts, and adds those of the bubbles. -/
theorem ofAttempts_ok (hbind : ofAttempts status attempts = .ok h) :
    ∃ linked, (attempts.filterMap spawning?).foldlM (fun h link => h.link link.1 link.2)
        (ofAdded attempts) = .ok linked ∧ h = (bubbles status attempts).foldl add linked := by
  rw [ofAttempts_eq, Outcome.bind_eq_ok] at hbind
  obtain ⟨linked, hlinked, hbind⟩ := hbind
  refine ⟨linked, hlinked, ?_⟩
  rw [← Outcome.pure_eq_ok.mp hbind, withBubbles_eq (links_ok hlinked).1]

theorem attempts_ofAdded (attempts : List Attempt) (r : String) :
    (ofAdded attempts).attempts r = attempts.filter (·.reference = r) :=
  attempts_foldl_add attempts empty r

/-- The attempts of a reference are those that arrived, the last one with a note of its children,
and behind them those of a bubble. -/
theorem attempts_eq (hbind : ofAttempts status attempts = .ok h) (r : String) :
    h.attempts r =
      mapLast (fun a => ((attempts.filter fun a => a.type ≠ .join ∧ a.parent = some r).map
        (·.reference)).foldl Attempt.addSpawned a) (attempts.filter (·.reference = r)) ++
      (bubbles status attempts).filter (·.reference = r) := by
  obtain ⟨linked, hlinked, rfl⟩ := ofAttempts_ok hbind
  rw [attempts_foldl_add, (links_ok hlinked).2.2, attempts_ofAdded, childrenOf_spawnings]

theorem references_eq (hbind : ofAttempts status attempts = .ok h) :
    h.references = ((attempts ++ bubbles status attempts).map (·.reference)).eraseDups := by
  obtain ⟨linked, hlinked, rfl⟩ := ofAttempts_ok hbind
  have hadded : (ofAdded attempts).references = (attempts.map (·.reference)).eraseDups := by
    rw [← foldl_recordRef]
    exact references_foldl_add attempts empty
  rw [references_foldl_add, (links_ok hlinked).2.1, hadded, foldl_recordRef_eraseDups,
    List.map_append]

theorem terminated_iff (hbind : ofAttempts status attempts = .ok h) :
    h.terminated = true ↔ ∃ a ∈ attempts, a.type = .terminate := by
  obtain ⟨linked, hlinked, rfl⟩ := ofAttempts_ok hbind
  rw [terminated_foldl_add, (links_ok hlinked).1]
  simp [ofAdded]

/-! ### When binding fails

A link fails if its parent has no attempt, and no link adds an attempt. Whether one fails can
therefore be told before any link is made.
-/

/-- The first link whose parent has no attempt is the one that fails. -/
theorem links_error {links : List (String × String)} {e : Error}
    (herror : links.foldlM (fun h link => h.link link.1 link.2) h = .error e) :
    ∃ before link after, links = before ++ link :: after ∧
      (∀ earlier ∈ before, h.attempts earlier.1 ≠ []) ∧ h.attempts link.1 = [] ∧
      e = .orphan link.2 link.1 := by
  induction links generalizing h with
  | nil => cases herror
  | cons first rest ih =>
    rw [List.foldlM_cons] at herror
    cases hlink : h.link first.1 first.2 with
    | error e' =>
      rw [hlink] at herror
      obtain rfl : e' = e := by cases herror; rfl
      unfold link at hlink
      split at hlink
      · next hnone =>
        refine ⟨[], first, rest, rfl, by simp, List.getLast?_eq_none_iff.mp hnone, ?_⟩
        cases hlink
        rfl
      · cases hlink
    | ok next =>
      rw [hlink] at herror
      have hkeeps : ∀ r, next.attempts r = [] ↔ h.attempts r = [] := fun r =>
        attempts_link_eq_nil hlink
      obtain ⟨before, link, after, hsplit, hbefore, hnone, heq⟩ := ih herror
      simp only [ne_eq, hkeeps] at hbefore hnone
      refine ⟨first :: before, link, after, by rw [hsplit, List.cons_append], ?_, hnone, heq⟩
      refine List.forall_mem_cons.mpr ⟨?_, hbefore⟩
      intro hempty
      have hlatest : h.latest? first.1 = none := by rw [latest?, hempty, List.getLast?_nil]
      rw [History.link, hlatest] at hlink
      cases hlink

theorem attempts_ofAdded_eq_nil : (ofAdded attempts).attempts r = [] ↔
    ∀ b ∈ attempts, b.reference ≠ r := by
  simp [attempts_ofAdded]

theorem exists_ofAttempts_iff :
    (∃ h, ofAttempts status attempts = .ok h) ↔ ∀ a ∈ attempts, ¬ a.IsOrphan attempts := by
  have hlinks : (∃ h, ofAttempts status attempts = .ok h) ↔
      ∃ linked, (attempts.filterMap spawning?).foldlM (fun h link => h.link link.1 link.2)
        (ofAdded attempts) = .ok linked := by
    simp only [ofAttempts_eq, Outcome.bind_eq_ok]
    exact ⟨fun ⟨_, linked, hlinked, _⟩ => ⟨linked, hlinked⟩,
      fun ⟨linked, hlinked⟩ => ⟨_, linked, hlinked, rfl⟩⟩
  rw [hlinks, exists_links_iff]
  simp only [List.mem_filterMap, forall_exists_index, and_imp, ne_eq, attempts_ofAdded_eq_nil]
  constructor
  · rintro hlinks a ha ⟨htype, parent, hparent, hnone⟩
    exact hlinks (parent, a.reference) a ha (spawning?_eq_some.mpr ⟨htype, hparent, rfl⟩) hnone
  · intro horphans link a ha hlink hnone
    obtain ⟨htype, hparent, -⟩ := spawning?_eq_some.mp hlink
    exact horphans a ha ⟨htype, link.1, hparent, hnone⟩

/-- The error names the first orphan. -/
theorem ofAttempts_error {e : Error} (herror : ofAttempts status attempts = .error e) :
    ∃ before a after parent, attempts = before ++ a :: after ∧
      (∀ b ∈ before, ¬ b.IsOrphan attempts) ∧ a.IsOrphan attempts ∧ a.parent = some parent ∧
      e = .orphan a.reference parent := by
  rw [ofAttempts_eq] at herror
  have hlinks : (attempts.filterMap spawning?).foldlM (fun h link => h.link link.1 link.2)
      (ofAdded attempts) = .error e := by
    cases hlinked : (attempts.filterMap spawning?).foldlM (fun h link => h.link link.1 link.2)
      (ofAdded attempts) with
    | error e' =>
      rw [hlinked] at herror
      exact herror
    | ok linked =>
      rw [hlinked] at herror
      cases herror
  obtain ⟨before, link, after, hsplit, hbefore, hnone, rfl⟩ := links_error hlinks
  obtain ⟨as, rest, has, hasLinks, hrest⟩ := List.filterMap_eq_append_iff.mp hsplit
  obtain ⟨passed, a, bs, rfl, hpassed, hlink, -⟩ := List.filterMap_eq_cons_iff.mp hrest
  obtain ⟨htype, hparent, hreference⟩ := spawning?_eq_some.mp hlink
  rw [attempts_ofAdded_eq_nil] at hnone
  refine ⟨as ++ passed, a, bs, link.1, by rw [has, List.append_assoc], ?_,
    ⟨htype, link.1, hparent, hnone⟩, hparent, by rw [hreference]⟩
  rintro b hb ⟨hbtype, parent, hbparent, hmissing⟩
  have hblink : spawning? b = some (parent, b.reference) :=
    spawning?_eq_some.mpr ⟨hbtype, hbparent, rfl⟩
  rcases List.mem_append.mp hb with hb | hb
  · refine hbefore (parent, b.reference) ?_ (attempts_ofAdded_eq_nil.mpr hmissing)
    rw [← hasLinks]
    exact List.mem_filterMap.mpr ⟨b, hb, hblink⟩
  · rw [hpassed b hb] at hblink
    cases hblink

/-- What a history holds of the attempts of an execution. -/
structure Binds (status : RunStatus) (attempts : List Attempt) (h : History) : Prop where
  /-- A task has its own attempts, in order. Only the note on the last one is new. -/
  filed : ∀ r, r ≠ startBubble → r ≠ finalBubble → h.attempts r =
    mapLast (Attempt.withSpawned (spawnedUnder attempts r)) (attempts.filter (·.reference = r))
  /-- Each reference stands where it arrived first, and the bubbles arrive last. -/
  references : h.references = ((attempts ++ bubbles status attempts).map (·.reference)).eraseDups
  terminated : h.terminated = true ↔ ∃ a ∈ attempts, a.type = .terminate

/-- **What binding computes.** Attempts that do not say yet what they spawned, as none does that is
read, are bound if and only if none of them is an orphan. The error names the first orphan and its
parent. A history that comes of it has the attempts of each reference in the order of arrival, and
the last one says which tasks that are no joins name it as their parent, each once. -/
theorem ofAttempts_binds (hunsaid : ∀ a ∈ attempts, a.spawned = none) (status : RunStatus) :
    ((∃ e, ofAttempts status attempts = .error e) ↔ ∃ a ∈ attempts, a.IsOrphan attempts) ∧
    (∀ e, ofAttempts status attempts = .error e → e.category = "Invariant" ∧
      ∃ before a after parent, attempts = before ++ a :: after ∧
        (∀ b ∈ before, ¬ b.IsOrphan attempts) ∧ a.IsOrphan attempts ∧ a.parent = some parent ∧
        e = .orphan a.reference parent) ∧
    ∀ h, ofAttempts status attempts = .ok h → h.Binds status attempts := by
  refine ⟨⟨?_, ?_⟩, fun e herror => ?_, fun h hbind => ?_⟩
  · rintro ⟨e, herror⟩
    obtain ⟨before, a, after, parent, hsplit, -, horphan, -⟩ := ofAttempts_error herror
    exact ⟨a, hsplit ▸ List.mem_append_right before List.mem_cons_self, horphan⟩
  · rintro ⟨a, ha, horphan⟩
    cases hbind : ofAttempts status attempts with
    | error e => exact ⟨e, rfl⟩
    | ok h => exact absurd horphan (exists_ofAttempts_iff.mp ⟨h, hbind⟩ a ha)
  · obtain ⟨before, a, after, parent, hfirst⟩ := ofAttempts_error herror
    refine ⟨?_, before, a, after, parent, hfirst⟩
    rw [hfirst.2.2.2.2, Error.category]
  · refine ⟨fun r hstart hfinal => ?_, references_eq hbind, terminated_iff hbind⟩
    rw [attempts_eq hbind, filter_bubbles, if_neg hstart, if_neg fun h => hfinal h.1,
      List.append_nil]
    refine mapLast_congr fun a ha => ?_
    exact Attempt.foldl_addSpawned_none _ (hunsaid a (List.mem_of_mem_filter ha))

end History

namespace Sample

/-- A fork that is tried again behind its children, one of which is tried twice, and their join. -/
def retriedFork : List Attempt :=
  let child (reference : String) (type : TaskType) : Attempt :=
    { Attempt.bare none reference type .completed with parent := some "m" }
  [child "c" .simple, .bare none "m" .fork .failed, child "e" .simple, child "c" .simple,
    child "j" .join, .bare none "m" .fork .completed]

end Sample

/-- The fork says on its second attempt alone what it spawned. -/
theorem History.ofAttempts_binds_of_retried :
    (∀ a ∈ Sample.retriedFork, a.spawned = none) ∧
    ∃ h, ofAttempts .completed Sample.retriedFork = .ok h ∧
      h.attempts "m" = [.bare none "m" .fork .failed,
        { Attempt.bare none "m" .fork .completed with spawned := some ["c", "e"] }] ∧
      h.references = ["c", "m", "e", "j", "__start", "__final"] ∧ h.terminated = false := by
  have hunsaid : ∀ a ∈ Sample.retriedFork, a.spawned = none := by decide
  have hbind : ofAttempts .completed Sample.retriedFork =
      .ok ((ofAttempts .completed Sample.retriedFork).toOption.getD .empty) :=
    Outcome.eq_ok_of_isOk (by decide +kernel) _
  have hbinds := (ofAttempts_binds hunsaid .completed).2.2 _ hbind
  refine ⟨hunsaid, _, hbind, ?_, ?_, Bool.eq_false_iff.mpr (mt hbinds.terminated.mp ?_)⟩
  · rw [hbinds.filed "m" (by decide) (by decide)]
    decide +kernel
  · rw [hbinds.references]
    decide +kernel
  · decide

end Flowchart

import Flowchart.Proofs.Bindings
import Flowchart.Run

/-!
# What a run records of a reference

Binding a run files each attempt under its own reference, in the order of arrival, and notes on the
latest attempt of a fork what the fork spawned. The bubbles have attempts of their own behind those
of the run, so that what the history says of a task it says of the run.
-/

namespace Flowchart

section

variable {α : Type}

theorem mapLast_concat (f : α → α) (as : List α) (a : α) :
    mapLast f (as ++ [a]) = as ++ [f a] := by
  induction as with
  | nil => rfl
  | cons first rest ih =>
    obtain ⟨next, others, heq⟩ := List.exists_cons_of_ne_nil
      (List.append_ne_nil_of_right_ne_nil rest (List.cons_ne_nil a []))
    rw [List.cons_append, List.cons_append, ← ih, heq]
    rfl

theorem getLast?_mapLast (f : α → α) (as : List α) :
    (mapLast f as).getLast? = as.getLast?.map f := by
  rcases List.eq_nil_or_concat' as with rfl | ⟨init, last, rfl⟩
  · rfl
  · rw [mapLast_concat, List.getLast?_concat, List.getLast?_concat]
    rfl

end

theorem Attempt.foldl_addSpawned_eq (children : List String) (a : Attempt) :
    children.foldl addSpawned a = { a with spawned := (children.foldl addSpawned a).spawned } := by
  induction children generalizing a with
  | nil => rfl
  | cons child rest ih => exact ih (a.addSpawned child)

namespace Run

/-- The attempts with a reference, in the order of arrival. -/
def attemptsOf (run : Run) (reference : String) : List Attempt :=
  run.attempts.filter (·.reference = reference)

/-- The status of the latest attempt with a reference. -/
def statusOf? (run : Run) (reference : String) : Option TaskStatus :=
  (run.attemptsOf reference).getLast?.map (·.status)

/-- The tally counts the latest attempt of each of these references. None is without one. -/
def Tallied (run : Run) (references : List String) (t : Tally) : Prop :=
  ∃ statuses, references.map run.statusOf? = statuses.map some ∧ t = Tally.ofStatuses statuses

theorem attemptsOf_eq_nil {run : Run} {r : String} :
    run.attemptsOf r = [] ↔ ∀ a ∈ run.attempts, a.reference ≠ r := by
  rw [attemptsOf, List.filter_eq_nil_iff]
  simp only [decide_eq_true_eq]

theorem statusOf?_eq_none {run : Run} {r : String} :
    run.statusOf? r = none ↔ run.attemptsOf r = [] := by
  rw [statusOf?, Option.map_eq_none_iff, List.getLast?_eq_none_iff]

end Run

namespace History

section

variable {status : RunStatus} {attempts : List Attempt} {h : History} {r : String}

/-- A history knows what a task has spawned from the task's latest attempt and from the children. -/
theorem spawned?_eq (hbind : ofAttempts status attempts = .ok h)
    (hbubbles : (bubbles status attempts).filter (·.reference = r) = []) :
    (h.spawned? r).getD [] = recordedUnder attempts r := by
  rcases List.eq_nil_or_concat' (attempts.filter (·.reference = r)) with hnil | ⟨init, last, hlast⟩
  · have hnone : h.latest? r = none := by
      rw [latest?, attempts_eq hbind, hnil, hbubbles]
      rfl
    -- a child of what was never tried would not have been bound
    have hunnamed : spawnedUnder attempts r = [] := by
      refine List.eq_nil_iff_forall_not_mem.mpr fun c hc => ?_
      obtain ⟨a, ha, htype, hparent, -⟩ := mem_spawnedUnder.mp hc
      refine exists_ofAttempts_iff.mp ⟨h, hbind⟩ a ha ⟨htype, r, hparent, fun b hb => ?_⟩
      simpa using List.filter_eq_nil_iff.mp hnil b hb
    rw [spawned?, hnone, recordedUnder, hunnamed, carriedBy, hnil]
    rfl
  · have hlatest : h.latest? r = some (((attempts.filter fun a =>
        a.type ≠ .join ∧ a.parent = some r).map (·.reference)).foldl Attempt.addSpawned last) := by
      rw [latest?, attempts_eq hbind, hbubbles, List.append_nil, hlast, mapLast_concat,
        List.getLast?_concat]
    have hcarried : carriedBy attempts r = last.spawned.getD [] := by
      rw [carriedBy, hlast, List.getLast?_concat]
      rfl
    rw [spawned?, hlatest, recordedUnder, hcarried, spawnedUnder, ← foldl_recordRef_eq]
    exact Attempt.spawned_foldl_addSpawned _ _

end

/-- The attempts that the bubbles have of themselves. -/
def bubbleAttempts (run : Run) (r : String) : List Attempt :=
  if r = startBubble then [.bubble startBubble .completed]
  else if r = finalBubble ∧ run.execution.status = .completed ∧
      ∀ a ∈ run.attempts, a.type ≠ .terminate then [.bubble finalBubble .completed]
  else []

variable {run : Run} {h : History} {r : String} {a : Attempt}

theorem eq_bubble_of_mem (h : a ∈ bubbleAttempts run r) : a = .bubble r .completed := by
  unfold bubbleAttempts at h
  split_ifs at h with hstart hfinal
  · rw [List.mem_singleton.mp h, hstart]
  · rw [List.mem_singleton.mp h, hfinal.1]
  · cases h

/-- A history holds the attempts of the run, as they are but for the note of what was spawned, and
behind them those of the bubbles. -/
theorem attempts_ofAttempts (hbind : ofAttempts run.execution.status run.attempts = .ok h)
    (r : String) : ∃ spawned, h.attempts r =
      mapLast (fun a => { a with spawned := spawned }) (run.attemptsOf r) ++
        bubbleAttempts run r := by
  rw [attempts_eq hbind, filter_bubbles, ← bubbleAttempts, ← Run.attemptsOf]
  -- only the last attempt is touched, so that the note on it is one for all
  rcases List.eq_nil_or_concat' (run.attemptsOf r) with hnil | ⟨init, last, hlast⟩
  · rw [hnil]
    exact ⟨none, rfl⟩
  · rw [hlast, mapLast_concat, Attempt.foldl_addSpawned_eq]
    exact ⟨_, by rw [mapLast_concat]⟩

section

variable (hbind : ofAttempts run.execution.status run.attempts = .ok h)

include hbind

theorem attempts_of_ne_bubble (hstart : r ≠ startBubble) (hfinal : r ≠ finalBubble) :
    ∃ spawned, h.attempts r =
      mapLast (fun a => { a with spawned := spawned }) (run.attemptsOf r) := by
  obtain ⟨spawned, heq⟩ := attempts_ofAttempts hbind r
  rw [bubbleAttempts, if_neg hstart, if_neg fun h => hfinal h.1, List.append_nil] at heq
  exact ⟨spawned, heq⟩

/-- What the history says of a task that is no bubble it says of the run. -/
theorem status_of_ne_bubble (hstart : r ≠ startBubble) (hfinal : r ≠ finalBubble) :
    (h.attempts r).getLast?.map (·.status) = run.statusOf? r := by
  obtain ⟨spawned, heq⟩ := attempts_of_ne_bubble hbind hstart hfinal
  rw [heq, getLast?_mapLast, Option.map_map]
  rfl

theorem attempts_eq_nil_iff (hstart : r ≠ startBubble) (hfinal : r ≠ finalBubble) :
    h.attempts r = [] ↔ run.attemptsOf r = [] := by
  rw [← Run.statusOf?_eq_none, ← status_of_ne_bubble hbind hstart hfinal, Option.map_eq_none_iff,
    List.getLast?_eq_none_iff]

theorem attemptsOf_eq_nil_of_latest (hlatest : h.latestOfTask r = .ok none) :
    run.attemptsOf r = [] := by
  obtain ⟨spawned, heq⟩ := attempts_ofAttempts hbind r
  have hnone := latest?_eq_of_latestOfTask hlatest
  rw [latest?, List.getLast?_eq_none_iff, heq, List.append_eq_nil_iff, mapLast_eq_nil] at hnone
  exact hnone.1

/-- A task that is found to have run is no bubble that has, and the run says how it ended. -/
theorem statusOf?_of_latest (hlatest : h.latestOfTask r = .ok (some a)) :
    bubbleAttempts run r = [] ∧ run.statusOf? r = some a.status := by
  obtain ⟨spawned, heq⟩ := attempts_ofAttempts hbind r
  have hsome := latest?_eq_of_latestOfTask hlatest
  have hbubbles : bubbleAttempts run r = [] := by
    by_contra hne
    obtain ⟨init, last, hlast⟩ := (List.eq_nil_or_concat' _).resolve_left hne
    have hmem : last ∈ bubbleAttempts run r := hlast ▸ List.mem_concat_self
    have hbubble : last.isBubble = true := by
      rw [eq_bubble_of_mem hmem]
      rfl
    rw [latest?, heq, hlast, ← List.append_assoc, List.getLast?_concat] at hsome
    obtain rfl := Option.some.inj hsome
    rw [latestOfTask, latest?, heq, hlast, ← List.append_assoc, List.getLast?_concat] at hlatest
    dsimp only at hlatest
    rw [hbubble] at hlatest
    cases hlatest
  refine ⟨hbubbles, ?_⟩
  rw [latest?, heq, hbubbles, List.append_nil, getLast?_mapLast] at hsome
  obtain ⟨b, hb, rfl⟩ := Option.map_eq_some_iff.mp hsome
  rw [Run.statusOf?, hb]
  rfl

/-- Tasks that are taken together are taken by what the run says of each. -/
theorem tallied_of_ofReferences {references : List String} {aggregate : Aggregate}
    (hof : Aggregate.ofReferences h references = .ok aggregate) :
    ∃ t, run.Tallied references t ∧ aggregate = ⟨some t.status, some t, some references⟩ := by
  rw [Aggregate.ofReferences_eq, Outcome.bind_eq_ok] at hof
  obtain ⟨statuses, hstatuses, heq⟩ := hof
  refine ⟨_, ⟨statuses, ?_, rfl⟩, (Outcome.pure_eq_ok.mp heq).symm⟩
  clear heq
  induction references generalizing statuses with
  | nil =>
    obtain rfl := Outcome.pure_eq_ok.mp hstatuses
    rfl
  | cons r rest ih =>
    rw [List.mapM_cons, Outcome.bind_eq_ok] at hstatuses
    obtain ⟨status, hstatus, hstatuses⟩ := hstatuses
    obtain ⟨others, hothers, hstatuses⟩ := Outcome.bind_eq_ok.mp hstatuses
    obtain rfl := Outcome.pure_eq_ok.mp hstatuses
    obtain ⟨latest, hlatest, hstatus⟩ := Outcome.bind_eq_ok.mp hstatus
    cases latest with
    | none => cases hstatus
    | some a =>
      obtain rfl := Outcome.pure_eq_ok.mp hstatus
      rw [List.map_cons, List.map_cons, ih others hothers, (statusOf?_of_latest hbind hlatest).2]

end

end History

end Flowchart

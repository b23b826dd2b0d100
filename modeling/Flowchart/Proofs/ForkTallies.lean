import Flowchart.Proofs.RunRecords
import Flowchart.Proofs.VisibleTasks

/-!
# What is told of the children of a dynamic fork

Where the children of a dynamic fork are drawn as one vertex, it stands for the tasks that name the
fork as their parent, behind those that the fork carried from before, and counts each of them once,
by its latest attempt.
-/

namespace Flowchart

/-- Neither completed, nor pending, nor canceled. -/
def TaskStatus.isFailure (s : TaskStatus) : Bool :=
  s ≠ .completed && !s.isPending && s ≠ .canceled

namespace Tally

theorem count_eq (t : Tally) (s : TaskStatus) : t.count s =
    ⟨t.total + 1, t.success + if s = .completed then 1 else 0,
      t.inProgress + if s.isPending then 1 else 0,
      t.canceled + if s = .canceled then 1 else 0⟩ := by
  cases s <;> rfl

theorem foldl_count (ss : List TaskStatus) (t : Tally) : ss.foldl count t =
    ⟨t.total + ss.length, t.success + ss.countP (· = .completed),
      t.inProgress + ss.countP (·.isPending), t.canceled + ss.countP (· = .canceled)⟩ := by
  induction ss generalizing t with
  | nil => rfl
  | cons s ss ih =>
    rw [List.foldl_cons, ih, count_eq]
    simp only [List.length_cons, List.countP_cons, decide_eq_true_eq, mk.injEq]
    omega

/-- A tally counts what it is a tally of. -/
theorem ofStatuses_eq (ss : List TaskStatus) : ofStatuses ss =
    ⟨ss.length, ss.countP (· = .completed), ss.countP (·.isPending),
      ss.countP (· = .canceled)⟩ := by
  simp [ofStatuses, foldl_count, empty]

/-- Each status is counted in one part, or else is one of a failure. -/
theorem parts_add_failures (ss : List TaskStatus) :
    ss.countP (· = .completed) + ss.countP (·.isPending) + ss.countP (· = .canceled) +
      ss.countP (·.isFailure) = ss.length := by
  induction ss with
  | nil => rfl
  | cons s ss ih =>
    have hone : (if s = .completed then 1 else 0) + (if s.isPending then 1 else 0) +
        (if s = .canceled then 1 else 0) + (if s.isFailure then 1 else 0) = 1 := by
      cases s <;> rfl
    simp only [List.countP_cons, List.length_cons, decide_eq_true_eq]
    omega

/-- No tally of statuses has more parts than its total, and what has failed is the rest. -/
theorem failed_ofStatuses (ss : List TaskStatus) :
    (ofStatuses ss).success + (ofStatuses ss).inProgress + (ofStatuses ss).canceled ≤
      (ofStatuses ss).total ∧
    (ofStatuses ss).failed = ss.countP (·.isFailure) := by
  have hparts := parts_add_failures ss
  have hle : ss.countP (· = .completed) + ss.countP (·.isPending) + ss.countP (· = .canceled) ≤
      ss.length := by omega
  rw [ofStatuses_eq, failed]
  dsimp only
  rw [if_pos hle]
  exact ⟨hle, by omega⟩

theorem status_ofStatuses (ss : List TaskStatus) : (ofStatuses ss).status =
    if ss.all (· = .completed) then .completed
    else if ss.any (·.isPending) then .inProgress
    else .failed := by
  have hall : ss.countP (· = .completed) = ss.length ↔ ss.all (· = .completed) = true := by
    simp [List.countP_eq_length]
  have hpending : 0 < ss.countP (·.isPending) ↔ ss.any (·.isPending) = true := by
    rw [List.countP_pos_iff, List.any_eq_true]
  rw [ofStatuses_eq, status]
  simp only [hall, hpending]

end Tally

namespace Run

/-- The latest attempt with the reference has a status of this sort. -/
def latestIs (run : Run) (p : TaskStatus → Bool) (reference : String) : Bool :=
  (run.statusOf? reference).any p

variable {run : Run} {references : List String} {statuses : List TaskStatus}

section

variable (h : references.map run.statusOf? = statuses.map some) (p : TaskStatus → Bool)

include h

theorem map_latestIs : references.map (run.latestIs p) = statuses.map p := by
  have hmap := congrArg (List.map (Option.any p)) h
  rwa [List.map_map, List.map_map] at hmap

theorem countP_latestIs : statuses.countP p = references.countP (run.latestIs p) := by
  have hcount := congrArg (List.countP id) (map_latestIs h p)
  rw [List.countP_map, List.countP_map] at hcount
  exact hcount.symm

theorem all_latestIs : statuses.all p = references.all (run.latestIs p) := by
  have hall := congrArg (List.all · id) (map_latestIs h p)
  rw [List.all_map, List.all_map] at hall
  exact hall.symm

theorem any_latestIs : statuses.any p = references.any (run.latestIs p) := by
  have hany := congrArg (List.any · id) (map_latestIs h p)
  rw [List.any_map, List.any_map] at hany
  exact hany.symm

end

end Run

namespace Vertex

/-- The vertex stands for these tasks, all of which have been tried. Each is counted once, by its
latest attempt. -/
structure Summarizes (run : Run) (children : List String) (v : Vertex) : Prop where
  standsFor : v.standsFor = some children
  nodup : children.Nodup
  tried : ∀ c ∈ children, run.attemptsOf c ≠ []
  tally : ∃ t, v.tally = some t ∧ t.total = children.length ∧
    t.success = children.countP (run.latestIs (· = .completed)) ∧
    t.inProgress = children.countP (run.latestIs TaskStatus.isPending) ∧
    t.canceled = children.countP (run.latestIs (· = .canceled)) ∧
    t.success + t.inProgress + t.canceled ≤ t.total ∧
    t.failed = children.countP (run.latestIs TaskStatus.isFailure)
  status : v.status = some (
    if children.all (run.latestIs (· = .completed)) then .completed
    else if children.any (run.latestIs TaskStatus.isPending) then .inProgress
    else .failed)

theorem summarizes_of_tallied {run : Run} {children : List String} {v : Vertex} {t : Tally}
    (hnodup : children.Nodup) (htallied : run.Tallied children t)
    (hstatus : v.status = some t.status) (htally : v.tally = some t)
    (hstands : v.standsFor = some children) : v.Summarizes run children := by
  obtain ⟨statuses, heq, rfl⟩ := htallied
  have hlength := congrArg List.length heq
  rw [List.length_map, List.length_map] at hlength
  obtain ⟨hparts, hfailed⟩ := Tally.failed_ofStatuses statuses
  refine ⟨hstands, hnodup, fun c hc hnone => ?_, ⟨_, htally, ?_, ?_, ?_, ?_, hparts, ?_⟩, ?_⟩
  · have hmem : run.statusOf? c ∈ statuses.map some := heq ▸ List.mem_map_of_mem hc
    rw [Run.statusOf?_eq_none.mpr hnone] at hmem
    simp at hmem
  · rw [Tally.ofStatuses_eq, hlength]
  · rw [Tally.ofStatuses_eq, ← Run.countP_latestIs heq]
  · rw [Tally.ofStatuses_eq, ← Run.countP_latestIs heq]
  · rw [Tally.ofStatuses_eq, ← Run.countP_latestIs heq]
  · rw [hfailed, Run.countP_latestIs heq]
  · rw [hstatus, Tally.status_ofStatuses, Run.all_latestIs heq, Run.any_latestIs heq]

end Vertex

section

variable {run : Run} {history : History} {r : String}
  (hbind : History.ofAttempts run.execution.status run.attempts = .ok history)

include hbind

/-- What is no bubble has for children what is recorded under it. -/
theorem History.spawnedBy_eq (hbubbles : bubbleAttempts run r = []) :
    history.spawnedBy r = recordedUnder run.attempts r := by
  refine spawned?_eq hbind ?_
  rw [filter_bubbles]
  exact hbubbles

/-- A bubble that has run has no children. -/
theorem History.spawnedBy_eq_nil (hbubbles : bubbleAttempts run r ≠ []) :
    history.spawnedBy r = [] := by
  obtain ⟨spawned, heq⟩ := attempts_ofAttempts hbind r
  obtain ⟨init, last, hlast⟩ := (List.eq_nil_or_concat' _).resolve_left hbubbles
  have hmem : last ∈ bubbleAttempts run r := hlast ▸ List.mem_concat_self
  have hlatest : history.latest? r = some (.bubble r .completed) := by
    rw [latest?, heq, hlast, ← List.append_assoc, List.getLast?_concat, eq_bubble_of_mem hmem]
  rw [spawnedBy, spawned?, hlatest]
  rfl

end

namespace Graph

/-- **Children that are drawn as one.** Take any graph that is drawn for a run without drawing a
reference twice, and a dynamic fork that a walk over its tasks comes to and that has run. If the
fork has no children, or too many to draw them all, then one vertex stands for what its latest
attempt carried before it was bound, a set that is empty in whatever is read, and behind it for the
other tasks that name the fork as their parent, each once and in the order in which they first do
so. It counts them by what became of their latest attempts, and the parts of its tally never come to
more than the total. -/
theorem forkedStack_summarizes {run : Run} {settings : Settings} {history : History}
    {tasks : List Task} {g : Graph} {f : Task}
    (hbind : History.ofAttempts run.execution.status run.attempts = .ok history)
    (hg : Graph.ofTasks settings history tasks = .ok g)
    (hnodup : (Plan.ofTasks settings history tasks).references.Nodup)
    (hf : f ∈ visibleTasks history tasks) (htype : f.type = .forkJoinDynamic)
    (hran : run.attemptsOf f.reference ≠ [])
    (hset : (carriedBy run.attempts f.reference).Nodup)
    (hmany : settings.expands (recordedUnder run.attempts f.reference) = false) :
    ∃ v, g.vertex? (dynamicForkChildrenRef f.reference) = some v ∧
      v.task = Task.forkedStack f.reference ∧
      v.Summarizes run (recordedUnder run.attempts f.reference) := by
  have hcompletes := ofTasks_completes hg
  have hlatest : ∀ {aggregate},
      Aggregate.OfForked history f.reference (history.spawnedBy f.reference) aggregate →
        History.bubbleAttempts run f.reference = [] ∧
        Aggregate.ofReferences history (history.spawnedBy f.reference) = .ok aggregate := by
    rintro aggregate (⟨hnone, -⟩ | ⟨a, hsome, hof⟩)
    · exact absurd (History.attemptsOf_eq_nil_of_latest hbind hnone) hran
    · exact ⟨(History.statusOf?_of_latest hbind hsome).1, hof⟩
  -- a bubble would have no children, and then its own latest attempt would be asked for
  have hbubbles : History.bubbleAttempts run f.reference = [] := by
    by_contra hne
    have hnil := History.spawnedBy_eq_nil hbind hne
    have hclosed : settings.expands (history.spawnedBy f.reference) = false := by
      rw [hnil, Settings.expands, List.isEmpty_nil, Bool.not_true, Bool.false_and]
    obtain ⟨-, aggregate, hof, -⟩ := Plan.exists_forkedStack hcompletes hf htype hclosed
    exact hne (hlatest hof).1
  have hchildren := History.spawnedBy_eq hbind hbubbles
  rw [← hchildren] at hmany ⊢
  obtain ⟨path, aggregate, hof, hshown⟩ := Plan.exists_forkedStack hcompletes hf htype hmany
  obtain ⟨t, htallied, rfl⟩ := History.tallied_of_ofReferences hbind (hlatest hof).2
  have hvertex := (ofTasks_shows hg hnodup).vertex?_eq (Plan.nodup_shown hnodup) hshown
  refine ⟨_, hvertex, rfl, Vertex.summarizes_of_tallied ?_ htallied rfl rfl rfl⟩
  rw [hchildren]
  exact nodup_recordedUnder hset

end Graph

namespace Sample

/-- A fork with three children. One is tried again and completes. Another is tried again and fails,
and the second time it does not say what it was spawned by. -/
def talliedRun : Run where
  execution := {
    id := "x"
    status := .running
    definition := .ofTasks "w" [.ofRef "f" (.dynamicFork none none), .ofRef "j" (.join [])]
    startTime := none
    endTime := none
    reason := none }
  attempts :=
    let child (reference : String) (status : TaskStatus) : Attempt :=
      { Attempt.bare none reference .simple status with parent := some "f" }
    [child "c" .failed, .bare none "f" .forkJoinDynamic .completed, child "d" .inProgress,
      child "c" .completed, child "e" .canceled, .bare none "d" .simple .failed]

def talliedHistory : History :=
  (History.ofAttempts talliedRun.execution.status talliedRun.attempts).toOption.getD .empty

def talliedGraph : Graph :=
  (Graph.ofTasks .standard talliedHistory talliedRun.execution.definition.tasks).toOption.getD .empty

end Sample

/-- One child has completed, one has failed and one is canceled, so the whole has failed. -/
theorem Graph.forkedStack_summarizes_of_retried : ∃ v t,
    Sample.talliedGraph.vertex? "f_DF_CHILDREN_PLACEHOLDER" = some v ∧
    v.standsFor = some ["c", "d", "e"] ∧ v.tally = some t ∧ t.success = 1 ∧ t.inProgress = 0 ∧
    t.canceled = 1 ∧ t.failed = 1 ∧ v.status = some .failed := by
  have hbind : History.ofAttempts Sample.talliedRun.execution.status Sample.talliedRun.attempts =
      .ok Sample.talliedHistory := Outcome.eq_ok_of_isOk (by decide +kernel) _
  have hg : Graph.ofTasks .standard Sample.talliedHistory
      Sample.talliedRun.execution.definition.tasks = .ok Sample.talliedGraph :=
    Outcome.eq_ok_of_isOk (by decide +kernel) _
  obtain ⟨v, hv, -, hsums⟩ := forkedStack_summarizes (f := .ofRef "f" (.dynamicFork none none))
    hbind hg (by decide +kernel) (by decide +kernel) rfl (by decide +kernel) (by decide +kernel)
    (by decide +kernel)
  obtain ⟨t, htally, -, hsuccess, hpending, hcanceled, -, hfailed⟩ := hsums.tally
  have hspawned : recordedUnder Sample.talliedRun.attempts "f" = ["c", "d", "e"] := by
    decide +kernel
  refine ⟨v, t, hv, ?_, htally, ?_, ?_, ?_, ?_, ?_⟩
  · rw [hsums.standsFor]
    exact congrArg some hspawned
  · rw [hsuccess]
    decide +kernel
  · rw [hpending]
    decide +kernel
  · rw [hcanceled]
    decide +kernel
  · rw [hfailed]
    decide +kernel
  · rw [hsums.status]
    decide +kernel

namespace Sample

/-- A fork with two children, and with a third one that it carries from before. The second child was
tried before the first, and did not say then what it was spawned by. -/
def carriedRun : Run :=
  let child (reference : String) : Attempt :=
    { Attempt.bare none reference .simple .completed with parent := some "f" }
  { talliedRun with
    attempts := [.bare none "d" .simple .failed,
      { Attempt.bare none "f" .forkJoinDynamic .completed with spawned := some ["e"] },
      child "c", child "d", .bare none "e" .simple .failed] }

def carriedHistory : History :=
  (History.ofAttempts carriedRun.execution.status carriedRun.attempts).toOption.getD .empty

def carriedGraph : Graph :=
  (Graph.ofTasks .standard carriedHistory carriedRun.execution.definition.tasks).toOption.getD .empty

end Sample

/-- What names the fork as its parent is not all that the vertex stands for, and a failed child that
the fork carries shows in its status. Nor do the children stand in the order in which they arrived
in the run. -/
theorem Graph.not_summarizes_of_carried :
    History.ofAttempts Sample.carriedRun.execution.status Sample.carriedRun.attempts =
      .ok Sample.carriedHistory ∧
    Attempt.OfTasks Sample.carriedRun.attempts ∧
    Graph.ofTasks .standard Sample.carriedHistory Sample.carriedRun.execution.definition.tasks =
      .ok Sample.carriedGraph ∧
    (Plan.ofTasks .standard Sample.carriedHistory
      Sample.carriedRun.execution.definition.tasks).references.Nodup ∧
    spawnedUnder Sample.carriedRun.attempts "f" = ["c", "d"] ∧
    (∀ c ∈ ["c", "d"], Sample.carriedRun.statusOf? c = some .completed) ∧
    Sample.carriedHistory.references.filter (· ∈ ["c", "d"]) = ["d", "c"] ∧
    ∃ v, Sample.carriedGraph.vertex? "f_DF_CHILDREN_PLACEHOLDER" = some v ∧
      v.standsFor = some ["e", "c", "d"] ∧ v.status = some .failed ∧
      ¬ v.Summarizes Sample.carriedRun (spawnedUnder Sample.carriedRun.attempts "f") := by
  have hspawned : spawnedUnder Sample.carriedRun.attempts "f" = ["c", "d"] := by decide +kernel
  have hstands : (Sample.carriedGraph.vertex? "f_DF_CHILDREN_PLACEHOLDER").map
      (fun v => (v.standsFor, v.status)) = some (some ["e", "c", "d"], some .failed) := by
    decide +kernel
  obtain ⟨v, hv, heq⟩ := Option.map_eq_some_iff.mp hstands
  obtain ⟨hchildren, hstatus⟩ := Prod.mk.inj heq
  refine ⟨Outcome.eq_ok_of_isOk (by decide +kernel) _, ⟨by decide +kernel, by decide +kernel⟩,
    Outcome.eq_ok_of_isOk (by decide +kernel) _, by decide +kernel, hspawned, by decide +kernel,
    by decide +kernel, v, hv, hchildren, hstatus, fun hsums => ?_⟩
  have hfew := hsums.standsFor
  rw [hchildren, hspawned] at hfew
  revert hfew
  decide

end Flowchart

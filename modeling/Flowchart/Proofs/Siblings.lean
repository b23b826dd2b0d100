import Flowchart.Diagram.Basic
import Flowchart.Proofs.Reachable
import Flowchart.Proofs.RunRecords
import Flowchart.Proofs.TaskIds

/-!
# Tasks that were spawned together

Binding links a task to the parent that it names, and a lookup finds the siblings of an attempt
through that parent. Binding passes over joins, and the lookup does not. So what is found for a join
that names a parent is not what the join was spawned with, since it was not spawned.
-/

namespace Flowchart

theorem Outcome.mapM_eq_ok {α β ε : Type} {f : α → Except ε β} {as : List α} {bs : List β}
    (h : as.map f = bs.map .ok) : as.mapM f = .ok bs := by
  induction as generalizing bs with
  | nil =>
    obtain rfl := List.map_eq_nil_iff.mp h.symm
    rfl
  | cons a rest ih =>
    obtain ⟨b, others, rfl, hb, hothers⟩ := List.map_eq_cons_iff.mp h.symm
    rw [List.mapM_cons, ← hb, ih hothers.symm]
    rfl

namespace History

/-- The latest attempt of a task that must have been tried. -/
def tried (h : History) (reference : String) : Except Error Attempt := do
  let some a ← h.latestOfTask reference | throw (.notFound .attempt reference)
  pure a

/-- The latest attempts of what a task has spawned. -/
def spawnedTogether (h : History) (parent : String) : Except Error (Option (List Attempt)) := do
  let fork ← h.tried parent
  let some references := fork.spawned | throw (.noSpawned parent)
  pure (some (← references.mapM h.tried))

variable {h : History} {r parent : String} {a fork : Attempt}

theorem tried_of_latest (hlatest : h.latestOfTask r = .ok (some a)) : h.tried r = .ok a := by
  rw [tried, hlatest]
  rfl

theorem spawnedTogether_ne_none (h : History) (parent : String) :
    h.spawnedTogether parent ≠ .ok none := by
  intro hnone
  obtain ⟨fork, -, hnone⟩ := Outcome.bind_eq_ok.mp hnone
  cases hspawned : fork.spawned with
  | none =>
    simp only [hspawned] at hnone
    cases hnone
  | some references =>
    simp only [hspawned] at hnone
    obtain ⟨latest, -, hnone⟩ := Outcome.bind_eq_ok.mp hnone
    cases hnone

theorem spawnedTogether_eq {references : List String} {latest : List Attempt}
    (hfork : h.tried parent = .ok fork) (hspawned : fork.spawned = some references)
    (hlatest : references.map h.tried = latest.map .ok) :
    h.spawnedTogether parent = .ok (some latest) := by
  rw [spawnedTogether, Outcome.bind_of_ok hfork]
  simp only [hspawned]
  rw [Outcome.bind_of_ok (Outcome.mapM_eq_ok hlatest)]
  rfl

end History

namespace Run

/-- The attempts are those of tasks, and their ids are distinct. -/
structure Identified (run : Run) : Prop extends Attempt.OfTasks run.attempts where
  nodup_ids : (run.attempts.filterMap (·.id)).Nodup

/-- None of the attempts says yet what it spawned, as none does that is read. -/
structure Plain (run : Run) : Prop extends Identified run where
  unsaid : ∀ a ∈ run.attempts, a.spawned = none

/-- The latest attempt with a reference, with a note of the tasks that name it as their parent. -/
def latestOf? (run : Run) (reference : String) : Option Attempt :=
  (run.attemptsOf reference).getLast?.map
    (Attempt.withSpawned (spawnedUnder run.attempts reference))

/-- What there is to tell of the tasks that were spawned together with the task of an attempt:
nothing if it was not spawned, and otherwise the latest attempt of each, in the order in which they
were spawned. -/
inductive Siblings (run : Run) (a : Attempt) : Option (List Attempt) → Prop where
  | unspawned : (∀ parent, a.parent = some parent →
      a.reference ∉ spawnedUnder run.attempts parent) → Siblings run a none
  | spawned {parent : String} {latest : List Attempt} : a.parent = some parent →
    a.reference ∈ spawnedUnder run.attempts parent →
    (spawnedUnder run.attempts parent).map run.latestOf? = latest.map some →
    Siblings run a (some latest)

/-- A join that names a parent, under a reference that the parent has not spawned. -/
def IsStrayJoin (run : Run) (a : Attempt) : Prop :=
  a.type = .join ∧ ∃ parent ∈ a.parent, a.reference ∉ spawnedUnder run.attempts parent

instance (run : Run) (a : Attempt) : Decidable (run.IsStrayJoin a) :=
  inferInstanceAs (Decidable (_ ∧ _))

variable {run : Run} {a : Attempt} {id parent r : String}

/-- Distinct ids tell which attempt is meant. -/
theorem Identified.isLatest (hrun : run.Identified) (status : RunStatus) (ha : a ∈ run.attempts)
    (hid : a.id = some id) :
    ∃ before, Attempt.IsLatest (run.attempts ++ History.bubbles status run.attempts) id before
      a := by
  obtain ⟨before, hlatest⟩ := Attempt.exists_isLatest_of_nodup hrun.nodup_ids ha hid
    (beq_false_of_ne (hrun.type_ne a ha))
  exact ⟨before, hlatest.append History.isBubble_of_mem_bubbles⟩

section

variable {h : History}

/-- In the history of a run, the latest attempt of a task is that of the run. -/
theorem Plain.latestOfTask_eq (hrun : run.Plain)
    (hbind : History.ofAttempts run.execution.status run.attempts = .ok h)
    (hstart : r ≠ startBubble) (hfinal : r ≠ finalBubble) :
    h.latestOfTask r = .ok (run.latestOf? r) := by
  have hsound : h.Sound := History.Sound.ofAttempts hbind hrun.toOfTasks
  have hbinds := (History.ofAttempts_binds hrun.unsaid _).2.2 h hbind
  rw [hsound.latestOfTask_eq hstart hfinal, History.latest?, hbinds.filed r hstart hfinal,
    getLast?_mapLast]
  rfl

theorem latestOf?_isSome :
    (run.latestOf? r).isSome = true ↔ ∃ a ∈ run.attempts, a.reference = r := by
  rw [latestOf?, Option.isSome_map, List.getLast?_isSome, ne_eq, attemptsOf_eq_nil]
  simp

theorem spawned_of_latestOf? {fork : Attempt} (hfork : run.latestOf? parent = some fork) :
    fork.spawned = if spawnedUnder run.attempts parent = [] then none
      else some (spawnedUnder run.attempts parent) := by
  obtain ⟨last, -, rfl⟩ := Option.map_eq_some_iff.mp hfork
  rfl

/-- What was spawned has been tried, and is no bubble. -/
theorem Plain.latestOfTask_spawned (hrun : run.Plain)
    (hbind : History.ofAttempts run.execution.status run.attempts = .ok h)
    (hr : r ∈ spawnedUnder run.attempts parent) :
    ∃ latest, h.latestOfTask r = .ok (some latest) ∧ run.latestOf? r = some latest := by
  obtain ⟨a, ha, -, -, rfl⟩ := mem_spawnedUnder.mp hr
  obtain ⟨hstart, hfinal⟩ := hrun.reference_ne a ha
  obtain ⟨latest, hlatest⟩ := Option.isSome_iff_exists.mp (latestOf?_isSome.mpr ⟨a, ha, rfl⟩)
  refine ⟨latest, ?_, hlatest⟩
  rw [hrun.latestOfTask_eq hbind hstart hfinal, hlatest]

/-- So the latest attempts of what was spawned are there, one for each. -/
theorem Plain.exists_latest (hrun : run.Plain)
    (hbind : History.ofAttempts run.execution.status run.attempts = .ok h) (parent : String) :
    ∃ latest : List Attempt,
      (spawnedUnder run.attempts parent).map h.tried = latest.map .ok ∧
      (spawnedUnder run.attempts parent).map run.latestOf? = latest.map some := by
  have hspawned : ∀ r ∈ spawnedUnder run.attempts parent,
      ∃ a, h.tried r = .ok a ∧ run.latestOf? r = some a := by
    intro r hr
    obtain ⟨a, htask, hrun⟩ := hrun.latestOfTask_spawned hbind hr
    exact ⟨a, History.tried_of_latest htask, hrun⟩
  generalize spawnedUnder run.attempts parent = references at hspawned
  induction references with
  | nil => exact ⟨[], rfl, rfl⟩
  | cons r rest ih =>
    obtain ⟨⟨a, htried, hlatest⟩, hrest⟩ := List.forall_mem_cons.mp hspawned
    obtain ⟨others, htriedRest, hlatestRest⟩ := ih hrest
    refine ⟨a :: others, ?_, ?_⟩
    · rw [List.map_cons, List.map_cons, htried, htriedRest]
    · rw [List.map_cons, List.map_cons, hlatest, hlatestRest]

/-- A parent that has spawned something has been tried, since otherwise the run is not bound. -/
theorem Plain.latestOfTask_parent (hrun : run.Plain)
    (hbind : History.ofAttempts run.execution.status run.attempts = .ok h)
    (hr : r ∈ spawnedUnder run.attempts parent) :
    ∃ fork, h.latestOfTask parent = .ok (some fork) ∧
      fork.spawned = some (spawnedUnder run.attempts parent) := by
  obtain ⟨a, ha, htype, hparent, -⟩ := mem_spawnedUnder.mp hr
  have htried : ∃ b ∈ run.attempts, b.reference = parent := by
    by_contra hnone
    push Not at hnone
    exact History.exists_ofAttempts_iff.mp ⟨h, hbind⟩ a ha ⟨htype, parent, hparent, hnone⟩
  obtain ⟨fork, hfork⟩ := Option.isSome_iff_exists.mp (latestOf?_isSome.mpr htried)
  obtain ⟨b, hb, rfl⟩ := htried
  obtain ⟨hstart, hfinal⟩ := hrun.reference_ne b hb
  refine ⟨fork, ?_, ?_⟩
  · rw [hrun.latestOfTask_eq hbind hstart hfinal, hfork]
  · rw [spawned_of_latestOf? hfork, if_neg (List.ne_nil_of_mem hr)]

end

end Run

namespace Diagram

variable {d : Diagram} {run : Run} {settings : Settings} {a b : Attempt} {id parent : String}

theorem siblingsAt_eq (hfound : d.history.withId id = .ok b) :
    d.siblingsAt (.ofId id) = match b.parent with
      | none => .ok none
      | some parent => d.history.spawnedTogether parent := by
  have hattempt : d.attemptAt (.ofId id) = .ok (some b) := congrArg (Except.map some) hfound
  rw [siblingsAt, hattempt]
  cases hb : b.parent with
  | none => simp only [bind, Except.bind, hb]; rfl
  | some parent =>
    simp only [bind, Except.bind, hb]
    rw [History.spawnedTogether, History.tried]
    cases d.history.latestOfTask parent with
    | error e => rfl
    | ok fork => cases fork <;> rfl

theorem history_of_ofRun (hd : Diagram.ofRun run settings = .ok d) :
    History.ofAttempts run.execution.status run.attempts = .ok d.history := by
  obtain ⟨history, hbind, hdraw⟩ := ofRun_ok hd
  obtain ⟨graph, -, rfl⟩ := draw_ok hdraw
  exact hbind

/-- **Looking siblings up.** In the diagram of a run, what is found by the id of an attempt are the
latest attempts of all tasks that were spawned together with its task, or nothing if it was not
spawned, exactly if it is not a join that names a parent which has not spawned it. For such a join
there is an error, or the attempts of tasks that it does not belong to. -/
theorem siblings_found_iff (hd : Diagram.ofRun run settings = .ok d) (hrun : run.Plain)
    (ha : a ∈ run.attempts) (hid : a.id = some id) :
    (∃ answer, d.siblingsAt (.ofId id) = .ok answer ∧ run.Siblings a answer) ↔
      ¬ run.IsStrayJoin a := by
  have hbind := history_of_ofRun hd
  obtain ⟨before, hlatest⟩ := hrun.isLatest run.execution.status ha hid
  obtain ⟨b, hfound, hsame, -⟩ := (History.Logs.ofAttempts hbind).withId_of_isLatest hlatest
  have hparent : b.unsaid.parent = a.unsaid.parent := congrArg Attempt.parent hsame
  change b.parent = a.parent at hparent
  rw [siblingsAt_eq hfound, hparent]
  constructor
  · rintro ⟨answer, hanswer, hright⟩ ⟨-, parent, hnamed, hapart⟩
    rw [hnamed] at hanswer
    cases hright with
    | unspawned => exact d.history.spawnedTogether_ne_none parent hanswer
    | spawned hnamed' hmem =>
      obtain rfl := Option.some.inj (hnamed.symm.trans hnamed')
      exact hapart hmem
  · intro hstray
    cases hnamed : a.parent with
    | none => exact ⟨none, rfl, .unspawned fun parent h => by rw [hnamed] at h; cases h⟩
    | some parent =>
      -- whatever is not a join has been linked to the parent that it names
      have hmem : a.reference ∈ spawnedUnder run.attempts parent := by
        by_contra hapart
        by_cases htype : a.type = .join
        · exact hstray ⟨htype, parent, hnamed, hapart⟩
        · exact hapart (mem_spawnedUnder.mpr ⟨a, ha, htype, hnamed, rfl⟩)
      obtain ⟨fork, hfork, hspawned⟩ := hrun.latestOfTask_parent hbind hmem
      obtain ⟨latest, htried, hruns⟩ := hrun.exists_latest hbind parent
      exact ⟨some latest,
        History.spawnedTogether_eq (History.tried_of_latest hfork) hspawned htried,
        .spawned hnamed hmem hruns⟩

end Diagram

namespace Sample

/-- A run of a fork with two children and their join, which names the fork as well. -/
def siblingsRun : Run where
  execution := {
    id := "x"
    status := .running
    definition := .ofTasks "w" [.ofRef "m" (.dynamicFork none none), .ofRef "j" (.join [])]
    startTime := none
    endTime := none
    reason := none }
  attempts :=
    let child (id reference : String) (type : TaskType) (status : TaskStatus) : Attempt :=
      { Attempt.bare (some id) reference type status with parent := some "m" }
    [.bare (some "1") "m" .fork .completed, child "2" "c" .simple .failed,
      child "3" "e" .simple .completed, child "4" "c" .simple .completed,
      child "5" "j" .join .inProgress]

def siblingsDiagram : Diagram :=
  (Diagram.ofRun siblingsRun .standard).toOption.getD
    ⟨siblingsRun.execution.definition, none, .empty, .standard, .empty⟩

end Sample

/-- A child that was tried again finds its second attempt and its sibling, and the join finds the
same although it is neither. -/
theorem Diagram.siblings_found_iff_of_join :
    Diagram.ofRun Sample.siblingsRun .standard = .ok Sample.siblingsDiagram ∧
    Sample.siblingsRun.Plain ∧
    (∃ answer, Sample.siblingsDiagram.siblingsAt (.ofId "2") = .ok answer ∧
      answer.map (·.map (·.id)) = some [some "4", some "3"]) ∧
    (∃ answer, Sample.siblingsDiagram.siblingsAt (.ofId "5") = .ok answer ∧
      answer.map (·.map (·.id)) = some [some "4", some "3"]) ∧
    ∀ a ∈ Sample.siblingsRun.attempts, ∀ id, a.id = some id →
      ((∃ answer, Sample.siblingsDiagram.siblingsAt (.ofId id) = .ok answer ∧
        Sample.siblingsRun.Siblings a answer) ↔ a.reference ≠ "j") := by
  have hd : Diagram.ofRun Sample.siblingsRun .standard = .ok Sample.siblingsDiagram :=
    Outcome.eq_ok_of_isOk (by decide +kernel) _
  have hrun : Sample.siblingsRun.Plain :=
    ⟨⟨⟨by decide +kernel, by decide +kernel⟩, by decide +kernel⟩, by decide +kernel⟩
  refine ⟨hd, hrun, ?_, ?_, fun a ha id hid => ?_⟩
  · exact ⟨_, Outcome.eq_ok_of_isOk (by decide +kernel) none, by decide +kernel⟩
  · exact ⟨_, Outcome.eq_ok_of_isOk (by decide +kernel) none, by decide +kernel⟩
  · have hstray : ∀ a ∈ Sample.siblingsRun.attempts,
        ¬ Sample.siblingsRun.IsStrayJoin a ↔ a.reference ≠ "j" := by decide +kernel
    rw [siblings_found_iff hd hrun ha hid, hstray a ha]

end Flowchart

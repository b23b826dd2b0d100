import Flowchart.Proofs.Accounts
import Flowchart.Proofs.Insertions

/-!
# What an inserted task shows of a run

A new task gets a reference that is not drawn. What it shows of the run is looked up under that
reference, and a run may have attempts of tasks that are not drawn: of a task that was deleted or
renamed, say. So a new task shows nothing just if the run has no attempt under its reference.
-/

namespace Flowchart

theorem Task.isMarker_of_template {type : TaskType} {reference : String} {inserted : List Task}
    (h : template type reference = .ok inserted) : ∀ t ∈ inserted, t.kind.isMarker = false := by
  cases type <;> cases h <;> exact of_decide_eq_true rfl

/-- A vertex without attempts has no status, unless it stands for tasks that are not drawn. -/
theorem Placement.Origin.status_eq_none {history : History} {u : Task} {path : TreePath} {i : Nat}
    {p : Placement} (h : p.Origin history u path i) (hmarker : p.task.kind.isMarker = false)
    (hidle : history.attempts p.task.reportRef = []) : (p.toVertex history).status = none := by
  have hown (hnone : p.aggregate = none) : (p.toVertex history).status = none := by
    have hstatus : (p.toVertex history).status =
        (history.attempts p.task.reportRef).getLast?.map (·.status) :=
      congrArg Aggregate.status (p.told_toVertex hnone)
    rw [hstatus, hidle]
    rfl
  cases h with
  | own | child | bar => exact hown rfl
  | children | iterations => exact absurd hmarker nofun
  | closingBar sources hk hlatest haggregate =>
    -- the bar reports by the loop, which has run
    have hlast := History.latest?_eq_of_latestOfTask hlatest
    rw [History.latest?, show history.attempts u.reference = [] from hidle] at hlast
    cases hlast

theorem Placement.results_eq_nil_iff {run : Run} {history : History} {p : Placement}
    (hbind : History.ofAttempts run.execution.status run.attempts = .ok history)
    (hstart : p.task.reportRef ≠ startBubble) (hfinal : p.task.reportRef ≠ finalBubble) :
    (p.toVertex history).results = [] ↔
      ∀ a ∈ run.attempts, a.reference ≠ p.task.reportRef := by
  rw [← Run.attemptsOf_eq_nil]
  exact History.attempts_eq_nil_iff hbind hstart hfinal

/-- The vertex for all children of a dynamic fork has no status just if the fork has not run. -/
theorem Placement.Origin.status_forkedStack {run : Run} {history : History} {u : Task}
    {path : TreePath} {i : Nat} {p : Placement} {r : String}
    (hbind : History.ofAttempts run.execution.status run.attempts = .ok history)
    (h : p.Origin history u path i) (hposition : p.position = none)
    (htask : p.task = Task.forkedStack r) :
    (p.toVertex history).status = none ↔ run.attemptsOf r = [] := by
  cases h with
  | own | bar | closingBar => cases hposition
  | @child _ _ _ a =>
    have hmarker := a.isMarker_kind
    rw [show a.kind = (Task.forkedStack r).kind from congrArg Task.kind htask] at hmarker
    cases hmarker
  | iterations => cases congrArg Task.kind htask
  | children hk hof =>
    obtain rfl := dynamicForkChildrenRef_injective (congrArg Task.reference htask)
    rcases hof with ⟨hlatest, rfl⟩ | ⟨a, hlatest, haggregate⟩
    · exact iff_of_true rfl (History.attemptsOf_eq_nil_of_latest hbind hlatest)
    · obtain ⟨t, -, rfl⟩ := History.tallied_of_ofReferences hbind haggregate
      exact iff_of_false nofun (Run.attemptsOf_ne_nil hbind hlatest)

namespace Graph

variable {run : Run} {settings : Settings} {history : History} {tasks : List Task} {g : Graph}
  {v : Vertex} {t : Task}
  (hbind : History.ofAttempts run.execution.status run.attempts = .ok history)
  (hg : Graph.ofTasks settings history tasks = .ok g) (hv : v ∈ g.vertices)

include hbind hg hv

/-- A task, or a loop with its bar, shows nothing just if the run has no attempts of it. -/
theorem drawn_idle_iff (hend : t.kind.type ≠ .doWhileEnd) (hmarker : t.kind.isMarker = false)
    (hstart : t.reference ≠ startBubble) (hfinal : t.reference ≠ finalBubble)
    (hdrawn : t.DrawnAs v.task) :
    v.results = [] ∧ v.status = none ↔ ∀ a ∈ run.attempts, a.reference ≠ t.reference := by
  obtain ⟨p, hp, rfl⟩ := mem_vertices_ofTasks hg hv
  have hreport : p.task.reportRef = t.reference := hdrawn.reportRef_eq hend
  have hnone : p.task.kind.isMarker = false := by
    rcases hdrawn with heq | ⟨-, heq⟩
    · rwa [show p.task = t from heq]
    · rw [show p.task = t.loopEnd from heq]
      rfl
  rw [← hreport] at hstart hfinal ⊢
  rw [← Placement.results_eq_nil_iff hbind hstart hfinal, and_iff_left_iff_imp]
  intro hidle
  rcases Plan.ofTasks_drawnIn (ofTasks_completes hg) hp with
    ⟨_, _, u, -, horigin, -⟩ | ⟨-, -, htask⟩
  · exact horigin.status_eq_none hnone hidle
  · rcases htask with htask | htask <;> rw [htask] at hnone <;> cases hnone

/-- The vertex for all children of a dynamic fork shows nothing just if the run has no attempts of
the fork, nor any under its own reference. -/
theorem forkedStack_idle_iff (hposition : v.position = none)
    (hstack : v.task = Task.forkedStack t.reference) :
    v.results = [] ∧ v.status = none ↔
      ∀ a ∈ run.attempts, a.reference ≠ v.reference ∧ a.reference ≠ t.reference := by
  obtain ⟨p, hp, rfl⟩ := mem_vertices_ofTasks hg hv
  have htask : p.task = Task.forkedStack t.reference := hstack
  have href : p.task.reportRef = p.reference := by
    rw [Placement.reference, htask]
    rfl
  have hlast : p.task.reportRef.toList.getLast? = some 'R' := by
    rw [htask]
    exact getLast?_dynamicForkChildrenRef _
  have hstatus : (p.toVertex history).status = none ↔ run.attemptsOf t.reference = [] := by
    rcases Plan.ofTasks_drawnIn (ofTasks_completes hg) hp with
      ⟨_, _, u, -, horigin, -⟩ | ⟨-, -, hbubble⟩
    · exact horigin.status_forkedStack hbind hposition htask
    · rcases hbubble with hbubble | hbubble <;>
        cases congrArg Task.kind (htask.symm.trans hbubble)
  obtain ⟨hstart, hfinal⟩ := ne_bubble_of_getLast? (Or.inr hlast)
  rw [Placement.results_eq_nil_iff hbind hstart hfinal, href, hstatus, Run.attemptsOf_eq_nil]
  exact forall₂_and.symm

end Graph

namespace Diagram

variable {run : Run} {settings : Settings} {d after : Diagram} {e : Edit} {type : TaskType}

theorem Reachable.history_performAll (hd : d.Reachable) (es : List Edit) :
    (d.performAll es).history = d.history := by
  obtain ⟨graph, -, heq⟩ := draw_ok (redraw_performAll hd.redraw_tasks es)
  rw [heq]

/-- **Inserted tasks.** However the diagram of a run was edited, what is drawn for a task that is
put in then shows no attempts and no status if and only if the run has no attempts under the
reference that the task was given. For the vertex that stands for the children of a new dynamic
fork, it must have none under the reference of that vertex either. -/
theorem inserted_idle_iff (hd : Diagram.ofRun run settings = .ok d) (es : List Edit)
    (he : e.inserted? = some type) (hedit : (d.performAll es).edit e = .ok after) :
    ∃ inserted, (d.performAll es).freshTasks type = .ok inserted ∧
      ∀ t ∈ inserted, ∀ v ∈ after.graph.vertices,
        (t.DrawnAs v.task →
          (v.results = [] ∧ v.status = none ↔ ∀ a ∈ run.attempts, a.reference ≠ t.reference)) ∧
        (v.position = none → v.task = Task.forkedStack t.reference →
          (v.results = [] ∧ v.status = none ↔ ∀ a ∈ run.attempts,
            a.reference ≠ v.reference ∧ a.reference ≠ t.reference)) := by
  obtain ⟨htasks, hhistory, -, hgraph⟩ := edit_ok hedit
  obtain ⟨inserted, hinserted, -⟩ := editedTasks_swaps he htasks
  obtain ⟨history, hbind, hdraw⟩ := ofRun_ok hd
  obtain ⟨graph, -, rfl⟩ := draw_ok hdraw
  rw [hhistory, (Reachable.ofRun hd).history_performAll] at hgraph
  refine ⟨inserted, hinserted, fun t ht v hv => ⟨fun hdrawn => ?_, fun hposition hstack => ?_⟩⟩
  · obtain ⟨hstart, hfinal⟩ := freshTasks_ne_bubble hinserted ht
    exact Graph.drawn_idle_iff hbind hgraph hv (Kind.isNotLoopEnd_kept.template hinserted t ht)
      (Task.isMarker_of_template hinserted t ht) hstart hfinal hdrawn
  · exact Graph.forkedStack_idle_iff hbind hgraph hv hposition hstack

end Diagram

namespace Sample

/-- A run of two tasks, of which the second has the reference of the first new task. -/
def numberedRun : Run where
  execution := {
    id := "x"
    status := .running
    definition := .ofTasks "w" [.ofRef "a" (.worker .simple), .ofRef "simple_0" (.worker .simple)]
    startTime := none
    endTime := none
    reason := none }
  attempts := [.bare none "a" .simple .completed, .bare none "simple_0" .simple .completed]

def numberedDiagram : Diagram :=
  (Diagram.ofRun numberedRun .standard).toOption.getD
    ⟨numberedRun.execution.definition, none, .empty, .standard, .empty⟩

/-- The diagram after the second task was deleted. -/
def vacatedDiagram : Diagram := numberedDiagram.performAll [.delete "simple_0"]

def refilledDiagram : Diagram :=
  (vacatedDiagram.edit (.insert "a" .simple)).toOption.getD vacatedDiagram

end Sample

/-- A task in the place of a deleted one shows the attempts of the deleted one. -/
theorem Diagram.inserted_idle_iff_of_vacated :
    Diagram.ofRun Sample.numberedRun .standard = .ok Sample.numberedDiagram ∧
      Sample.vacatedDiagram.edit (.insert "a" .simple) = .ok Sample.refilledDiagram ∧
      ∃ t v, Sample.vacatedDiagram.freshTasks .simple = .ok [t] ∧
        v ∈ Sample.refilledDiagram.graph.vertices ∧ v.task = t ∧
        ¬ (v.results = [] ∧ v.status = none) := by
  have hd : Diagram.ofRun Sample.numberedRun .standard = .ok Sample.numberedDiagram :=
    Outcome.eq_ok_of_isOk (by decide +kernel) _
  have hedit : Sample.vacatedDiagram.edit (.insert "a" .simple) = .ok Sample.refilledDiagram :=
    Outcome.eq_ok_of_isOk (by decide +kernel) _
  have hinserted : Sample.vacatedDiagram.freshTasks .simple =
      .ok [.ofRef "simple_0" (.worker .simple)] := by
    decide +kernel
  obtain ⟨v, hv, htask⟩ : ∃ v ∈ Sample.refilledDiagram.graph.vertices,
      v.task = .ofRef "simple_0" (.worker .simple) := by
    decide +kernel
  refine ⟨hd, hedit, _, v, hinserted, hv, htask, ?_⟩
  obtain ⟨inserted, hfresh, hidle⟩ :=
    Diagram.inserted_idle_iff hd [.delete "simple_0"] rfl hedit
  obtain rfl := Except.ok.inj (hinserted.symm.trans hfresh)
  rw [(hidle _ (List.mem_singleton_self _) v hv).1 (Or.inl htask)]
  decide +kernel

end Flowchart

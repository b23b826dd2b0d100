import Flowchart.Proofs.Reachable
import Flowchart.Proofs.TreePaths

/-!
# Edits in place

An edit in place comes to the diagram that the edit gives, or to an error and the diagram before it.
The tree may have been changed by then, and drawn in part: what matters is that the changes touch
the tasks alone, so that putting the tasks back undoes them all.
-/

namespace Flowchart

namespace Diagram

variable {d after : Diagram} {tasks : List Task}

@[simp] theorem tasks_withTasks (d : Diagram) (tasks : List Task) :
    (d.withTasks tasks).tasks = tasks := rfl

/-- Drawing a diagram anew changes its tasks and its graph. -/
theorem redraw_eq (d : Diagram) (tasks : List Task) :
    d.redraw tasks = (Graph.ofTasks d.settings d.history tasks).map
      fun graph => { d.withTasks tasks with graph := graph } := by
  rw [redraw, draw]
  cases Graph.ofTasks d.settings d.history tasks <;> rfl

end Diagram

namespace Session

variable {α β : Type} {d d' : Diagram} {error : Error} {tasks : List Task}

theorem run_bind_ok {x : Session α} {f : α → Session β} {a : α} (h : x.run d = .ok a d') :
    (x >>= f).run d = (f a).run d' := by
  change x d = _ at h
  change EStateM.bind x f d = _
  rw [EStateM.bind, h]
  rfl

theorem run_bind_error {x : Session α} {f : α → Session β} (h : x.run d = .error error d') :
    (x >>= f).run d = .error error d' := by
  change x d = _ at h
  change EStateM.bind x f d = _
  rw [EStateM.bind, h]

theorem run_tryCatch_ok {x : Session α} {handle : Error → Session α} {a : α}
    (h : x.run d = .ok a d') : (tryCatch x handle).run d = .ok a d' := by
  change x d = _ at h
  change EStateM.tryCatch x handle d = _
  delta EStateM.tryCatch
  dsimp only
  rw [h]

theorem run_tryCatch_error {x : Session α} {handle : Error → Session α}
    (h : x.run d = .error error d') :
    (tryCatch x handle).run d = (handle error).run d' := by
  change x d = _ at h
  change EStateM.tryCatch x handle d = _
  delta EStateM.tryCatch
  dsimp only
  rw [h]
  rfl

theorem run_ask (question : Diagram → Except Error α) :
    (ask question).run d = match question d with
      | .ok a => .ok a d
      | .error error => .error error d := by
  change (match question d with
    | .ok a => pure a
    | .error error => throw error : Session α).run d = _
  cases question d <;> rfl

theorem run_ask_ok {question : Diagram → Except Error α} {f : α → Session β} {a : α}
    (h : question d = .ok a) : (ask question >>= f).run d = (f a).run d :=
  run_bind_ok (by rw [run_ask, h])

theorem run_ask_error {question : Diagram → Except Error α} {f : α → Session β}
    (h : question d = .error error) : (ask question >>= f).run d = .error error d :=
  run_bind_error (by rw [run_ask, h])

theorem run_change {reference : String} {f : List Task → Option (List Task)} :
    (change reference f).run d = match f d.tasks with
      | some tasks => .ok () (d.withTasks tasks)
      | none => .error (.lostSequence reference) d := by
  change (match f d.tasks with
    | some tasks => modify fun d => Diagram.withTasks d tasks
    | none => throw (Error.lostSequence reference) : Session Unit).run d = _
  cases f d.tasks <;> rfl

theorem run_redraw : redraw.run d =
    match Graph.ofTasks d.settings d.history d.tasks with
      | .ok graph => .ok () { d with graph := graph }
      | .error error => .error error d := by
  cases h : Graph.ofTasks d.settings d.history d.tasks with
  | ok graph => exact run_ask_ok h
  | error error => exact run_ask_error h

/-! ### Carrying an edit through

An edit in place changes the tasks before it draws them. Where it stops, the tasks may have been
changed to any degree, but they are put back from a copy, so the proof has to follow them only up to
the first error.
-/

/-- How an edit in place ends, from the diagram that the edit gives: what fails leaves the diagram
before it. -/
def outcome (d : Diagram) : Except Error Diagram → EStateM.Result Error Diagram (List Task)
  | .ok after => .ok after.tasks after
  | .error error => .error error d

/-- Changes that come to the tasks `result`, or stop with the tasks changed in any way. -/
def ComesTo (changes : Session Unit) (d : Diagram) : Except Error (List Task) → Prop
  | .ok tasks => changes.run d = .ok () (d.withTasks tasks)
  | .error error => ∃ tasks, changes.run d = .error error (d.withTasks tasks)

theorem run_commit_eq (changes : Session Unit) (d : Diagram) :
    (commit changes).run d = match (changes >>= fun _ => redraw).run d with
      | .ok _ d' => .ok d'.tasks d'
      | .error error d' => .error error (d'.withTasks d.tasks) := by
  cases h : (changes >>= fun _ => redraw).run d with
  | ok a d' => exact (run_bind_ok rfl).trans (run_bind_ok (run_tryCatch_ok h))
  | error error d' =>
    exact (run_bind_ok rfl).trans (run_bind_error ((run_tryCatch_error h).trans rfl))

theorem run_commit {changes : Session Unit} {result : Except Error (List Task)}
    (h : ComesTo changes d result) :
    (commit changes).run d = outcome d (result >>= d.redraw) := by
  rw [run_commit_eq]
  cases result with
  | error error =>
    obtain ⟨tasks, hrun⟩ := h
    rw [run_bind_error hrun]
    rfl
  | ok tasks =>
    rw [run_bind_ok h, run_redraw]
    change _ = outcome d (d.redraw tasks)
    rw [Diagram.redraw_eq]
    cases hgraph : Graph.ofTasks d.settings d.history tasks with
    | ok graph =>
      change Graph.ofTasks (d.withTasks tasks).settings (d.withTasks tasks).history
        (d.withTasks tasks).tasks = _ at hgraph
      rw [hgraph]
      rfl
    | error error =>
      change Graph.ofTasks (d.withTasks tasks).settings (d.withTasks tasks).history
        (d.withTasks tasks).tasks = _ at hgraph
      rw [hgraph]
      rfl

theorem run_ask_outcome {question : Diagram → Except Error α} {f : α → Session (List Task)}
    {g : α → Except Error (List Task)}
    (h : ∀ a, question d = .ok a → (f a).run d = outcome d (g a >>= d.redraw)) :
    (ask question >>= f).run d = outcome d (question d >>= g >>= d.redraw) := by
  cases hquestion : question d with
  | ok a => rw [run_ask_ok hquestion, h a hquestion]; rfl
  | error error => rw [run_ask_error hquestion]; rfl

theorem comesTo_change {reference : String} {f : List Task → Option (List Task)}
    {result : Except Error (List Task)}
    (hsome : ∀ tasks, f d.tasks = some tasks → result = .ok tasks)
    (hnone : f d.tasks = none → result = .error (.lostSequence reference)) :
    ComesTo (change reference f) d result := by
  cases h : f d.tasks with
  | some tasks =>
    have hrun : (change reference f).run d = .ok () (d.withTasks tasks) := by rw [run_change, h]
    rw [hsome tasks h]
    exact hrun
  | none =>
    have hrun : (change reference f).run d = .error (.lostSequence reference) d := by
      rw [run_change, h]
    rw [hnone h]
    exact ⟨d.tasks, hrun⟩

theorem insert_run (target : String) (type : TaskType) (d : Diagram) :
    (insert target type).run d = outcome d (d.edit (.insert target type)) := by
  refine run_ask_outcome fun inserted _ => run_ask_outcome fun place _ => run_commit ?_
  refine comesTo_change (fun tasks h => ?_) fun h => ?_
  · rw [Diagram.spliceAt, h]
    rfl
  · rw [Diagram.spliceAt, h]
    rfl

theorem comesTo_changeKind {target : String} {expected : TaskType} {place : Place} {t : Task}
    {enter : Kind (List Task) → Option (Kind (List Task))} {result : Except Error (List Task)}
    (ht : place.task? d.tasks = some t)
    (hunfit : enter t.kind = none → result = .error (.unexpectedType target expected t.type))
    (hfit : ∀ kind, enter t.kind = some kind →
      ComesTo (change target (place.modify? fun t => { t with kind := kind })) d result) :
    ComesTo (changeKind target expected place enter) d result := by
  cases hkind : enter t.kind with
  | none =>
    have hrun : (changeKind target expected place enter).run d =
        .error (.unexpectedType target expected t.type) d := by
      refine (run_bind_ok rfl).trans ?_
      rw [ht]
      dsimp only
      rw [hkind]
      rfl
    rw [hunfit hkind]
    exact ⟨d.tasks, hrun⟩
  | some kind =>
    have hrun : (changeKind target expected place enter).run d =
        (change target (place.modify? fun t => { t with kind := kind })).run d := by
      refine (run_bind_ok rfl).trans ?_
      rw [ht]
      dsimp only
      rw [hkind]
    have hcomes := hfit kind hkind
    cases result with
    | ok tasks => exact hrun.trans hcomes
    | error error =>
      obtain ⟨tasks, hchange⟩ := hcomes
      exact ⟨tasks, hrun.trans hchange⟩

theorem putInto_run (target : String) (expected type : TaskType)
    (enter : List Task → Kind (List Task) → Option (Kind (List Task))) (d : Diagram) :
    (putInto target expected type enter).run d = outcome d
      ((d.freshTasks type >>= fun inserted => d.changeKind target expected (enter inserted)) >>=
        d.redraw) := by
  refine run_ask_outcome fun inserted _ => run_ask_outcome fun ⟨place, s, t⟩ hlocate =>
    run_commit ?_
  obtain ⟨-, -, -, -, hs, ht, -⟩ := Diagram.locate_ok hlocate
  have htask : place.task? d.tasks = some t := Option.bind_eq_some_iff.mpr ⟨s, hs, ht⟩
  dsimp only
  refine comesTo_changeKind htask (fun h => ?_) fun kind hkind =>
    comesTo_change (fun tasks h => ?_) fun h => ?_
  · rw [h]
    rfl
  · rw [hkind]
    dsimp only
    rw [h]
    rfl
  · rw [hkind]
    dsimp only
    rw [h]
    rfl

theorem run_cutOut {target : String} {place : Place} {count : Nat} {s : List Task}
    (hs : place.path.get? d.tasks = some s) {rest : List Task}
    (hrest : s.take place.index ++ s.drop (place.index + count) = rest)
    (htasks : place.path.modify? (fun _ => rest) d.tasks = some tasks) :
    (cutOut target place count).run d =
      .ok () (d.withTasks (if rest.isEmpty then place.path.prune tasks else tasks)) := by
  obtain ⟨tasks', hchange, hconst⟩ := TreePath.exists_change?
    (fun s => s.take place.index ++ s.drop (place.index + count)) hs
  rw [hrest] at hconst
  obtain rfl := Option.some.inj (hconst.symm.trans htasks)
  have hget : place.path.get? tasks' = some rest := TreePath.follow?_change? hconst hs
  change place.path.modify? _ d.tasks = _ at hchange
  have hrun : (change target <| place.path.modify? fun s =>
      s.take place.index ++ s.drop (place.index + count)).run d =
        .ok () (d.withTasks tasks') := by
    rw [run_change, hchange]
  rw [cutOut]
  refine (run_bind_ok hrun).trans ((run_bind_ok rfl).trans ?_)
  rw [Diagram.tasks_withTasks, hget, Option.any_some]
  cases rest.isEmpty <;> rfl

theorem delete_run (target : String) (d : Diagram) :
    (delete target).run d = outcome d (d.edit (.delete target)) := by
  refine run_ask_outcome fun ⟨place, s, t⟩ hlocate => run_ask_outcome fun count _ => run_commit ?_
  obtain ⟨-, -, -, -, hs, -, -⟩ := Diagram.locate_ok hlocate
  obtain ⟨tasks, -, htasks⟩ := TreePath.exists_change?
    (fun s => s.take place.index ++ s.drop (place.index + count)) hs
  change place.path.modify? _ d.tasks = _ at htasks
  dsimp only
  rw [htasks]
  exact run_cutOut hs rfl htasks

theorem replace_run (target : String) (task : Task) (d : Diagram) :
    (replace target task).run d = outcome d (d.edit (.replace target task)) := by
  refine run_ask_outcome fun ⟨place, s, t⟩ _ => run_commit ?_
  refine comesTo_change (fun tasks h => ?_) fun h => ?_
  · dsimp only
    rw [h]
    rfl
  · dsimp only
    rw [h]
    rfl

/-- Editing in place comes to what the edit gives. -/
theorem edit_run (e : Edit) (d : Diagram) : (edit e).run d = outcome d (d.edit e) := by
  cases e with
  | insert target type => exact insert_run target type d
  | addBranch fork type => exact putInto_run fork .forkJoin type Kind.addBranch? d
  | addCase switch type => exact putInto_run switch .switch type Kind.addCase? d
  | setDefault switch type => exact putInto_run switch .switch type Kind.setDefault? d
  | setBody loop type => exact putInto_run loop .doWhile type Kind.setBody? d
  | delete target => exact delete_run target d
  | replace target task => exact replace_run target task d

/-- An edit in place fails just as the edit does, and then the diagram is the one before it. -/
theorem edit_run_eq_error_iff {e : Edit} {after : Diagram} :
    (edit e).run d = .error error after ↔ d.edit e = .error error ∧ after = d := by
  rw [edit_run]
  cases h : d.edit e with
  | ok result =>
    constructor
    · intro hrun
      cases hrun
    · rintro ⟨⟨⟩, -⟩
  | error error' =>
    constructor
    · intro hrun
      cases hrun
      exact ⟨rfl, rfl⟩
    · rintro ⟨⟨⟩, rfl⟩
      rfl

end Session

namespace Diagram

variable {d m : Diagram} {tasks : List Task}

theorem perform_eq (d : Diagram) (e : Edit) :
    d.perform e = match d.edit e with
      | .ok after => after
      | .error _ => d := by
  rw [perform, Session.edit_run]
  cases d.edit e <;> rfl

theorem Reachable.perform (h : d.Reachable) (e : Edit) : (d.perform e).Reachable := by
  rw [perform_eq]
  cases hedit : d.edit e with
  | ok after => exact .edit h hedit
  | error error => exact h

theorem Reachable.performAll (h : d.Reachable) (es : List Edit) : (d.performAll es).Reachable := by
  induction es generalizing d with
  | nil => exact h
  | cons e es ih => exact ih (h.perform e)

theorem Reachable.redraw_tasks (h : d.Reachable) : d.redraw d.tasks = .ok d := by
  rw [redraw_eq, h.graph_eq]
  rfl

/-- Drawing anew leaves all that drawing anew goes by, apart from the tasks. -/
theorem redraw_of_redraw (h : d.redraw tasks = .ok m) (tasks' : List Task) :
    m.tasks = tasks ∧ m.redraw tasks' = d.redraw tasks' := by
  obtain ⟨graph, -, rfl⟩ := draw_ok h
  exact ⟨rfl, rfl⟩

theorem redraw_perform (h : d.redraw m.tasks = .ok m) (e : Edit) :
    d.redraw (m.perform e).tasks = .ok (m.perform e) := by
  rw [perform_eq]
  cases hedit : m.edit e with
  | error error => exact h
  | ok after =>
    rw [Diagram.edit, Outcome.bind_eq_ok] at hedit
    obtain ⟨tasks, -, hredraw⟩ := hedit
    obtain ⟨-, heq⟩ := redraw_of_redraw h tasks
    rw [heq] at hredraw
    obtain ⟨rfl, -⟩ := redraw_of_redraw hredraw []
    exact hredraw

theorem redraw_performAll (h : d.redraw m.tasks = .ok m) (es : List Edit) :
    d.redraw (m.performAll es).tasks = .ok (m.performAll es) := by
  induction es generalizing m with
  | nil => exact h
  | cons e es ih => exact ih (redraw_perform h e)

/-- However a diagram was edited, it is as if it had just been drawn of the tasks it has now. -/
theorem Reachable.performAll_fresh (h : d.Reachable) (es : List Edit) :
    (d.performAll es).history = d.history ∧ (d.performAll es).settings = d.settings ∧
      (d.performAll es).execution = d.execution ∧
      (d.performAll es).definition = { d.definition with tasks := (d.performAll es).tasks } ∧
      Graph.ofTasks d.settings d.history (d.performAll es).tasks =
        .ok (d.performAll es).graph := by
  obtain ⟨graph, hgraph, heq⟩ := draw_ok (redraw_performAll h.redraw_tasks es)
  rw [heq]
  exact ⟨rfl, rfl, rfl, rfl, hgraph⟩

end Diagram

namespace Sample

/-- A run of a fork and of a loop that has gone round. -/
def loopedRun : Run where
  execution := {
    id := "x"
    status := .running
    definition := .ofTasks "w" [.ofRef "f" (.fork [[.ofRef "a" (.worker .simple)]]),
      .ofRef "j" (.join ["a"]), .ofRef "l" (.loop none [.ofRef "b" (.worker .simple)])]
    startTime := none
    endTime := none
    reason := none }
  attempts := [.bare none "f" .fork .completed, .bare none "l" .doWhile .inProgress,
    .bare none "b__1" .simple .completed]

def loopedDiagram : Diagram :=
  (Diagram.ofRun loopedRun .standard).toOption.getD
    ⟨loopedRun.execution.definition, none, .empty, .standard, .empty⟩

/-- Edits of which the second, the fourth and the last fail. -/
def mixedEdits : List Edit :=
  [.addBranch "f" .simple, .addBranch "l" .simple, .delete "j", .delete "f",
    .insert "l" .switch, .replace "a" (.ofRef "c" (.worker .simple)), .delete "b"]

end Sample

/-- Some edits succeed and some fail, and the diagram comes out changed. -/
theorem Diagram.Reachable.performAll_fresh_of_run :
    Diagram.ofRun Sample.loopedRun .standard = .ok Sample.loopedDiagram ∧
      Sample.loopedDiagram.performAll Sample.mixedEdits ≠ Sample.loopedDiagram ∧
      (Sample.loopedDiagram.performAll Sample.mixedEdits).execution =
        some Sample.loopedRun.execution ∧
      Graph.ofTasks Sample.loopedDiagram.settings Sample.loopedDiagram.history
        (Sample.loopedDiagram.performAll Sample.mixedEdits).tasks =
          .ok (Sample.loopedDiagram.performAll Sample.mixedEdits).graph := by
  have hd : Diagram.ofRun Sample.loopedRun .standard = .ok Sample.loopedDiagram :=
    Outcome.eq_ok_of_isOk (by decide +kernel) _
  obtain ⟨-, -, hexecution, -, hgraph⟩ :=
    Diagram.Reachable.performAll_fresh (.ofRun hd) Sample.mixedEdits
  have hrun : Sample.loopedDiagram.execution = some Sample.loopedRun.execution := by
    decide +kernel
  exact ⟨hd, by decide +kernel, hexecution.trans hrun, hgraph⟩

end Flowchart

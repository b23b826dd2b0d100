import Flowchart.Diagram.Edit
import Flowchart.Proofs.Filing

/-!
# Diagrams that are reached

A diagram begins with a definition or with a run, and goes on by edits. Whatever was done to it, its
graph is the one that is drawn of its tasks.
-/

namespace Flowchart

namespace Diagram

/-- Diagrams of definitions and of runs, and what edits make of them. -/
inductive Reachable : Diagram → Prop where
  | ofDefinition {definition : Definition} {settings : Settings} {d : Diagram} :
    Diagram.ofDefinition definition settings = .ok d → Reachable d
  | ofRun {run : Run} {settings : Settings} {d : Diagram} :
    Diagram.ofRun run settings = .ok d → Reachable d
  | edit {d after : Diagram} {e : Edit} : Reachable d → d.edit e = .ok after → Reachable after

/-- The plan that the graph of a diagram was drawn by. -/
def plan (d : Diagram) : Plan := Plan.ofTasks d.settings d.history d.tasks

variable {d after : Diagram} {e : Edit}

theorem draw_ok {definition : Definition} {execution : Option Execution} {history : History}
    {settings : Settings} (h : draw definition execution history settings = .ok d) :
    ∃ graph, Graph.ofTasks settings history definition.tasks = .ok graph ∧
      d = ⟨definition, execution, history, settings, graph⟩ := by
  rw [draw, Outcome.bind_eq_ok] at h
  obtain ⟨graph, hgraph, h⟩ := h
  rw [Outcome.pure_eq_ok] at h
  exact ⟨graph, hgraph, h.symm⟩

theorem ofRun_ok {run : Run} {settings : Settings} (h : Diagram.ofRun run settings = .ok d) :
    ∃ history, History.ofAttempts run.execution.status run.attempts = .ok history ∧
      draw run.execution.definition (some run.execution) history settings = .ok d := by
  rw [Diagram.ofRun, Outcome.bind_eq_ok] at h
  exact h

theorem edit_ok (h : d.edit e = .ok after) :
    d.editedTasks e = .ok after.tasks ∧ after.history = d.history ∧
      after.settings = d.settings ∧
      Graph.ofTasks after.settings after.history after.tasks = .ok after.graph := by
  rw [Diagram.edit, Outcome.bind_eq_ok] at h
  obtain ⟨tasks, htasks, hredraw⟩ := h
  obtain ⟨graph, hgraph, rfl⟩ := draw_ok hredraw
  exact ⟨htasks, rfl, rfl, hgraph⟩

theorem Reachable.graph_eq (h : Reachable d) :
    Graph.ofTasks d.settings d.history d.tasks = .ok d.graph := by
  cases h with
  | ofDefinition h =>
    obtain ⟨graph, hgraph, rfl⟩ := draw_ok h
    exact hgraph
  | ofRun h =>
    obtain ⟨history, -, h⟩ := ofRun_ok h
    obtain ⟨graph, hgraph, rfl⟩ := draw_ok h
    exact hgraph
  | edit _ h => exact (edit_ok h).2.2.2

theorem Reachable.bound (h : Reachable d) : d.history.Bound := by
  induction h with
  | ofDefinition h =>
    obtain ⟨graph, -, rfl⟩ := draw_ok h
    exact Or.inl rfl
  | ofRun h =>
    obtain ⟨history, hbind, h⟩ := ofRun_ok h
    obtain ⟨graph, -, rfl⟩ := draw_ok h
    exact Or.inr ⟨_, _, hbind⟩
  | edit _ h ih =>
    rw [(edit_ok h).2.1]
    exact ih

/-- A definition that is not run has no history. -/
theorem Reachable.history_eq_empty (hd : d.Reachable) (h : d.execution = none) :
    d.history = .empty := by
  induction hd with
  | ofDefinition hdraw =>
    obtain ⟨graph, -, rfl⟩ := draw_ok hdraw
    rfl
  | ofRun hrun =>
    obtain ⟨history, -, hdraw⟩ := ofRun_ok hrun
    obtain ⟨graph, -, rfl⟩ := draw_ok hdraw
    cases h
  | edit _ hedit ih =>
    obtain ⟨tasks, -, hredraw⟩ := Outcome.bind_eq_ok.mp hedit
    obtain ⟨graph, -, rfl⟩ := draw_ok hredraw
    exact ih h

end Diagram

end Flowchart

import Flowchart.Coordinate
import Flowchart.Drawing
import Flowchart.Run

/-!
# Diagrams

A diagram is a definition, and perhaps an execution of it, together with the graph that is drawn of
them.
-/

namespace Flowchart

structure Diagram where
  definition : Definition
  execution : Option Execution
  history : History
  settings : Settings
  graph : Graph
  deriving DecidableEq

/-- What is known of a task that is looked up. -/
inductive Found where
  /-- The task that is drawn. -/
  | drawn (task : Task)
  /-- A task known from its attempts only. -/
  | reported (name : Option String) (reference : String)
  deriving DecidableEq

namespace Found

def reference : Found → String
  | drawn task => task.reference
  | reported _ reference => reference

def task? : Found → Option Task
  | drawn task => some task
  | reported _ _ => none

def nameField : Field (Option String) := .optional "name" Doc.string .str

def toJson : Found → Json
  | drawn task => task.toJson
  | reported name reference =>
    .obj (nameField.written name ++ Task.referenceField.written reference)

end Found

namespace Diagram

def draw (definition : Definition) (execution : Option Execution) (history : History)
    (settings : Settings) : Except Error Diagram := do
  let graph ← Graph.ofTasks settings history definition.tasks
  pure { definition, execution, history, settings, graph }

def ofDefinition (definition : Definition) (settings : Settings) : Except Error Diagram :=
  draw definition none .empty settings

def ofRun (run : Run) (settings : Settings) : Except Error Diagram := do
  let history ← History.ofAttempts run.execution.status run.attempts
  draw run.execution.definition (some run.execution) history settings

/-- Draws the diagram anew, of other tasks. -/
def redraw (d : Diagram) (tasks : List Task) : Except Error Diagram :=
  draw { d.definition with tasks := tasks } d.execution d.history d.settings

def tasks (d : Diagram) : List Task := d.definition.tasks

def referenceAt (d : Diagram) (c : Coordinate) : Except Error String := do
  match ← c.address with
  | .id id => pure (← d.history.withId id).reference
  | .reference reference => pure reference

def vertexAt (d : Diagram) (c : Coordinate) : Except Error (Option Vertex) := do
  pure (d.graph.vertex? (← d.referenceAt c))

/-- The attempt with the id of a coordinate, or the latest attempt of its reference. -/
def attemptAt (d : Diagram) (c : Coordinate) : Except Error (Option Attempt) := do
  match ← c.address with
  | .id id => pure (some (← d.history.withId id))
  | .reference reference => d.history.latestOfTask reference

def attemptsAt (d : Diagram) (c : Coordinate) : Except Error (List Attempt) := do
  pure (d.history.attempts (← d.referenceAt c))

/-- The latest attempts of all tasks that were spawned together with the task at a coordinate, or
nothing if it has not run or was not spawned. -/
def siblingsAt (d : Diagram) (c : Coordinate) : Except Error (Option (List Attempt)) := do
  let some attempt ← d.attemptAt c | return none
  let some parent := attempt.parent | return none
  let some fork ← d.history.latestOfTask parent | throw (.notFound .attempt parent)
  let some references := fork.spawned | throw (.noSpawned parent)
  let siblings ← references.mapM fun reference => do
    let some sibling ← d.history.latestOfTask reference | throw (.notFound .attempt reference)
    pure sibling
  pure (some siblings)

def find (d : Diagram) (reference : String) : Except Error Found := do
  match d.graph.vertex? reference with
  | some v => pure (.drawn v.task)
  | none =>
    match ← d.history.latestOfTask reference with
    | some a => pure (.reported a.definitionName reference)
    | none => throw (.notFound .task reference)

def findAt (d : Diagram) (c : Coordinate) : Except Error Found := do
  d.find (← d.referenceAt c)

end Diagram

end Flowchart

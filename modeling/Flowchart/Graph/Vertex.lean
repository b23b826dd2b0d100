import Flowchart.Attempt
import Flowchart.TreePath.Encoding
import Flowchart.Tally
import Flowchart.Task.Decoding
import Flowchart.Task.Equality

/-!
# Vertices and edges of a diagram

A vertex draws one task, or stands for tasks that are not drawn by themselves. An edge is labelled
with what execution did along it.
-/

namespace Flowchart

structure Vertex where
  task : Task
  /-- The sequence that holds the task, or the one that holds the task it was derived from. -/
  parent : TreePath
  /-- The place of the task in that sequence, if it has one. -/
  position : Option Nat
  /-- The attempts under the reference that the task reports by, oldest first. -/
  results : List Attempt
  status : Option TaskStatus
  /-- What a vertex that stands for other tasks says of their statuses. -/
  tally : Option Tally
  /-- The references of the tasks that such a vertex stands for. -/
  standsFor : Option (List String)
  deriving DecidableEq

namespace Vertex

def reference (v : Vertex) : String := v.task.reference

def isExecuted (v : Vertex) : Bool := v.status.isSome

def member {α : Type} (key : String) (write : α → Json) : Option α → List (String × Json)
  | some a => [(key, write a)]
  | none => []

def toJson (v : Vertex) : Json :=
  .obj ([("taskConfig", v.task.toJson), ("parent", v.parent.toJson),
      ("position", (v.position.map Json.nat).getD .null),
      ("taskResults", .arr (v.results.map Attempt.toJson))] ++
    member "status" TaskStatus.toJson v.status ++ member "tally" Tally.toJson v.tally ++
    member "containsTaskRefs" Json.strings v.standsFor)

end Vertex

structure EdgeLabel where
  /-- Whether execution went along the edge. -/
  executed : Bool
  /-- The case of the branch, for an edge that leaves a switch. -/
  caseValue : Option String
  deriving DecidableEq, Repr

namespace EdgeLabel

def executedField : Field Bool := .required "executed" Doc.boolean .bool

def caseValueField : Field (Option String) := .optional "caseValue" Doc.string .str

def toJson (e : EdgeLabel) : Json :=
  .obj (executedField.written e.executed ++ caseValueField.written e.caseValue)

def ofDoc (d : Doc) : Except Fault EdgeLabel := do
  let members ← d.record .value [executedField.check, caseValueField.check]
  pure { executed := ← executedField.get members, caseValue := ← caseValueField.get members }

end EdgeLabel

end Flowchart

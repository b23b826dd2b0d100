import Flowchart.Attempt
import Flowchart.Definition.Basic

/-!
# Runs

A run is an execution of a definition, with the attempts of its tasks in the order of arrival.
-/

namespace Flowchart

structure Execution where
  id : String
  status : RunStatus
  definition : Definition
  startTime : Option Int
  endTime : Option Int
  reason : Option String
  deriving DecidableEq

structure Run where
  execution : Execution
  attempts : List Attempt
  deriving DecidableEq

namespace Execution

def idField : Field String := .defaulted "workflowId" Doc.string .str ""

def statusField (source : Source) : Field RunStatus :=
  .required "status" (RunStatus.ofDoc source) RunStatus.toJson

def definitionField : Field Definition :=
  .required "workflowDefinition" Definition.ofDoc Definition.toJson

def startTimeField : Field (Option Int) := .optional "startTime" Doc.signed64 .int

def endTimeField : Field (Option Int) := .optional "endTime" Doc.signed64 .int

def reasonField : Field (Option String) := .optional "reasonForIncompletion" Doc.string .str

def checks (source : Source) : List Check :=
  [idField.check, (statusField source).check, definitionField.check, startTimeField.check,
    endTimeField.check, reasonField.check]

def toJson (e : Execution) : Json :=
  .obj (idField.written e.id ++ (statusField .value).written e.status ++
    definitionField.written e.definition ++ startTimeField.written e.startTime ++
    endTimeField.written e.endTime ++ reasonField.written e.reason)

def ofDoc (source : Source) (d : Doc) : Except Fault Execution := do
  let members ← d.record source (checks source)
  pure {
    id := ← idField.get members
    status := ← (statusField source).get members
    definition := ← definitionField.get members
    startTime := ← startTimeField.get members
    endTime := ← endTimeField.get members
    reason := ← reasonField.get members }

end Execution

namespace Run

def executionField (source : Source) : Field Execution :=
  .required "execution" (Execution.ofDoc source) Execution.toJson

def attemptsField (source : Source) : Field (List Attempt) :=
  .defaulted "tasks" (Doc.list (Attempt.ofDoc source)) (fun as => .arr (as.map Attempt.toJson)) []

def checks (source : Source) : List Check :=
  [(executionField source).check, (attemptsField source).check]

def toJson (r : Run) : Json :=
  .obj ((executionField .value).written r.execution ++
    (attemptsField .value).written r.attempts)

def ofDoc (source : Source) (d : Doc) : Except Fault Run := do
  let members ← d.record source (checks source)
  pure {
    execution := ← (executionField source).get members
    attempts := ← (attemptsField source).get members }

end Run

end Flowchart

import Flowchart.Json.Field
import Flowchart.Status
import Flowchart.TaskType

/-!
# Attempts

A task that is tried again has one attempt for each try, all under its reference. The bubbles at
the start and at the end of a diagram are told to have run by attempts of type `TERMINAL`.
-/

namespace Flowchart

structure Attempt where
  id : Option String
  reference : String
  type : TaskType
  definitionName : Option String
  status : TaskStatus
  /-- The fork that spawned the task. -/
  parent : Option String
  seq : Option Nat
  retryCount : Nat
  iteration : Nat
  startTime : Option Int
  endTime : Option Int
  reason : Option String
  worker : Option String
  input : Dict Json
  output : Dict Json
  /-- The references that the task spawned, each once. They are written but never read. -/
  spawned : Option (List String)
  deriving DecidableEq

namespace Attempt

def bare (id : Option String) (reference : String) (type : TaskType) (status : TaskStatus) :
    Attempt where
  id := id
  reference := reference
  type := type
  definitionName := none
  status := status
  parent := none
  seq := none
  retryCount := 0
  iteration := 0
  startTime := none
  endTime := none
  reason := none
  worker := none
  input := []
  output := []
  spawned := none

/-- The attempt of a bubble. -/
def bubble (reference : String) (status : TaskStatus) : Attempt :=
  bare none reference .terminal status

def isBubble (a : Attempt) : Bool := a.type == .terminal

/-- Records a spawned reference. -/
def addSpawned (a : Attempt) (child : String) : Attempt :=
  let refs := a.spawned.getD []
  { a with spawned := some (if child ∈ refs then refs else refs ++ [child]) }

def typeToJson (type : TaskType) : Json := .str type.name

def typeOfDoc (d : Doc) : Except Fault TaskType := do pure (TaskType.ofName (← d.string))

def idField : Field (Option String) := .optional "taskId" Doc.string .str

def referenceField : Field String := .required "referenceTaskName" Doc.string .str

def typeField : Field TaskType := .required "taskType" typeOfDoc typeToJson

def definitionNameField : Field (Option String) := .optional "taskDefName" Doc.string .str

def statusField (source : Source) : Field TaskStatus :=
  .required "status" (TaskStatus.ofDoc source) TaskStatus.toJson

def parentField : Field (Option String) :=
  .optional "parentTaskReferenceName" Doc.string .str

def seqField : Field (Option Nat) := .optional "seq" Doc.unsigned64 .nat

def retryCountField : Field Nat := .defaulted "retryCount" Doc.unsigned32 .nat 0

def iterationField : Field Nat := .defaulted "iteration" Doc.unsigned32 .nat 0

def startTimeField : Field (Option Int) := .optional "startTime" Doc.signed64 .int

def endTimeField : Field (Option Int) := .optional "endTime" Doc.signed64 .int

def reasonField : Field (Option String) := .optional "reasonForIncompletion" Doc.string .str

def workerField : Field (Option String) := .optional "workerId" Doc.string .str

def inputField : Field (Dict Json) := .dict "inputData"

def outputField : Field (Dict Json) := .dict "outputData"

def checks (source : Source) : List Check :=
  [idField.check, referenceField.check, typeField.check, definitionNameField.check,
    (statusField source).check, parentField.check, seqField.check, retryCountField.check,
    iterationField.check, startTimeField.check, endTimeField.check, reasonField.check,
    workerField.check, inputField.check, outputField.check]

def toJson (a : Attempt) : Json :=
  .obj (idField.written a.id ++ referenceField.written a.reference ++ typeField.written a.type ++
    definitionNameField.written a.definitionName ++ (statusField .value).written a.status ++
    parentField.written a.parent ++ seqField.written a.seq ++
    retryCountField.written a.retryCount ++ iterationField.written a.iteration ++
    startTimeField.written a.startTime ++ endTimeField.written a.endTime ++
    reasonField.written a.reason ++ workerField.written a.worker ++ inputField.written a.input ++
    outputField.written a.output ++
    match a.spawned with
    | some refs => [("forkedTaskRefs", Json.strings refs)]
    | none => [])

def ofDoc (source : Source) (d : Doc) : Except Fault Attempt := do
  let members ← d.record source (checks source)
  pure {
    id := ← idField.get members
    reference := ← referenceField.get members
    type := ← typeField.get members
    definitionName := ← definitionNameField.get members
    status := ← (statusField source).get members
    parent := ← parentField.get members
    seq := ← seqField.get members
    retryCount := ← retryCountField.get members
    iteration := ← iterationField.get members
    startTime := ← startTimeField.get members
    endTime := ← endTimeField.get members
    reason := ← reasonField.get members
    worker := ← workerField.get members
    input := ← inputField.get members
    output := ← outputField.get members
    spawned := none }

end Attempt

end Flowchart

import Flowchart.Json.Field
import Flowchart.Task.Basic

/-!
# The written form of tasks

A task is an object. The members that every task has come first, then its type, then the fields of
its kind, and last the members that are only kept.
-/

namespace Flowchart

namespace Task

def nameField : Field String := .required "name" Doc.string .str

def referenceField : Field String := .required "taskReferenceName" Doc.string .str

def descriptionField : Field (Option String) := .optional "description" Doc.string .str

def optionalField : Field (Option Bool) := .optional "optional" Doc.boolean .bool

def inputsField : Field (Dict Json) := .dict "inputParameters"

/-- The members of a task that do not depend on its kind. -/
def header (t : Task) : List (String × Json) :=
  nameField.written t.name ++ referenceField.written t.reference ++
    descriptionField.written t.description ++ optionalField.written t.optional ++
    inputsField.written t.inputs

end Task

namespace Kind

def joinOnField : Field (List String) := .many "joinOn" (Doc.list Doc.string) Json.strings

def subWorkflowField : Field Json := .payload "subWorkflowParam"

def sinkField : Field (Option String) := .optional "sink" Doc.string .str

def tasksParamField : Field (Option String) := .optional "dynamicForkTasksParam" Doc.string .str

def inputParamField : Field (Option String) :=
  .optional "dynamicForkTasksInputParamName" Doc.string .str

def evaluatorField : Field (Option String) := .optional "evaluatorType" Doc.string .str

def expressionField : Field (Option String) := .optional "expression" Doc.string .str

def caseParamField : Field (Option String) := .optional "caseValueParam" Doc.string .str

def conditionField : Field (Option String) := .optional "loopCondition" Doc.string .str

def loopField : Field String := .required "aliasForRef" Doc.string .str

def branchesKey : String := "forkTasks"

def casesKey : String := "decisionCases"

def defaultKey : String := "defaultCase"

def bodyKey : String := "loopOver"

def typeKey : String := "type"

/-- The fields of a kind, where each task inside is its written form. -/
def fields : Kind (List Json) → List (String × Json)
  | join on | exclusiveJoin on => joinOnField.written on
  | subWorkflow param => subWorkflowField.written param
  | event sink => sinkField.written sink
  | fork branches => [(branchesKey, .arr (branches.map .arr))]
  | dynamicFork tasksParam inputParam =>
    tasksParamField.written tasksParam ++ inputParamField.written inputParam
  | switch _ s =>
    evaluatorField.written s.evaluator ++ expressionField.written s.expression ++
      caseParamField.written s.caseParam ++
      [(casesKey, .obj (s.cases.map fun c => (c.1, .arr c.2))), (defaultKey, .arr s.otherwise)]
  | loop condition body => conditionField.written condition ++ [(bodyKey, .arr body)]
  | loopEnd r => loopField.written r
  | worker _ | terminate | marker _ => []

end Kind

/-- The keys of the fields that tasks of a type have of their own. -/
def TaskType.fieldKeys : TaskType → List String
  | join | exclusiveJoin => [Kind.joinOnField.key]
  | subWorkflow => [Kind.subWorkflowField.key]
  | event => [Kind.sinkField.key]
  | forkJoin => [Kind.branchesKey]
  | forkJoinDynamic => [Kind.tasksParamField.key, Kind.inputParamField.key]
  | switch | decision =>
    [Kind.evaluatorField.key, Kind.expressionField.key, Kind.caseParamField.key, Kind.casesKey,
      Kind.defaultKey]
  | doWhile => [Kind.conditionField.key, Kind.bodyKey]
  | doWhileEnd => [Kind.loopField.key]
  | _ => []

namespace Task

def toJson : Task → Json :=
  fold fun t k =>
    .obj (t.header ++ (Kind.typeKey, .str t.type.name) :: k.fields ++ t.extra)

def sequenceToJson (tasks : List Task) : Json := .arr (tasks.map toJson)

theorem toJson_eq (t : Task) :
    t.toJson = .obj (t.header ++ (Kind.typeKey, .str t.type.name) ::
      (t.kind.map (List.map toJson)).fields ++ t.extra) := by
  rw [toJson, fold_eq]

end Task

end Flowchart

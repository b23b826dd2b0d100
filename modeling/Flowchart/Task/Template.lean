import Flowchart.Error
import Flowchart.Task.Basic

/-!
# Templates

The tasks that are put in for a new task of a type. A fork comes with its join, so that the two
stay together. Generated types, and types that only run records use, have no template.
-/

namespace Flowchart

namespace Task

def pairedJoinRef (fork : String) : String := fork ++ "_join"

def pairedJoin (fork : String) : Task := ofRef (pairedJoinRef fork) (.join [])

/-- The template of a type, under a reference. -/
def template (type : TaskType) (reference : String) : Except Error (List Task) :=
  match type with
  | .simple => pure [ofRef reference (.worker .simple)]
  | .http => pure [ofRef reference (.worker .http)
      |>.setInput "http_request" (.obj [("uri", .str "https://"), ("method", .str "GET"),
        ("connectionTimeOut", .int 3000), ("readTimeOut", .int 3000)])]
  | .inline => pure [ofRef reference (.worker .inline)
      |>.setInput "evaluatorType" (.str "graaljs")
      |>.setInput "expression" (.str "(function () \x7b return $.value; \x7d)();")]
  | .wait => pure [ofRef reference (.worker .wait) |>.setInput "duration" (.str "10 seconds")]
  | .terminate => pure [ofRef reference .terminate
      |>.setInput "terminationStatus" (.str "COMPLETED")
      |>.setInput "terminationReason" (.str "")]
  | .join => pure [ofRef reference (.join [])]
  | .exclusiveJoin => pure [ofRef reference (.exclusiveJoin [])]
  | .subWorkflow => pure [ofRef reference
      (.subWorkflow (.obj [("name", .str ""), ("version", .int 1)]))]
  | .event => pure [ofRef reference (.event (some "conductor"))]
  | .setVariable => pure [ofRef reference (.worker .setVariable)]
  | .jsonJqTransform => pure [ofRef reference (.worker .jsonJqTransform)
      |>.setInput "queryExpression" (.str ".")]
  | .human => pure [ofRef reference (.worker .human)]
  | .forkJoin => pure [ofRef reference (.fork []), pairedJoin reference]
  | .forkJoinDynamic => pure [ofRef reference
      (.dynamicFork (some "dynamicTasks") (some "dynamicTasksInput"))
      |>.setInput "dynamicTasks" (.arr [])
      |>.setInput "dynamicTasksInput" (.obj []), pairedJoin reference]
  | .switch => pure [ofRef reference (.switch .switch
      { Switch.empty [] with
        evaluator := some "value-param", expression := some "switchCaseValue" })
      |>.setInput "switchCaseValue" (.str "")]
  | .decision => pure [ofRef reference (.switch .decision
      { Switch.empty [] with caseParam := some "caseValueParam" })
      |>.setInput "caseValueParam" (.str "")]
  | .doWhile => pure [ofRef reference
      (.loop (some "(function () \x7b return false; \x7d)();") [])]
  | .fork | .terminal | .doWhileEnd | .dynamicForkChildren | .loopChildren | .other _ =>
    throw (.noTemplate type)

end Task

end Flowchart

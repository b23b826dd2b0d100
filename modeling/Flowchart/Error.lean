import Flowchart.TaskType

/-!
# Errors

What can go wrong while a diagram is drawn, asked or edited. Each error is one cause; its category
and its wording follow from it.
-/

namespace Flowchart

/-- What a lookup looks for. -/
inductive Sought where
  | task
  | vertex
  | attempt
  | taskId
  deriving DecidableEq, Repr

/-- The causes for which a request is turned down. -/
inductive Error where
  /-- An attempt names a parent that has no attempt itself. -/
  | orphan (child parent : String)
  /-- A parent has no record of what it spawned. -/
  | noSpawned (parent : String)
  | missingJoin (reference : String)
  | noSlot (reference : String)
  | lostSequence (reference : String)
  | lostSlot (reference : String)
  | notFound (sought : Sought) (key : String)
  | ambiguousCoordinate
  | unresolvedCase (switch successor : String)
  | bubbleAccess (reference : String)
  | unexpectedType (reference : String) (expected found : TaskType)
  | noTemplate (type : TaskType)
  | zeroLimit
  deriving DecidableEq, Repr

namespace Sought

def name : Sought → String
  | task => "task"
  | vertex => "vertex"
  | attempt => "attempt"
  | taskId => "task id"

end Sought

namespace Error

def category : Error → String
  | orphan _ _ | noSpawned _ => "Invariant"
  | missingJoin _ | noSlot _ | lostSequence _ | lostSlot _ => "Structural"
  | notFound _ _ => "NotFound"
  | ambiguousCoordinate => "InvalidCoordinate"
  | unresolvedCase _ _ => "UnresolvedCaseValue"
  | bubbleAccess _ => "TerminalAccess"
  | unexpectedType _ _ _ => "UnexpectedTaskType"
  | noTemplate _ => "UnsupportedTemplate"
  | zeroLimit => "Config"

def message : Error → String
  | orphan child parent =>
    s!"invariant violated: task {child} names parent {parent}, which has no attempt"
  | noSpawned parent =>
    s!"invariant violated: dynamic fork {parent} has no forked task refs"
  | missingJoin r =>
    s!"structural violation at {r}: fork is not immediately followed by a join"
  | noSlot r => s!"structural violation at {r}: task has no slot in the definition"
  | lostSequence r => s!"structural violation at {r}: owning sequence no longer exists"
  | lostSlot r => s!"structural violation at {r}: task is no longer at its recorded position"
  | notFound sought key => s!"{sought.name} not found: {key}"
  | ambiguousCoordinate => "invalid task coordinate: exactly one of id or ref must be set"
  | unresolvedCase switch successor =>
    s!"could not resolve case value of {switch} for successor {successor}"
  | bubbleAccess r => s!"terminal task {r} cannot be retrieved"
  | unexpectedType r expected found => s!"task {r} is {found.name}, expected {expected.name}"
  | noTemplate type => s!"no template for task type {type.name}"
  | zeroLimit => "invalid configuration: dynamic_fork_collapse_limit must be at least 1"

end Error

end Flowchart

/-!
# Task types

Definitions and run records name the type of a task by a string. A run record names a plain worker
task after its definition, so every other string is a type too.
-/

namespace Flowchart

inductive TaskType where
  | simple
  | http
  | inline
  | wait
  | terminate
  | join
  | exclusiveJoin
  | subWorkflow
  | event
  | setVariable
  | jsonJqTransform
  | human
  | forkJoin
  | forkJoinDynamic
  /-- Reported by run records for static and dynamic forks alike. -/
  | fork
  | switch
  | decision
  | doWhile
  | terminal
  | doWhileEnd
  | dynamicForkChildren
  | loopChildren
  | other (name : String)
  deriving DecidableEq, Repr

namespace TaskType

def name : TaskType → String
  | simple => "SIMPLE"
  | http => "HTTP"
  | inline => "INLINE"
  | wait => "WAIT"
  | terminate => "TERMINATE"
  | join => "JOIN"
  | exclusiveJoin => "EXCLUSIVE_JOIN"
  | subWorkflow => "SUB_WORKFLOW"
  | event => "EVENT"
  | setVariable => "SET_VARIABLE"
  | jsonJqTransform => "JSON_JQ_TRANSFORM"
  | human => "HUMAN"
  | forkJoin => "FORK_JOIN"
  | forkJoinDynamic => "FORK_JOIN_DYNAMIC"
  | fork => "FORK"
  | switch => "SWITCH"
  | decision => "DECISION"
  | doWhile => "DO_WHILE"
  | terminal => "TERMINAL"
  | doWhileEnd => "DO_WHILE_END"
  | dynamicForkChildren => "DF_CHILDREN_PLACEHOLDER"
  | loopChildren => "LOOP_CHILDREN_PLACEHOLDER"
  | other name => name

/-- The types that a task of a definition can have, in the order of their numbers. -/
def ofKinds : List TaskType :=
  [simple, http, inline, wait, terminate, join, exclusiveJoin, subWorkflow, event, setVariable,
    jsonJqTransform, human, forkJoin, forkJoinDynamic, switch, decision, doWhile, terminal,
    doWhileEnd, dynamicForkChildren, loopChildren]

def known : List TaskType := fork :: ofKinds

/-- The type with a name. Distinct names give distinct types, since `name` gives each back. -/
def ofName (s : String) : TaskType :=
  (known.find? (·.name == s)).getD (other s)

theorem name_ofName (s : String) : (ofName s).name = s := by
  unfold ofName
  cases h : known.find? (·.name == s) with
  | none => rfl
  | some t => simpa using List.find?_some h

/-- Whether tasks of this type only ever appear as generated vertices. -/
def isGenerated : TaskType → Bool
  | terminal | doWhileEnd | dynamicForkChildren | loopChildren => true
  | _ => false

/-- The stem of the reference names made up for new tasks of this type. -/
def stem (t : TaskType) : String := String.ofList (t.name.toList.map Char.toLower)

end TaskType

end Flowchart

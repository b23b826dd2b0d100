import Flowchart.Definition.Basic

/-!
# Readiness for execution

A diagram may be drawn of a definition that is still being written. Before a definition is executed
it must pass these rules, which are tried on its tasks depth first. `validate` reports the first
rule that a task breaks.
-/

namespace Flowchart

inductive Offence where
  | duplicateReference (reference : String)
  | generatedTask (reference : String)
  | forkWithoutJoin (reference : String)
  | emptyLoop (reference : String)
  | emptySwitch (reference : String)
  deriving DecidableEq, Repr

namespace Offence

def message : Offence → String
  | duplicateReference r => s!"duplicate task reference name: {r}"
  | generatedTask r => s!"task {r} has a synthetic type and cannot be executed"
  | forkWithoutJoin r => s!"fork {r} must be followed by a join"
  | emptyLoop r => s!"do-while {r} has an empty loop body"
  | emptySwitch r => s!"switch {r} has no branches"

end Offence

/-- The first rule that a task breaks by itself. `joined` tells whether a join follows it in its
sequence, and `seen` are the references met before it. -/
def Task.offence? (t : Task) (joined : Bool) (seen : List String) : Option Offence :=
  if t.reference ∈ seen then some (.duplicateReference t.reference)
  else if t.type.isGenerated then some (.generatedTask t.reference)
  else if t.kind.isFork && !joined then some (.forkWithoutJoin t.reference)
  else match t.kind with
    | .loop _ [] => some (.emptyLoop t.reference)
    | .switch _ s =>
      if s.cases.isEmpty && s.otherwise.isEmpty then some (.emptySwitch t.reference) else none
    | _ => none

/-- What checking a task needs from it: whether it is a join, and how it extends the references
seen so far unless it, or a task inside it, breaks a rule. -/
structure Checker where
  isJoin : Bool
  run : (joined : Bool) → (seen : List String) → Except Offence (List String)

namespace Checker

def sequence : List Checker → List String → Except Offence (List String)
  | [], seen => pure seen
  | c :: rest, seen => do
    let seen ← c.run (rest.head?.any (·.isJoin)) seen
    sequence rest seen

def sequences : List (List Checker) → List String → Except Offence (List String)
  | [], seen => pure seen
  | s :: rest, seen => do
    let seen ← sequence s seen
    sequences rest seen

def ofTask : Task → Checker :=
  Task.fold fun t k => {
    isJoin := k.isJoin
    run := fun joined seen =>
      match t.offence? joined seen with
      | some offence => throw offence
      | none => sequences k.sequences (t.reference :: seen) }

end Checker

def Definition.validate (d : Definition) : Except Offence Unit := do
  let _ ← Checker.sequence (d.tasks.map Checker.ofTask) []

end Flowchart

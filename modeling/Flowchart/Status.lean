import Flowchart.Json.Field

/-!
# Statuses of attempts and of runs

A status is written by its name. It is also read from an object whose only member is that name
with the value null.
-/

namespace Flowchart

inductive TaskStatus where
  | scheduled
  | inProgress
  | completed
  | completedWithErrors
  | failed
  | failedWithTerminalError
  | canceled
  | timedOut
  | skipped
  deriving DecidableEq, Repr

inductive RunStatus where
  | running
  | completed
  | failed
  | timedOut
  | terminated
  | paused
  deriving DecidableEq, Repr

/-- The one of `all` that a document names. In a text, nothing but a string or an object may stand
where a name is wanted. -/
def Doc.named {α : Type} (name : α → String) (all : List α) (source : Source) :
    Doc → Except Fault α
  | .str s => ofName s
  | .flawed flaw | .obj [] (some flaw) => throw flaw.named
  | .obj ((key, d) :: rest) flaw => do
    let a ← ofName key
    match d, rest, flaw with
    | .null, [], none => pure a
    | .null, [], some flaw => throw flaw.named
    | .null, _ :: _, _ => throw source.surplus
    | d, _, _ => throw d.mismatch
  | _ => throw source.surplus
where
  ofName (s : String) : Except Fault α :=
    match all.find? (name · == s) with
    | some a => pure a
    | none => throw .shape

namespace TaskStatus

def name : TaskStatus → String
  | scheduled => "SCHEDULED"
  | inProgress => "IN_PROGRESS"
  | completed => "COMPLETED"
  | completedWithErrors => "COMPLETED_WITH_ERRORS"
  | failed => "FAILED"
  | failedWithTerminalError => "FAILED_WITH_TERMINAL_ERROR"
  | canceled => "CANCELED"
  | timedOut => "TIMED_OUT"
  | skipped => "SKIPPED"

def all : List TaskStatus :=
  [scheduled, inProgress, completed, completedWithErrors, failed, failedWithTerminalError,
    canceled, timedOut, skipped]

def isPending : TaskStatus → Bool
  | scheduled | inProgress => true
  | _ => false

def toJson (s : TaskStatus) : Json := .str s.name

def ofDoc (source : Source) : Doc → Except Fault TaskStatus := Doc.named name all source

end TaskStatus

namespace RunStatus

def name : RunStatus → String
  | running => "RUNNING"
  | completed => "COMPLETED"
  | failed => "FAILED"
  | timedOut => "TIMED_OUT"
  | terminated => "TERMINATED"
  | paused => "PAUSED"

def all : List RunStatus := [running, completed, failed, timedOut, terminated, paused]

def toJson (s : RunStatus) : Json := .str s.name

def ofDoc (source : Source) : Doc → Except Fault RunStatus := Doc.named name all source

end RunStatus

end Flowchart

import Flowchart.Json.Field
import Flowchart.Status

/-!
# Tallies

A tally counts the statuses of tasks that are drawn as one vertex. What is neither completed,
pending nor canceled has failed.
-/

namespace Flowchart

structure Tally where
  total : Nat
  success : Nat
  inProgress : Nat
  canceled : Nat
  deriving DecidableEq, Repr

namespace Tally

def empty : Tally := ⟨0, 0, 0, 0⟩

def count (t : Tally) (s : TaskStatus) : Tally :=
  let t := { t with total := t.total + 1 }
  if s = .completed then { t with success := t.success + 1 }
  else if s.isPending then { t with inProgress := t.inProgress + 1 }
  else if s = .canceled then { t with canceled := t.canceled + 1 }
  else t

def ofStatuses (ss : List TaskStatus) : Tally := ss.foldl count empty

/-- The tasks that have failed. No tally of statuses has more parts than its total; for one that was
read and has, the difference is taken in 64 bits. -/
def failed (t : Tally) : Nat :=
  let parts := t.success + t.inProgress + t.canceled
  if parts ≤ t.total then t.total - parts
  else (((t.total : Int) - parts) % Nat.pow 2 64).toNat

/-- The status of the whole. Pending tasks come before failed ones. -/
def status (t : Tally) : TaskStatus :=
  if t.success = t.total then .completed
  else if 0 < t.inProgress then .inProgress
  else .failed

def totalField : Field Nat := .required "total" Doc.unsigned64 .nat

def successField : Field Nat := .required "success" Doc.unsigned64 .nat

def inProgressField : Field Nat := .required "inProgress" Doc.unsigned64 .nat

def canceledField : Field Nat := .required "canceled" Doc.unsigned64 .nat

def toJson (t : Tally) : Json :=
  .obj (totalField.written t.total ++ successField.written t.success ++
    inProgressField.written t.inProgress ++ canceledField.written t.canceled)

def ofDoc (d : Doc) : Except Fault Tally := do
  let members ← d.record .value
    [totalField.check, successField.check, inProgressField.check, canceledField.check]
  pure {
    total := ← totalField.get members
    success := ← successField.get members
    inProgress := ← inProgressField.get members
    canceled := ← canceledField.get members }

end Tally

end Flowchart

import Flowchart.Attempt
import Flowchart.Error

/-!
# Histories

The attempts of an execution, found by reference and by id. References stand in the order of their
first arrival, and the attempts of one reference in the order of theirs, so the last one counts.
-/

namespace Flowchart

def startBubble : String := "__start"

def finalBubble : String := "__final"

structure History where
  entries : Dict (List Attempt)
  /-- For each id, the reference of its attempt and the place among the attempts of it. -/
  ids : Dict (String × Nat)
  terminated : Bool
  deriving DecidableEq

def mapLast {α : Type} (f : α → α) : List α → List α
  | [] => []
  | [a] => [f a]
  | a :: rest => a :: mapLast f rest

namespace History

def empty : History := ⟨[], [], false⟩

def isEmpty (h : History) : Bool := h.entries.isEmpty

def references (h : History) : List String := Dict.keys h.entries

/-- All attempts of a reference, oldest first. -/
def attempts (h : History) (reference : String) : List Attempt :=
  (Dict.get? h.entries reference).getD []

def latest? (h : History) (reference : String) : Option Attempt :=
  (h.attempts reference).getLast?

/-- The latest attempt of a task, which must not be a bubble. -/
def latestOfTask (h : History) (reference : String) : Except Error (Option Attempt) :=
  match h.latest? reference with
  | some a => if a.isBubble then throw (.bubbleAccess reference) else pure (some a)
  | none => pure none

def withId (h : History) (id : String) : Except Error Attempt :=
  match Dict.get? h.ids id with
  | none => throw (.notFound .taskId id)
  | some (reference, place) =>
    match (h.attempts reference)[place]? with
    | none => throw (.notFound .taskId id)
    | some a => if a.isBubble then throw (.bubbleAccess reference) else pure a

/-- The references that the latest attempt of a fork spawned. -/
def spawned? (h : History) (reference : String) : Option (List String) := do
  (← h.latest? reference).spawned

/-- Appends an attempt. Bubbles are not found by id. -/
def add (h : History) (a : Attempt) : History :=
  let before := h.attempts a.reference
  { h with
    entries := Dict.put h.entries a.reference (before ++ [a])
    ids := match a.isBubble, a.id with
      | false, some id => Dict.put h.ids id (a.reference, before.length)
      | _, _ => h.ids }

/-- Records on the latest attempt of `parent` that it spawned `child`. -/
def link (h : History) (parent child : String) : Except Error History :=
  match h.latest? parent with
  | none => throw (.orphan child parent)
  | some _ =>
    pure { h with entries := Dict.adjust h.entries parent (mapLast (·.addSpawned child)) }

/-- The parent that an attempt names, with the attempt's reference. Joins are not spawned. -/
def spawning? (a : Attempt) : Option (String × String) :=
  if a.type = .join then none else a.parent.map fun parent => (parent, a.reference)

/-- The history of an execution. All attempts are added before any is linked to its parent, since
a parent may arrive after its children. Then the start bubble has run, and so has the final bubble
if the execution completed without a terminate task. -/
def ofAttempts (status : RunStatus) (attempts : List Attempt) : Except Error History := do
  let added := attempts.foldl add empty
  let h := { added with terminated := attempts.any (·.type == TaskType.terminate) }
  let h ← (attempts.filterMap spawning?).foldlM (fun h link => h.link link.1 link.2) h
  let h := h.add (.bubble startBubble .completed)
  if status = .completed ∧ ¬ h.terminated then
    pure (h.add (.bubble finalBubble .completed))
  else
    pure h

end History

end Flowchart

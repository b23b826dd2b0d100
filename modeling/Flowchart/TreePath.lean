import Flowchart.Json.Field
import Flowchart.Task.Basic

/-!
# Paths to sequences

A path leads from the root sequence of a tree of tasks to a sequence somewhere inside it. Each
segment picks a task by its index and one of the task's sequences by a branch. The empty path is
the root sequence itself. `get?` finds the sequence at the end, `focus?` finds it as a place that
something else can be put into, and `modify?` changes it there.
-/

namespace Flowchart

/-- One of the sequences that a task owns. -/
inductive Branch where
  | fork (index : Nat)
  | case (key : String)
  | default
  | loopBody
  deriving DecidableEq, Repr

/-- A step from a sequence into a sequence of one of its tasks. -/
structure Segment where
  index : Nat
  branch : Branch
  deriving DecidableEq, Repr

structure TreePath where
  /-- The steps, from the root down. -/
  segments : List Segment
  deriving DecidableEq, Repr

namespace Branch

def label : Branch → String
  | fork index => s!"forkTasks[{index}]"
  | case key => s!"decisionCases[{key}]"
  | default => "defaultCase"
  | loopBody => "loopOver"

end Branch

namespace Segment

def label (s : Segment) : String := s!"{s.index}.{s.branch.label}"

end Segment

namespace Kind

variable {σ : Type}

def get? : Kind σ → Branch → Option σ
  | fork branches, .fork i => branches[i]?
  | switch _ s, .case key => Dict.get? s.cases key
  | switch _ s, .default => some s.otherwise
  | loop _ body, .loopBody => some body
  | _, _ => none

/-- Changes the sequence of a branch, if there is such a branch. -/
def set (k : Kind σ) (branch : Branch) (value : σ) : Kind σ :=
  match k, branch with
  | fork branches, .fork i => fork (branches.set i value)
  | switch form s, .case key =>
    switch form { s with cases := Dict.adjust s.cases key fun _ => value }
  | switch form s, .default => switch form { s with otherwise := value }
  | loop condition _, .loopBody => loop condition value
  | k, _ => k

/-- The sequence of a branch as a place: what is there, and the kind with something else there. -/
def focus? : Kind σ → Branch → Option (σ × (σ → Kind σ))
  | fork branches, .fork i => branches[i]?.map fun s => (s, fun s' => fork (branches.set i s'))
  | switch form s, .case key => (Dict.get? s.cases key).map fun tasks =>
    (tasks, fun tasks' => switch form { s with cases := Dict.adjust s.cases key fun _ => tasks' })
  | switch form s, .default =>
    some (s.otherwise, fun tasks' => switch form { s with otherwise := tasks' })
  | loop condition body, .loopBody => some (body, loop condition)
  | _, _ => none

/-- Takes a branch of a fork or a case of a switch away. The default of a switch and the body of a
loop stay. -/
def prune : Kind σ → Branch → Kind σ
  | fork branches, .fork i => fork (branches.eraseIdx i)
  | switch form s, .case key => switch form { s with cases := Dict.erase s.cases key }
  | k, _ => k

end Kind

namespace TreePath

def root : TreePath := ⟨[]⟩

def child (p : TreePath) (index : Nat) (branch : Branch) : TreePath :=
  ⟨p.segments ++ [⟨index, branch⟩]⟩

/-- The path to the enclosing sequence, with the last segment. -/
def owner? (p : TreePath) : Option (TreePath × Segment) :=
  p.segments.getLast?.map fun last => (⟨p.segments.dropLast⟩, last)

def label (p : TreePath) : String :=
  p.segments.foldl (fun text s => text ++ "/" ++ s.label) "root"

def follow? : List Segment → List Task → Option (List Task)
  | [], tasks => some tasks
  | s :: rest, tasks => do follow? rest (← (← tasks[s.index]?).kind.get? s.branch)

def change? (f : List Task → List Task) : List Segment → List Task → Option (List Task)
  | [], tasks => some (f tasks)
  | s :: rest, tasks => do
    let task ← tasks[s.index]?
    let inner ← change? f rest (← task.kind.get? s.branch)
    pure (tasks.set s.index { task with kind := task.kind.set s.branch inner })

def enter? : List Segment → List Task → Option (List Task × (List Task → List Task))
  | [], tasks => some (tasks, id)
  | s :: rest, tasks => do
    let task ← tasks[s.index]?
    let (inner, close) ← task.kind.focus? s.branch
    let (found, put) ← enter? rest inner
    pure (found, fun new => tasks.set s.index { task with kind := close (put new) })

def get? (p : TreePath) (tasks : List Task) : Option (List Task) :=
  follow? p.segments tasks

def focus? (p : TreePath) (tasks : List Task) :
    Option (List Task × (List Task → List Task)) :=
  enter? p.segments tasks

def modify? (p : TreePath) (f : List Task → List Task) (tasks : List Task) :
    Option (List Task) :=
  change? f p.segments tasks

end TreePath

end Flowchart

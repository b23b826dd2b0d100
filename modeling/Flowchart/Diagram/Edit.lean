import Flowchart.Diagram.Basic
import Flowchart.Task.Template

/-!
# Edits

An edit finds its place in the tree of tasks through the vertex of its target, changes the tree, and
draws the diagram anew. It gives the new diagram or an error. A session does the same to a diagram
in place.
-/

namespace Flowchart

/-- A change of the tree of tasks. What is put in is the template of a type. -/
inductive Edit where
  | insert (after : String) (type : TaskType)
  | addBranch (fork : String) (type : TaskType)
  | addCase (switch : String) (type : TaskType)
  | setDefault (switch : String) (type : TaskType)
  | setBody (loop : String) (type : TaskType)
  /-- Takes a task out, and a fork together with its join. -/
  | delete (target : String)
  /-- Puts `task` in the place of the target. -/
  | replace (target : String) (task : Task)
  deriving DecidableEq

structure Place where
  path : TreePath
  index : Nat
  deriving DecidableEq

namespace Place

def modify? (place : Place) (f : Task → Task) (tasks : List Task) : Option (List Task) := do
  let sequence ← place.path.get? tasks
  let task ← sequence[place.index]?
  place.path.modify? (fun sequence => sequence.set place.index (f task)) tasks

end Place

namespace Diagram

/-- The first reference made of `stem` and a number that is not drawn. -/
def freshRef (d : Diagram) (stem : String) : String :=
  let candidate (n : Nat) : String := s!"{stem}_{n}"
  let n := (List.range (d.graph.vertexCount + 1)).find? fun n => !d.graph.contains (candidate n)
  candidate (n.getD 0)

def freshTasks (d : Diagram) (type : TaskType) : Except Error (List Task) :=
  Task.template type (d.freshRef type.stem)

/-- The place of the task that is drawn as `reference`, with the sequence it is in and the task. -/
def locate (d : Diagram) (reference : String) : Except Error (Place × List Task × Task) := do
  let some v := d.graph.vertex? reference | throw (.notFound .task reference)
  let some position := v.position | throw (.noSlot reference)
  let some sequence := v.parent.get? d.tasks | throw (.lostSequence reference)
  let some task := sequence[position]? | throw (.lostSlot reference)
  if task.reference ≠ v.task.reportRef then throw (.lostSlot reference)
  pure (⟨v.parent, position⟩, sequence, task)

/-- How many tasks of `sequence` a task at `index` takes up: a fork goes together with the join
right after it. -/
def extent (reference : String) (sequence : List Task) (index : Nat) (task : Task) :
    Except Error Nat :=
  if task.kind.isFork then
    match sequence[index + 1]? with
    | some next => if next.kind.isJoin then pure 2 else throw (.missingJoin reference)
    | none => throw (.missingJoin reference)
  else
    pure 1

/-- Where a task after `reference` goes. After the start bubble is the front of the root. -/
def insertionPlace (d : Diagram) (reference : String) : Except Error Place := do
  if reference = startBubble then pure ⟨.root, 0⟩
  else
    let (place, sequence, task) ← d.locate reference
    pure ⟨place.path, place.index + (← extent reference sequence place.index task)⟩

def spliceAt (d : Diagram) (reference : String) (place : Place) (inserted : List Task) :
    Except Error (List Task) :=
  match place.path.modify? (fun s => s.take place.index ++ inserted ++ s.drop place.index)
      d.tasks with
  | some tasks => pure tasks
  | none => throw (.lostSequence reference)

/-- The tasks after changing the kind of a task, where `change` fits its kind. -/
def changeKind (d : Diagram) (reference : String) (expected : TaskType)
    (change : Kind (List Task) → Option (Kind (List Task))) : Except Error (List Task) := do
  let (place, _, task) ← d.locate reference
  let some kind := change task.kind | throw (.unexpectedType reference expected task.type)
  let some tasks := place.modify? (fun task => { task with kind := kind }) d.tasks
    | throw (.lostSequence reference)
  pure tasks

end Diagram

namespace Kind

def addBranch? (branch : List Task) : Kind (List Task) → Option (Kind (List Task))
  | fork branches => some (fork (branches ++ [branch]))
  | _ => none

/-- The first key made of a number, from the number of cases on, that is not in use. -/
def freshCase (cases : List (String × List Task)) : String :=
  let candidate (n : Nat) : String := s!"case_{n}"
  let n := (List.range' cases.length (cases.length + 1)).find? fun n =>
    !Dict.contains cases (candidate n)
  candidate (n.getD 0)

def addCase? (branch : List Task) : Kind (List Task) → Option (Kind (List Task))
  | switch form s =>
    some (switch form { s with cases := s.cases ++ [(freshCase s.cases, branch)] })
  | _ => none

def setDefault? (branch : List Task) : Kind (List Task) → Option (Kind (List Task))
  | switch form s => some (switch form { s with otherwise := branch })
  | _ => none

def setBody? (body : List Task) : Kind (List Task) → Option (Kind (List Task))
  | loop condition _ => some (loop condition body)
  | _ => none

end Kind

namespace TreePath

/-- Takes the branch at the end of a path away from the task that owns it. The root stays. -/
def prune (p : TreePath) (tasks : List Task) : List Task :=
  match p.owner? with
  | none => tasks
  | some (owner, last) =>
    (Place.modify? ⟨owner, last.index⟩
      (fun task => { task with kind := task.kind.prune last.branch }) tasks).getD tasks

end TreePath

namespace Diagram

/-- The tasks after taking a task out, with its join if it is a fork. A branch that this leaves
empty goes as well. -/
def remove (d : Diagram) (reference : String) : Except Error (List Task) := do
  let (place, sequence, task) ← d.locate reference
  let count ← extent reference sequence place.index task
  let rest := sequence.take place.index ++ sequence.drop (place.index + count)
  let some tasks := place.path.modify? (fun _ => rest) d.tasks | throw (.lostSequence reference)
  pure (if rest.isEmpty then place.path.prune tasks else tasks)

def editedTasks (d : Diagram) : Edit → Except Error (List Task)
  | .insert target type => do
    let inserted ← d.freshTasks type
    let place ← d.insertionPlace target
    d.spliceAt target place inserted
  | .addBranch fork type => do
    let branch ← d.freshTasks type
    d.changeKind fork .forkJoin (Kind.addBranch? branch)
  | .addCase switch type => do
    let branch ← d.freshTasks type
    d.changeKind switch .switch (Kind.addCase? branch)
  | .setDefault switch type => do
    let branch ← d.freshTasks type
    d.changeKind switch .switch (Kind.setDefault? branch)
  | .setBody loop type => do
    let body ← d.freshTasks type
    d.changeKind loop .doWhile (Kind.setBody? body)
  | .delete target => d.remove target
  | .replace target task => do
    let (place, _, _) ← d.locate target
    let some tasks := place.modify? (fun _ => task) d.tasks | throw (.lostSequence target)
    pure tasks

def edit (d : Diagram) (e : Edit) : Except Error Diagram := do
  d.redraw (← d.editedTasks e)

end Diagram

/-! ### Editing in place

A session works on one diagram, which changes step by step. Where a step fails, what was changed
before it stays changed. So an edit remembers the tasks that it began with, and puts them back when
it cannot be carried through: when the tree cannot be changed as asked, or when the changed tree
cannot be drawn.
-/

/-- A request to one diagram. One that fails leaves the diagram as it is at that point. -/
abbrev Session := EStateM Error Diagram

namespace Place

def task? (place : Place) (tasks : List Task) : Option Task := do
  (← place.path.get? tasks)[place.index]?

end Place

namespace Diagram

def withTasks (d : Diagram) (tasks : List Task) : Diagram :=
  { d with definition := { d.definition with tasks := tasks } }

end Diagram

namespace Session

/-- Asks the diagram, which stays as it is. -/
def ask {α : Type} (question : Diagram → Except Error α) : Session α := do
  match question (← get) with
  | .ok a => pure a
  | .error error => throw error

/-- Changes the tree of tasks, and nothing else. -/
def change (reference : String) (f : List Task → Option (List Task)) : Session Unit := do
  match f (← get).tasks with
  | some tasks => modify (·.withTasks tasks)
  | none => throw (.lostSequence reference)

/-- Draws the graph anew, of the tasks as they are now. -/
def redraw : Session Unit := do
  let graph ← ask fun d => Graph.ofTasks d.settings d.history d.tasks
  modify ({ · with graph := graph })

/-- Carries out changes of the tree and draws it. When either fails, the tasks are put back. -/
def commit (changes : Session Unit) : Session (List Task) := do
  let before := (← get).tasks
  tryCatch (do changes; redraw) fun error => do
    modify (·.withTasks before)
    throw error
  pure (← get).tasks

def insert (target : String) (type : TaskType) : Session (List Task) := do
  let inserted ← ask (·.freshTasks type)
  let place ← ask (·.insertionPlace target)
  commit <| change target <| place.path.modify? fun s =>
    s.take place.index ++ inserted ++ s.drop place.index

/-- Changes the kind of the task at a place. Whether the change fits that kind is found out in the
tree. -/
def changeKind (target : String) (expected : TaskType) (place : Place)
    (enter : Kind (List Task) → Option (Kind (List Task))) : Session Unit := do
  match place.task? (← get).tasks with
  | none => throw (.lostSequence target)
  | some task =>
    match enter task.kind with
    | none => throw (.unexpectedType target expected task.type)
    | some kind => change target <| place.modify? fun task => { task with kind := kind }

/-- Puts a template in through the kind of a task. -/
def putInto (target : String) (expected type : TaskType)
    (enter : List Task → Kind (List Task) → Option (Kind (List Task))) : Session (List Task) := do
  let inserted ← ask (·.freshTasks type)
  let (place, _, _) ← ask (·.locate target)
  commit (changeKind target expected place (enter inserted))

/-- Takes out `count` tasks from a place on. A branch that this leaves empty goes as well. -/
def cutOut (target : String) (place : Place) (count : Nat) : Session Unit := do
  change target <| place.path.modify? fun s =>
    s.take place.index ++ s.drop (place.index + count)
  if (place.path.get? (← get).tasks).any (·.isEmpty) then
    modify fun d => d.withTasks (place.path.prune d.tasks)

/-- Takes a task out, and a fork together with its join. -/
def delete (target : String) : Session (List Task) := do
  let (place, sequence, task) ← ask (·.locate target)
  let count ← ask fun _ => Diagram.extent target sequence place.index task
  commit (cutOut target place count)

def replace (target : String) (task : Task) : Session (List Task) := do
  let (place, _, _) ← ask (·.locate target)
  commit <| change target <| place.modify? fun _ => task

/-- Carries an edit out, and gives the tasks after it. -/
def edit : Edit → Session (List Task)
  | .insert target type => insert target type
  | .addBranch fork type => putInto fork .forkJoin type Kind.addBranch?
  | .addCase switch type => putInto switch .switch type Kind.addCase?
  | .setDefault switch type => putInto switch .switch type Kind.setDefault?
  | .setBody loop type => putInto loop .doWhile type Kind.setBody?
  | .delete target => delete target
  | .replace target task => replace target task

end Session

namespace Diagram

/-- The diagram after an edit in place, whether the edit succeeds or fails. -/
def perform (d : Diagram) (e : Edit) : Diagram :=
  match (Session.edit e).run d with
  | .ok _ after => after
  | .error _ after => after

/-- The diagram after edits one by one, of which some may fail. -/
def performAll (d : Diagram) (es : List Edit) : Diagram := es.foldl perform d

end Diagram

end Flowchart

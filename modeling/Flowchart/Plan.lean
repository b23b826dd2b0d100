import Flowchart.Graph.Vertex
import Flowchart.History
import Flowchart.Settings

/-!
# Plans

A plan lists the vertices of a diagram in the order in which they are drawn, each with the vertices
that it is drawn after. It follows from the tasks, the history and the settings alone. Its frontier
holds the references that whatever comes next is drawn after.
-/

namespace Flowchart

/-- What a vertex says in place of the attempts under its reference. -/
structure Aggregate where
  status : Option TaskStatus
  tally : Option Tally
  standsFor : Option (List String)
  deriving DecidableEq

structure Placement where
  task : Task
  parent : TreePath
  position : Option Nat
  /-- Given where the vertex does not speak of attempts of its own. -/
  aggregate : Option Aggregate
  /-- The vertices that edges lead from. -/
  sources : List String
  deriving DecidableEq

/-- Puts a vertex in, or stops the drawing. -/
inductive Step where
  | draw (placement : Placement)
  | halt (error : Error)
  deriving DecidableEq

structure Plan where
  steps : List Step
  /-- A frontier may name a vertex more than once. -/
  frontier : List String
  deriving DecidableEq

/-- How a task is planned, given the sequence that holds it, its place there, and the references
that it comes after. -/
abbrev Walk := (path : TreePath) → (position : Nat) → (sources : List String) → Plan

def dynamicForkChildrenRef (reference : String) : String :=
  reference ++ "_DF_CHILDREN_PLACEHOLDER"

def loopChildrenRef (reference : String) : String := reference ++ "_LOOP_CHILDREN_PLACEHOLDER"

def loopEndRef (reference : String) : String := reference ++ "-END"

/-- Whether a reference is that of an iteration of the task `reference` in a loop. -/
def isIterationOf (reference recorded : String) : Bool :=
  (reference ++ "__").toList.isPrefixOf recorded.toList

namespace Aggregate

def blank : Aggregate := ⟨none, none, none⟩

/-- The latest attempts of these references, taken together. -/
def ofReferences (history : History) (references : List String) : Except Error Aggregate := do
  let statuses ← references.mapM fun reference => do
    match ← history.latestOfTask reference with
    | some a => pure a.status
    | none => throw (.notFound .attempt reference)
  let tally := Tally.ofStatuses statuses
  pure ⟨some tally.status, some tally, some references⟩

end Aggregate

namespace Plan

def halt (error : Error) : Plan := ⟨[.halt error], []⟩

def attempt {α : Type} (result : Except Error α) (next : α → Plan) : Plan :=
  match result with
  | .ok a => next a
  | .error error => halt error

/-- One vertex, which comes next before all else. -/
def vertex (placement : Placement) : Plan := ⟨[.draw placement], [placement.task.reference]⟩

def andThen (p : Plan) (next : List String → Plan) : Plan :=
  let q := next p.frontier
  ⟨p.steps ++ q.steps, q.frontier⟩

def beside (ps : List Plan) : Plan := ⟨ps.flatMap (·.steps), ps.flatMap (·.frontier)⟩

def sequenceFrom (path : TreePath) : Nat → List Walk → List String → Plan
  | _, [], sources => ⟨[], sources⟩
  | position, walk :: rest, sources =>
    (walk path position sources).andThen (sequenceFrom path (position + 1) rest)

def sequence (path : TreePath) (walks : List Walk) (sources : List String) : Plan :=
  sequenceFrom path 0 walks sources

end Plan

/-- The kind of a spawned task, as far as its reported type tells. A fork with a parent was spawned
by a dynamic fork and is one itself. -/
def Attempt.kind (a : Attempt) : Kind (List Task) :=
  match a.type with
  | .http => .worker .http
  | .inline => .worker .inline
  | .wait => .worker .wait
  | .terminate => .terminate
  | .join => .join []
  | .exclusiveJoin => .exclusiveJoin []
  | .subWorkflow => .subWorkflow .null
  | .event => .event none
  | .setVariable => .worker .setVariable
  | .jsonJqTransform => .worker .jsonJqTransform
  | .human => .worker .human
  | .forkJoin => .fork []
  | .fork => if a.parent.isSome then .dynamicFork none none else .fork []
  | .forkJoinDynamic => .dynamicFork none none
  | .switch => .switch .switch (.empty [])
  | .decision => .switch .decision (.empty [])
  | .doWhile => .loop none []
  | .simple | .terminal | .doWhileEnd | .dynamicForkChildren | .loopChildren | .other _ =>
    .worker .simple

/-- The task that a spawned attempt is drawn as. -/
def Attempt.task (a : Attempt) : Task :=
  .plain (a.definitionName.getD a.reference) a.reference a.kind

namespace Task

variable (settings : Settings) (history : History)

/-- The children of the dynamic fork `reference`: a vertex for each while they are few, and one
vertex for all of them otherwise. -/
def planForked (reference : String) (path : TreePath) : Plan :=
  let children := (history.spawned? reference).getD []
  if !children.isEmpty && children.length < settings.collapseLimit then
    .beside <| children.map fun child =>
      .attempt (history.latestOfTask child) fun
        | some a => ⟨[.draw ⟨a.task, path, none, none, [reference]⟩], [child]⟩
        | none => .halt (.notFound .attempt child)
  else
    let stack := .ofRef (dynamicForkChildrenRef reference) (.marker .dynamicForkChildren)
    .attempt (history.latestOfTask reference) fun
      | none => .vertex ⟨stack, path, none, some .blank, [reference]⟩
      | some _ => .attempt (Aggregate.ofReferences history children) fun aggregate =>
        .vertex ⟨stack, path, none, some aggregate, [reference]⟩

/-- The body of a loop that has run: one vertex for all iterations of the tasks in it. The bar that
closes the loop takes the status from that vertex. -/
def planIterations (t bar : Task) (path : TreePath) (position : Nat) : Plan :=
  let iterations := history.references.filter fun recorded =>
    t.descendants.any fun u => isIterationOf u.reference recorded
  let stack := .ofRef (loopChildrenRef t.reference) (.marker .loopChildren)
  .attempt (Aggregate.ofReferences history iterations) fun aggregate =>
    (Plan.vertex ⟨stack, path, none, some aggregate, [t.reference]⟩).andThen fun sources =>
      .vertex ⟨bar, path, some position, some { Aggregate.blank with status := aggregate.status },
        sources⟩

def loopEnd (t : Task) : Task := .plain t.name (loopEndRef t.reference) (.loopEnd t.reference)

/-- The plan of a task: the task itself, and then what is in its sequences. -/
def plan : Task → Walk :=
  fold fun t kind path position sources =>
    let self := Plan.vertex ⟨t, path, some position, none, sources⟩
    match kind with
    | .terminate => { self with frontier := [] }
    | .fork [] => self
    | .fork branches => self.andThen fun sources =>
      .beside <| branches.mapIdx fun i walks =>
        .sequence (path.child position (.fork i)) walks sources
    | .dynamicFork _ _ => self.andThen fun _ => planForked settings history t.reference path
    | .switch _ s => self.andThen fun sources =>
      .beside <| .sequence (path.child position .default) s.otherwise sources ::
        s.cases.map fun c => .sequence (path.child position (.case c.1)) c.2 sources
    | .loop _ body =>
      .attempt (history.latestOfTask t.reference) fun
        | some _ => self.andThen fun _ => planIterations history t t.loopEnd path position
        | none => self.andThen fun sources =>
          (Plan.sequence (path.child position .loopBody) body sources).andThen fun sources =>
            .vertex ⟨t.loopEnd, path, some position, none, sources⟩
    | .worker _ | .join _ | .exclusiveJoin _ | .subWorkflow _ | .event _ | .loopEnd _
    | .marker _ => self

end Task

namespace Plan

/-- The plan of a whole diagram: the root sequence between two bubbles. -/
def ofTasks (settings : Settings) (history : History) (tasks : List Task) : Plan :=
  let bubble (name reference : String) (sources : List String) : Plan :=
    .vertex ⟨.plain name reference (.marker .terminal), .root, none, none, sources⟩
  (bubble "start" startBubble []).andThen fun sources =>
    (sequence .root (tasks.map (Task.plan settings history)) sources).andThen
      (bubble "final" finalBubble)

end Plan

end Flowchart

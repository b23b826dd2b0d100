import Flowchart.Graph.Basic
import Flowchart.Plan

/-!
# Drawing a plan

Each step of a plan puts one vertex into the graph and an edge from each of its sources. Whether
execution went along an edge follows from the history, and so does what an edge out of a switch is
labelled with.
-/

namespace Flowchart

def defaultLabel : String := "default"

namespace Switch

/-- Whether execution left a switch towards `successor`, which has run. Behind an empty branch that
is so when no other branch was entered. -/
def taken (s : Switch (List Task)) (history : History) (successor : String) : Bool :=
  s.opensDefault successor || (s.caseOpenedBy? successor).isSome ||
    !s.openings.any fun head => (history.latest? head).isSome

/-- The case that an edge from a switch to `successor` belongs to. An edge that leads past the
switch belongs to its first empty branch. -/
def caseValue? (s : Switch (List Task)) (successor : String) : Option String :=
  if s.opensDefault successor then some defaultLabel
  else match s.caseOpenedBy? successor with
    | some key => some key
    | none =>
      if s.otherwise.isEmpty then some defaultLabel
      else (s.cases.find? (·.2.isEmpty)).map (·.1)

end Switch

namespace Placement

def isExecuted (p : Placement) (latest : Option Attempt) : Bool :=
  match p.aggregate with
  | some aggregate => aggregate.status.isSome
  | none => latest.isSome

def toVertex (p : Placement) (history : History) : Vertex :=
  let results := history.attempts p.task.reportRef
  let aggregate := p.aggregate.getD
    { Aggregate.blank with status := results.getLast?.map (·.status) }
  { task := p.task
    parent := p.parent
    position := p.position
    results := results
    status := aggregate.status
    tally := aggregate.tally
    standsFor := aggregate.standsFor }

/-- The edge into the vertex from a source that is drawn already. -/
def edgeFrom (p : Placement) (history : History) (g : Graph) (source : String) :
    Except Error EdgeLabel := do
  let latest := history.latest? p.task.reportRef
  match g.vertex? source with
  | none => throw (.notFound .vertex source)
  | some v =>
    match v.task.kind.switch? with
    | none => pure ⟨v.isExecuted && p.isExecuted latest, none⟩
    | some s =>
      match s.caseValue? p.task.reference with
      | some value => pure ⟨latest.isSome && s.taken history p.task.reference, some value⟩
      | none => throw (.unresolvedCase source p.task.reference)

end Placement

namespace Graph

/-- Puts a vertex in, with the edges into it. The edges are found before the vertex is there. -/
def draw (history : History) (g : Graph) (p : Placement) : Except Error Graph := do
  let edges ← p.sources.mapM fun source => do
    pure (source, ← p.edgeFrom history g source)
  edges.foldlM (fun g edge => g.putEdge edge.1 p.task.reference edge.2)
    (g.putVertex (p.toVertex history))

def step (history : History) (g : Graph) : Step → Except Error Graph
  | .draw placement => g.draw history placement
  | .halt error => throw error

def ofSteps (history : History) (steps : List Step) : Except Error Graph :=
  steps.foldlM (step history) empty

/-- The graph of a root sequence. A final bubble that nothing leads to is left out. -/
def ofTasks (settings : Settings) (history : History) (tasks : List Task) :
    Except Error Graph := do
  let g ← ofSteps history (Plan.ofTasks settings history tasks).steps
  if g.inDegree finalBubble = 0 then pure (g.eraseVertex finalBubble) else pure g

end Graph

end Flowchart

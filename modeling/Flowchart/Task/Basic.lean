import Flowchart.Json.Basic
import Flowchart.TaskType

/-!
# Tasks

A task of a control-flow kind owns sequences of tasks: a fork its branches, a switch its cases and
its default, a loop its body. `Kind` leaves open what a sequence is. So one type serves for tasks
and for what is computed from them, and `Task.fold` computes it from the inner tasks outwards.
-/

namespace Flowchart

/-- Kinds that execution passes through and that have no fields of their own. -/
inductive Worker where
  | simple
  | http
  | inline
  | wait
  | setVariable
  | jsonJqTransform
  | human
  deriving DecidableEq, Repr

/-- Kinds of generated vertices that have no fields of their own. -/
inductive Marker where
  | terminal
  | dynamicForkChildren
  | loopChildren
  deriving DecidableEq, Repr

/-- A decision is the older form of a switch and works in the same way. -/
inductive SwitchForm where
  | switch
  | decision
  deriving DecidableEq, Repr

/-- A choice between cases, with what happens when no case fits. -/
structure Switch (σ : Type) where
  evaluator : Option String
  expression : Option String
  caseParam : Option String
  cases : List (String × σ)
  otherwise : σ
  deriving DecidableEq

/-- What a task does, where `σ` stands for the sequences of tasks in it. -/
inductive Kind (σ : Type) where
  | worker (w : Worker)
  | terminate
  | join (joinOn : List String)
  | exclusiveJoin (joinOn : List String)
  | subWorkflow (param : Json)
  | event (sink : Option String)
  | fork (branches : List σ)
  | dynamicFork (tasksParam inputParam : Option String)
  | switch (form : SwitchForm) (s : Switch σ)
  | loop (condition : Option String) (body : σ)
  /-- The bar that closes a loop; it reports the status of that loop. -/
  | loopEnd (loop : String)
  | marker (m : Marker)
  deriving DecidableEq

structure Task where
  name : String
  /-- The name by which runs, edits and the diagram refer to the task. -/
  reference : String
  description : Option String
  optional : Option Bool
  inputs : Dict Json
  kind : Kind (List Task)
  /-- Members that are kept although nothing here reads them. -/
  extra : Dict Json

namespace Worker

def type : Worker → TaskType
  | simple => .simple
  | http => .http
  | inline => .inline
  | wait => .wait
  | setVariable => .setVariable
  | jsonJqTransform => .jsonJqTransform
  | human => .human

end Worker

namespace Marker

def type : Marker → TaskType
  | terminal => .terminal
  | dynamicForkChildren => .dynamicForkChildren
  | loopChildren => .loopChildren

end Marker

namespace SwitchForm

def type : SwitchForm → TaskType
  | switch => .switch
  | decision => .decision

end SwitchForm

namespace Switch

variable {σ τ : Type}

def empty (nothing : σ) : Switch σ where
  evaluator := none
  expression := none
  caseParam := none
  cases := []
  otherwise := nothing

def map (f : σ → τ) (s : Switch σ) : Switch τ where
  evaluator := s.evaluator
  expression := s.expression
  caseParam := s.caseParam
  cases := s.cases.map fun c => (c.1, f c.2)
  otherwise := f s.otherwise

/-- The default comes before the cases. -/
def sequences (s : Switch σ) : List σ := s.otherwise :: s.cases.map (·.2)

end Switch

namespace Kind

variable {σ τ : Type}

def type : Kind σ → TaskType
  | worker w => w.type
  | terminate => .terminate
  | join _ => .join
  | exclusiveJoin _ => .exclusiveJoin
  | subWorkflow _ => .subWorkflow
  | event _ => .event
  | fork _ => .forkJoin
  | dynamicFork _ _ => .forkJoinDynamic
  | switch form _ => form.type
  | loop _ _ => .doWhile
  | loopEnd _ => .doWhileEnd
  | marker m => m.type

def isFork : Kind σ → Bool
  | fork _ | dynamicFork _ _ => true
  | _ => false

def isJoin : Kind σ → Bool
  | join _ => true
  | _ => false

def switch? : Kind σ → Option (Switch σ)
  | switch _ s => some s
  | _ => none

def map (f : σ → τ) : Kind σ → Kind τ
  | worker w => worker w
  | terminate => terminate
  | join on => join on
  | exclusiveJoin on => exclusiveJoin on
  | subWorkflow param => subWorkflow param
  | event sink => event sink
  | fork branches => fork (branches.map f)
  | dynamicFork tasksParam inputParam => dynamicFork tasksParam inputParam
  | switch form s => switch form (s.map f)
  | loop condition body => loop condition (f body)
  | loopEnd r => loopEnd r
  | marker m => marker m

/-- The sequences of a kind, in the order in which a walk visits them. -/
def sequences : Kind σ → List σ
  | fork branches => branches
  | switch _ s => s.sequences
  | loop _ body => [body]
  | _ => []

theorem sequences_map (f : σ → τ) (k : Kind σ) : (k.map f).sequences = k.sequences.map f := by
  cases k <;> simp [map, sequences, Switch.map, Switch.sequences]

end Kind

variable {α : Type}

mutual

/-- `f` is given a task, and its kind with the tasks in it replaced by what `f` made of them. -/
def Task.fold (f : Task → Kind (List α) → α) : Task → α
  | ⟨name, reference, description, optional, inputs, kind, extra⟩ =>
    f ⟨name, reference, description, optional, inputs, kind, extra⟩ (kind.foldTasks f)

def Kind.foldTasks (f : Task → Kind (List α) → α) : Kind (List Task) → Kind (List α)
  | .worker w => .worker w
  | .terminate => .terminate
  | .join on => .join on
  | .exclusiveJoin on => .exclusiveJoin on
  | .subWorkflow param => .subWorkflow param
  | .event sink => .event sink
  | .fork branches => .fork (foldBranches f branches)
  | .dynamicFork tasksParam inputParam => .dynamicFork tasksParam inputParam
  | .switch form ⟨evaluator, expression, caseParam, cases, otherwise⟩ =>
    .switch form ⟨evaluator, expression, caseParam, foldCases f cases, foldSequence f otherwise⟩
  | .loop condition body => .loop condition (foldSequence f body)
  | .loopEnd r => .loopEnd r
  | .marker m => .marker m

def foldSequence (f : Task → Kind (List α) → α) : List Task → List α
  | [] => []
  | task :: rest => task.fold f :: foldSequence f rest

def foldBranches (f : Task → Kind (List α) → α) : List (List Task) → List (List α)
  | [] => []
  | branch :: rest => foldSequence f branch :: foldBranches f rest

def foldCases (f : Task → Kind (List α) → α) :
    List (String × List Task) → List (String × List α)
  | [] => []
  | (key, tasks) :: rest => (key, foldSequence f tasks) :: foldCases f rest

end

section

variable (f : Task → Kind (List α) → α)

@[simp] theorem foldSequence_eq (tasks : List Task) :
    foldSequence f tasks = tasks.map (Task.fold f) := by
  induction tasks with
  | nil => rfl
  | cons task rest ih => simp [foldSequence, ih]

@[simp] theorem foldBranches_eq (branches : List (List Task)) :
    foldBranches f branches = branches.map (List.map (Task.fold f)) := by
  induction branches with
  | nil => rfl
  | cons branch rest ih => simp [foldBranches, ih]

@[simp] theorem foldCases_eq (cases : List (String × List Task)) :
    foldCases f cases = cases.map fun c => (c.1, c.2.map (Task.fold f)) := by
  induction cases with
  | nil => rfl
  | cons c rest ih => simp [foldCases, ih]

theorem Kind.foldTasks_eq (k : Kind (List Task)) :
    k.foldTasks f = k.map (List.map (Task.fold f)) := by
  cases k <;> simp [Kind.foldTasks, Kind.map, Switch.map]

theorem Task.fold_eq (t : Task) : t.fold f = f t (t.kind.map (List.map (Task.fold f))) := by
  cases t
  simp [Task.fold, Kind.foldTasks_eq]

end

section

variable {P : Task → Prop} (step : ∀ t : Task, (∀ s ∈ t.kind.sequences, ∀ u ∈ s, P u) → P t)

include step

set_option linter.unusedSectionVars false

mutual

/-- What holds of a task once it holds of the tasks in its sequences holds of every task. -/
theorem Task.induction : ∀ t : Task, P t
  | ⟨_, _, _, _, _, kind, _⟩ => step _ (kind.forall_tasks)

theorem Kind.forall_tasks : ∀ k : Kind (List Task), ∀ s ∈ k.sequences, ∀ u ∈ s, P u
  | .fork branches => by simpa [Kind.sequences] using forall_branches branches
  | .switch _ ⟨_, _, _, cases, otherwise⟩ => by
    simpa [Kind.sequences, Switch.sequences] using
      ⟨forall_sequence otherwise, fun s key h => forall_cases cases (key, s) h⟩
  | .loop _ body => by simpa [Kind.sequences] using forall_sequence body
  | .worker _ | .terminate | .join _ | .exclusiveJoin _ | .subWorkflow _ | .event _
  | .dynamicFork _ _ | .loopEnd _ | .marker _ => by simp [Kind.sequences]

theorem forall_sequence : ∀ tasks : List Task, ∀ u ∈ tasks, P u
  | [] => by simp
  | task :: rest => by simpa using ⟨Task.induction task, forall_sequence rest⟩

theorem forall_branches : ∀ branches : List (List Task), ∀ s ∈ branches, ∀ u ∈ s, P u
  | [] => by simp
  | branch :: rest => by simpa using ⟨forall_sequence branch, forall_branches rest⟩

theorem forall_cases : ∀ cases : List (String × List Task), ∀ c ∈ cases, ∀ u ∈ c.2, P u
  | [] => by simp
  | (key, tasks) :: rest => by
    intro c hc
    rcases List.mem_cons.1 hc with rfl | hc
    · exact forall_sequence tasks
    · exact forall_cases rest c hc

end

end

namespace Task

def plain (name reference : String) (kind : Kind (List Task)) : Task where
  name := name
  reference := reference
  description := none
  optional := none
  inputs := []
  kind := kind
  extra := []

def ofRef (reference : String) (kind : Kind (List Task)) : Task := plain reference reference kind

def setInput (t : Task) (key : String) (value : Json) : Task :=
  { t with inputs := Dict.put t.inputs key value }

def type (t : Task) : TaskType := t.kind.type

/-- The reference under which execution reports the status of the task. -/
def reportRef (t : Task) : String :=
  match t.kind with
  | .loopEnd loop => loop
  | _ => t.reference

/-- The task and all tasks inside it, depth first. -/
def family : Task → List Task :=
  fold fun t k => t :: k.sequences.flatten.flatten

def descendants (t : Task) : List Task := t.kind.sequences.flatMap (·.flatMap family)

theorem family_eq (t : Task) : t.family = t :: t.descendants := by
  rw [family, fold_eq]
  simp [descendants, family, Kind.sequences_map, List.flatMap_def, List.map_map, Function.comp_def,
    List.flatten_flatten]

end Task

/-- All tasks of a sequence, at any depth, depth first. -/
def listing (tasks : List Task) : List Task := tasks.flatMap Task.family

namespace Switch

def head? (tasks : List Task) : Option String := tasks.head?.map (·.reference)

def opensDefault (s : Switch (List Task)) (reference : String) : Bool :=
  head? s.otherwise == some reference

def caseOpenedBy? (s : Switch (List Task)) (reference : String) : Option String :=
  (s.cases.find? fun c => head? c.2 == some reference).map (·.1)

/-- The heads of the branches that are not empty, the default's first. -/
def openings (s : Switch (List Task)) : List String := s.sequences.filterMap head?

end Switch

end Flowchart

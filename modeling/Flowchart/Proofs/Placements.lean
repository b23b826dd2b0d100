import Flowchart.Plan
import Flowchart.Proofs.Outcomes
import Mathlib.Data.List.Nodup

/-!
# What a plan draws

A plan is known by the placements that it draws, by the links that these ask for, and by its
frontier. Each way of putting plans together has one lemma for each of the three. `Task.plan_eq`
opens the plan of a task one level deep, with the plans of its sequences left as they are.
-/

namespace Flowchart

namespace Step

def placement? : Step → Option Placement
  | draw placement => some placement
  | halt _ => none

end Step

namespace Placement

def reference (p : Placement) : String := p.task.reference

end Placement

namespace Plan

def placements (p : Plan) : List Placement := p.steps.filterMap Step.placement?

/-- The references that are drawn, in order. -/
def references (p : Plan) : List String := p.placements.map Placement.reference

/-- Some vertex that is drawn under `v` comes after `u`. -/
def Links (p : Plan) (u v : String) : Prop :=
  ∃ q ∈ p.placements, u ∈ q.sources ∧ q.reference = v

/-- Nothing stops the drawing. -/
def Completes (p : Plan) : Prop := ∀ error, Step.halt error ∉ p.steps

variable {p : Plan} {ps : List Plan} {next : List String → Plan} {placement : Placement}
  {u v : String}

theorem Links.mem_references (h : p.Links u v) : v ∈ p.references := by
  obtain ⟨q, hq, -, rfl⟩ := h
  exact List.mem_map_of_mem hq

@[simp] theorem placements_vertex : (vertex placement).placements = [placement] := rfl

@[simp] theorem references_vertex : (vertex placement).references = [placement.reference] := rfl

@[simp] theorem frontier_vertex : (vertex placement).frontier = [placement.reference] := rfl

@[simp] theorem links_vertex :
    (vertex placement).Links u v ↔ u ∈ placement.sources ∧ placement.reference = v := by
  simp [Links]

@[simp] theorem completes_vertex : (vertex placement).Completes := by
  simp [Completes, vertex]

@[simp] theorem placements_nothing (sources : List String) :
    (Plan.mk [] sources).placements = [] := rfl

@[simp] theorem references_nothing (sources : List String) :
    (Plan.mk [] sources).references = [] := rfl

@[simp] theorem not_links_nothing {sources : List String} : ¬ (Plan.mk [] sources).Links u v := by
  simp [Links]

@[simp] theorem completes_nothing (sources : List String) : (Plan.mk [] sources).Completes := by
  simp [Completes]

@[simp] theorem placements_andThen :
    (p.andThen next).placements = p.placements ++ (next p.frontier).placements := by
  simp [placements, andThen]

@[simp] theorem references_andThen :
    (p.andThen next).references = p.references ++ (next p.frontier).references := by
  simp [references]

@[simp] theorem frontier_andThen : (p.andThen next).frontier = (next p.frontier).frontier := rfl

@[simp] theorem links_andThen :
    (p.andThen next).Links u v ↔ p.Links u v ∨ (next p.frontier).Links u v := by
  simp [Links, or_and_right, exists_or]

@[simp] theorem completes_andThen :
    (p.andThen next).Completes ↔ p.Completes ∧ (next p.frontier).Completes := by
  simp [Completes, andThen, forall_and]

@[simp] theorem placements_beside : (beside ps).placements = ps.flatMap placements := by
  simp only [placements, beside, List.filterMap_flatMap]
  rfl

@[simp] theorem references_beside : (beside ps).references = ps.flatMap references := by
  simp only [references, placements_beside, List.map_flatMap]
  rfl

@[simp] theorem mem_frontier_beside : u ∈ (beside ps).frontier ↔ ∃ p ∈ ps, u ∈ p.frontier := by
  simp [beside]

@[simp] theorem links_beside : (beside ps).Links u v ↔ ∃ p ∈ ps, p.Links u v := by
  simp only [Links, placements_beside, List.mem_flatMap]
  constructor
  · rintro ⟨q, ⟨p, hp, hq⟩, h⟩
    exact ⟨p, hp, q, hq, h⟩
  · rintro ⟨p, hp, q, hq, h⟩
    exact ⟨q, ⟨p, hp, hq⟩, h⟩

@[simp] theorem completes_beside : (beside ps).Completes ↔ ∀ p ∈ ps, p.Completes := by
  simp only [Completes, beside, List.mem_flatMap, not_exists, not_and]
  exact ⟨fun h p hp error => h error p hp, fun h error p hp => h p hp error⟩

theorem not_completes_halt (error : Error) : ¬ (halt error).Completes := by
  simp [Completes, halt]

/-- A plan that completes got its result. -/
theorem Completes.of_attempt {α : Type} {result : Except Error α} {next : α → Plan}
    (h : (attempt result next).Completes) :
    ∃ a, result = .ok a ∧ attempt result next = next a := by
  cases result with
  | ok a => exact ⟨a, rfl, rfl⟩
  | error error => exact absurd h (not_completes_halt error)

end Plan

section

variable (settings : Settings) (history : History)

/-- The plan of tasks that stand in the sequence at `path` from `position` on. -/
def planTasks (path : TreePath) (position : Nat) (tasks : List Task) (sources : List String) :
    Plan :=
  .sequenceFrom path position (tasks.map (Task.plan settings history)) sources

@[simp] theorem planTasks_nil (path : TreePath) (position : Nat) (sources : List String) :
    planTasks settings history path position [] sources = ⟨[], sources⟩ := rfl

theorem planTasks_cons (path : TreePath) (position : Nat) (t : Task) (rest : List Task)
    (sources : List String) :
    planTasks settings history path position (t :: rest) sources =
      (t.plan settings history path position sources).andThen
        (planTasks settings history path (position + 1) rest) := rfl

private theorem mapIdx_map {α β γ : Type} (f : α → β) (as : List α) (g : Nat → β → γ) :
    (as.map f).mapIdx g = as.mapIdx fun i a => g i (f a) := by
  apply List.ext_getElem?
  simp [Function.comp_def]

private theorem map_mapIdx {α β γ : Type} (f : β → γ) (as : List α) (g : Nat → α → β) :
    (as.mapIdx g).map f = as.mapIdx fun i a => f (g i a) := by
  apply List.ext_getElem?
  simp [Function.comp_def]

theorem Task.plan_eq (t : Task) (path : TreePath) (position : Nat) (sources : List String) :
    t.plan settings history path position sources =
      let self := Plan.vertex ⟨t, path, some position, none, sources⟩
      match t.kind with
      | .terminate => { self with frontier := [] }
      | .fork [] => self
      | .fork branches => self.andThen fun sources =>
        .beside <| branches.mapIdx fun i tasks =>
          planTasks settings history (path.child position (.fork i)) 0 tasks sources
      | .dynamicFork _ _ => self.andThen fun _ => planForked settings history t.reference path
      | .switch _ s => self.andThen fun sources =>
        .beside <|
          planTasks settings history (path.child position .default) 0 s.otherwise sources ::
          s.cases.map fun c =>
            planTasks settings history (path.child position (.case c.1)) 0 c.2 sources
      | .loop _ body =>
        .attempt (history.latestOfTask t.reference) fun
          | some _ => self.andThen fun _ => planIterations history t t.loopEnd path position
          | none => self.andThen fun sources =>
            (planTasks settings history (path.child position .loopBody) 0 body sources).andThen
              fun sources => .vertex ⟨t.loopEnd, path, some position, none, sources⟩
      | _ => self := by
  rw [Task.plan, Task.fold_eq]
  cases hk : t.kind with
  | fork branches =>
    cases branches with
    | nil => rfl
    | cons branch rest =>
      refine congrArg (Plan.andThen _) (funext fun sources => congrArg Plan.beside ?_)
      exact mapIdx_map (List.map (Task.plan settings history)) (branch :: rest) _
  | switch form s =>
    simp only [Kind.map, Switch.map, List.map_map]
    rfl
  | _ => rfl

/-- The plan of one child that a dynamic fork spawned. -/
def Task.planChild (reference : String) (path : TreePath) (child : String) : Plan :=
  .attempt (history.latestOfTask child) fun
    | some a => ⟨[.draw ⟨a.task, path, none, none, [reference]⟩], [child]⟩
    | none => .halt (.notFound .attempt child)

/-- What the vertex for all children of a dynamic fork says of them. -/
def Aggregate.OfForked (reference : String) (children : List String) (aggregate : Aggregate) :
    Prop :=
  history.latestOfTask reference = .ok none ∧ aggregate = .blank ∨
    ∃ a, history.latestOfTask reference = .ok (some a) ∧
      Aggregate.ofReferences history children = .ok aggregate

/-- The references of what ran in the rounds of a loop. -/
def Task.iterations (t : Task) : List String :=
  history.references.filter fun recorded =>
    t.descendants.any fun u => isIterationOf u.reference recorded

variable {settings history} {reference child : String} {path : TreePath} {position : Nat}

theorem Task.planForked_cases (h : (planForked settings history reference path).Completes) :
    let children := (history.spawned? reference).getD []
    let few := !children.isEmpty && decide (children.length < settings.collapseLimit)
    few = true ∧ planForked settings history reference path =
      .beside (children.map (planChild history reference path)) ∨
    few = false ∧ ∃ aggregate, Aggregate.OfForked history reference children aggregate ∧
      planForked settings history reference path = .vertex
        ⟨.ofRef (dynamicForkChildrenRef reference) (.marker .dynamicForkChildren), path, none,
          some aggregate, [reference]⟩ := by
  revert h
  unfold planForked
  dsimp only
  split
  · next hfew =>
    intro _
    exact Or.inl ⟨hfew, rfl⟩
  · next hmany =>
    intro h
    refine Or.inr ⟨Bool.eq_false_iff.mpr hmany, ?_⟩
    obtain ⟨latest, hlatest, heq⟩ := h.of_attempt
    rw [heq] at h ⊢
    cases latest with
    | none => exact ⟨.blank, Or.inl ⟨hlatest, rfl⟩, rfl⟩
    | some a =>
      obtain ⟨aggregate, haggregate, heq⟩ := h.of_attempt
      exact ⟨aggregate, Or.inr ⟨a, hlatest, haggregate⟩, heq⟩

theorem Task.planChild_cases (h : (planChild history reference path child).Completes) :
    ∃ a, history.latestOfTask child = .ok (some a) ∧ planChild history reference path child =
      ⟨[.draw ⟨a.task, path, none, none, [reference]⟩], [child]⟩ := by
  unfold planChild at h ⊢
  obtain ⟨latest, hlatest, heq⟩ := h.of_attempt
  rw [heq] at h ⊢
  cases latest with
  | none => exact absurd h (Plan.not_completes_halt _)
  | some a => exact ⟨a, hlatest, rfl⟩

theorem Task.planIterations_cases {t bar : Task}
    (h : (planIterations history t bar path position).Completes) :
    ∃ aggregate, Aggregate.ofReferences history (t.iterations history) = .ok aggregate ∧
      planIterations history t bar path position =
        (Plan.vertex ⟨.ofRef (loopChildrenRef t.reference) (.marker .loopChildren), path, none,
          some aggregate, [t.reference]⟩).andThen fun sources =>
          .vertex ⟨bar, path, some position,
            some { Aggregate.blank with status := aggregate.status }, sources⟩ := by
  obtain ⟨aggregate, haggregate, heq⟩ := Plan.Completes.of_attempt h
  exact ⟨aggregate, haggregate, heq⟩

/-- The sequences that are walked beside each other. -/
def Kind.branches : Kind (List Task) → List (Branch × List Task)
  | .fork branches => branches.mapIdx fun i s => (.fork i, s)
  | .switch _ s => (.default, s.otherwise) :: s.cases.map fun c => (.case c.1, c.2)
  | _ => []

/-- The sequences of a kind, each with the branch that it is. -/
def Kind.parts : Kind (List Task) → List (Branch × List Task)
  | .loop _ body => [(.loopBody, body)]
  | k => k.branches

theorem Kind.sequences_eq_parts (k : Kind (List Task)) : k.sequences = k.parts.map (·.2) := by
  cases k with
  | fork branches =>
    dsimp only [parts]
    rw [Kind.branches, map_mapIdx, sequences, eq_comm, List.mapIdx_eq_iff]
    exact fun i => Option.map_id'.symm
  | switch form s => simp [parts, branches, sequences, Switch.sequences]
  | _ => rfl

theorem Kind.parts_eq_branches {k : Kind (List Task)} (h : k.branches ≠ []) :
    k.parts = k.branches := by
  cases k with
  | loop condition body => exact absurd rfl h
  | _ => rfl

theorem Kind.sequences_eq_branches {k : Kind (List Task)} (h : k.branches ≠ []) :
    k.sequences = k.branches.map (·.2) := by
  rw [sequences_eq_parts, parts_eq_branches h]

theorem Kind.mem_sequences_of_branches {k : Kind (List Task)} {branch : Branch × List Task}
    (h : branch ∈ k.branches) : branch.2 ∈ k.sequences := by
  rw [sequences_eq_branches (List.ne_nil_of_mem h)]
  exact List.mem_map_of_mem h

theorem Kind.mem_sequences_of_loop {k : Kind (List Task)} {condition : Option String}
    {body : List Task} (h : k = .loop condition body) : body ∈ k.sequences := by
  rw [h]
  exact List.mem_singleton_self body

/-- Kinds that are drawn as one vertex, with what comes next behind it. -/
def Kind.isSingle : Kind (List Task) → Bool
  | .terminate | .switch _ _ | .dynamicFork _ _ | .loop _ _ => false
  | .fork branches => branches.isEmpty
  | _ => true

/-- The forms of kinds that are planned in different ways. -/
inductive Kind.Form (k : Kind (List Task)) : Prop where
  | single : k.isSingle = true → k.sequences = [] → Form k
  | final : k = .terminate → Form k
  | branches : k.branches ≠ [] → Form k
  | forked {tasksParam inputParam : Option String} : k = .dynamicFork tasksParam inputParam → Form k
  | loop {condition : Option String} {body : List Task} : k = .loop condition body → Form k

theorem Kind.form (k : Kind (List Task)) : k.Form := by
  cases k with
  | fork branches =>
    cases branches with
    | nil => exact .single rfl rfl
    | cons branch rest => exact .branches (by simp [Kind.branches])
  | switch form s => exact .branches (List.cons_ne_nil _ _)
  | dynamicFork tasksParam inputParam => exact .forked rfl
  | loop condition body => exact .loop rfl
  | terminate => exact .final rfl
  | worker | join | exclusiveJoin | subWorkflow | event | loopEnd | marker => exact .single rfl rfl

theorem Kind.type_eq_forkJoinDynamic {k : Kind (List Task)} :
    k.type = .forkJoinDynamic ↔
      ∃ tasksParam inputParam, k = .dynamicFork tasksParam inputParam := by
  constructor
  · cases k with
    | dynamicFork tasksParam inputParam => exact fun _ => ⟨tasksParam, inputParam, rfl⟩
    | worker w => cases w <;> exact nofun
    | marker m => cases m <;> exact nofun
    | switch form s => cases form <;> exact nofun
    | _ => exact nofun
  · rintro ⟨tasksParam, inputParam, rfl⟩
    rfl

section

variable {t : Task} {sources : List String}

theorem Task.plan_of_single (h : t.kind.isSingle = true) :
    t.plan settings history path position sources =
      .vertex ⟨t, path, some position, none, sources⟩ := by
  rw [plan_eq]
  revert h
  cases t.kind with
  | fork branches =>
    intro h
    rw [List.isEmpty_iff.mp h]
  | terminate | switch | dynamicFork | loop => exact fun h => absurd h Bool.false_ne_true
  | worker | join | exclusiveJoin | subWorkflow | event | loopEnd | marker => exact fun _ => rfl

theorem Task.plan_of_branches (h : t.kind.branches ≠ []) :
    t.plan settings history path position sources =
      (Plan.vertex ⟨t, path, some position, none, sources⟩).andThen fun sources =>
        .beside <| t.kind.branches.map fun branch =>
          planTasks settings history (path.child position branch.1) 0 branch.2 sources := by
  rw [plan_eq]
  revert h
  cases t.kind with
  | fork branches =>
    intro h
    cases branches with
    | nil => exact absurd rfl h
    | cons branch rest => simp only [Kind.branches, map_mapIdx]
  | switch form s =>
    intro _
    simp only [Kind.branches, List.map_cons, List.map_map]
    rfl
  | _ => exact fun h => absurd rfl h

theorem Task.plan_of_dynamicFork (h : t.type = .forkJoinDynamic) :
    t.plan settings history path position sources =
      (Plan.vertex ⟨t, path, some position, none, sources⟩).andThen fun _ =>
        planForked settings history t.reference path := by
  obtain ⟨tasksParam, inputParam, hk⟩ := Kind.type_eq_forkJoinDynamic.mp h
  rw [plan_eq, hk]

end

/-- The ways in which the plan of a task is made, if it runs through. -/
inductive Task.Planned (settings : Settings) (history : History) (t : Task) (path : TreePath)
    (position : Nat) (sources : List String) : Plan → Prop where
  | single : t.kind.isSingle = true → t.kind.sequences = [] →
      Planned settings history t path position sources
        (.vertex ⟨t, path, some position, none, sources⟩)
  | final : t.kind = .terminate →
      Planned settings history t path position sources
        { Plan.vertex ⟨t, path, some position, none, sources⟩ with frontier := [] }
  | branches : t.kind.branches ≠ [] →
      Planned settings history t path position sources
        ((Plan.vertex ⟨t, path, some position, none, sources⟩).andThen fun sources =>
          .beside <| t.kind.branches.map fun branch =>
            planTasks settings history (path.child position branch.1) 0 branch.2 sources)
  | forked {tasksParam inputParam : Option String} : t.kind = .dynamicFork tasksParam inputParam →
      Planned settings history t path position sources
        ((Plan.vertex ⟨t, path, some position, none, sources⟩).andThen fun _ =>
          planForked settings history t.reference path)
  | body {condition : Option String} {body : List Task} : t.kind = .loop condition body →
      history.latestOfTask t.reference = .ok none →
      Planned settings history t path position sources
        ((Plan.vertex ⟨t, path, some position, none, sources⟩).andThen fun sources =>
          (planTasks settings history (path.child position .loopBody) 0 body sources).andThen
            fun sources => .vertex ⟨t.loopEnd, path, some position, none, sources⟩)
  | iterations {condition : Option String} {body : List Task} {a : Attempt} :
      t.kind = .loop condition body → history.latestOfTask t.reference = .ok (some a) →
      Planned settings history t path position sources
        ((Plan.vertex ⟨t, path, some position, none, sources⟩).andThen fun _ =>
          planIterations history t t.loopEnd path position)

theorem Task.planned (t : Task) {sources : List String}
    (h : (t.plan settings history path position sources).Completes) :
    t.Planned settings history path position sources
      (t.plan settings history path position sources) := by
  cases t.kind.form with
  | single hsingle hnone =>
    rw [plan_of_single hsingle]
    exact .single hsingle hnone
  | branches hne =>
    rw [plan_of_branches hne]
    exact .branches hne
  | final hk =>
    rw [plan_eq, hk]
    exact .final hk
  | forked hk =>
    rw [plan_eq, hk]
    exact .forked hk
  | loop hk =>
    rw [plan_eq, hk] at h ⊢
    obtain ⟨latest, hlatest, heq⟩ := h.of_attempt
    dsimp only
    rw [heq]
    cases latest with
    | none => exact .body hk hlatest
    | some a => exact .iterations hk hlatest

variable (settings history)

/-- The plan of a diagram, between its two bubbles. -/
theorem Plan.ofTasks_eq (tasks : List Task) :
    Plan.ofTasks settings history tasks =
      (Plan.vertex ⟨.plain "start" startBubble (.marker .terminal), .root, none, none, []⟩).andThen
        fun sources => (planTasks settings history .root 0 tasks sources).andThen fun sources =>
          .vertex ⟨.plain "final" finalBubble (.marker .terminal), .root, none, none, sources⟩ :=
  rfl

end

end Flowchart

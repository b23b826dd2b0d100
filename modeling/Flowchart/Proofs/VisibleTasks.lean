import Flowchart.Proofs.DrawnReferences
import Flowchart.Proofs.Walks

/-!
# The tasks that are drawn

A walk over the tree comes to each task, but it does not enter the body of a loop that has run. What
is planned of a task that it comes to is part of the plan of the diagram, and so is what is drawn
for that task alone: the bar and the vertex for the iterations of a loop, and the children of a
dynamic fork or the vertex for all of them.
-/

namespace Flowchart

section

variable (history : History)

/-- A task and the tasks inside it that a walk comes to. It does not enter the body of a loop that
has run. -/
def Task.visible : Task → List Task :=
  fold fun t k => t :: if t.isRunLoop history then [] else k.sequences.flatten.flatten

def visibleTasks (tasks : List Task) : List Task := tasks.flatMap (Task.visible history)

theorem Task.visible_eq (t : Task) : t.visible history =
    t :: if t.isRunLoop history then [] else t.kind.sequences.flatMap (visibleTasks history) := by
  rw [visible, fold_eq, Kind.sequences_map, List.flatten_flatten, List.map_map]
  rfl

variable {history}

theorem Task.mem_visible_self (t : Task) : t ∈ t.visible history := by
  rw [visible_eq]
  exact List.mem_cons_self

theorem Task.mem_visible_of_sequence {t u : Task} {s : List Task}
    (hopen : t.isRunLoop history = false) (hs : s ∈ t.kind.sequences)
    (hu : u ∈ visibleTasks history s) : u ∈ t.visible history := by
  rw [visible_eq, hopen]
  exact List.mem_cons_of_mem t (List.mem_flatMap_of_mem hs hu)

/-- A walk that comes to a task comes to all that a walk from there comes to. -/
theorem Task.mem_visible_trans {t u v : Task} (hu : u ∈ t.visible history)
    (hv : v ∈ u.visible history) : v ∈ t.visible history := by
  induction t using Task.induction with
  | step t ih =>
    rw [visible_eq, List.mem_cons] at hu
    rcases hu with rfl | hu
    · exact hv
    cases hopen : t.isRunLoop history with
    | true =>
      rw [hopen] at hu
      cases hu
    | false =>
      rw [hopen] at hu
      obtain ⟨s, hs, hu⟩ := List.mem_flatMap.mp hu
      obtain ⟨w, hw, hu⟩ := List.mem_flatMap.mp hu
      exact mem_visible_of_sequence hopen hs (List.mem_flatMap_of_mem hw (ih s hs w hw hu))

theorem mem_visibleTasks_of_visible {tasks : List Task} {u v : Task}
    (hu : u ∈ visibleTasks history tasks) (hv : v ∈ u.visible history) :
    v ∈ visibleTasks history tasks := by
  obtain ⟨t, ht, hu⟩ := List.mem_flatMap.mp hu
  exact List.mem_flatMap_of_mem ht (Task.mem_visible_trans hu hv)

theorem Task.mem_family_of_visible {t u : Task} (hu : u ∈ t.visible history) : u ∈ t.family := by
  induction t using Task.induction with
  | step t ih =>
    rw [visible_eq, List.mem_cons] at hu
    rcases hu with rfl | hu
    · exact mem_family.mpr (Or.inl rfl)
    cases hopen : t.isRunLoop history with
    | true =>
      rw [hopen] at hu
      cases hu
    | false =>
      rw [hopen] at hu
      obtain ⟨s, hs, hu⟩ := List.mem_flatMap.mp hu
      obtain ⟨w, hw, hu⟩ := List.mem_flatMap.mp hu
      exact mem_family.mpr (Or.inr ⟨s, hs, mem_listing.mpr ⟨w, hw, ih s hs w hw hu⟩⟩)

theorem mem_listing_of_visible {tasks : List Task} {u : Task}
    (hu : u ∈ visibleTasks history tasks) : u ∈ listing tasks := by
  obtain ⟨t, ht, hu⟩ := List.mem_flatMap.mp hu
  exact mem_listing.mpr ⟨t, ht, Task.mem_family_of_visible hu⟩

end

section

variable {settings : Settings} {history : History} {tasks : List Task}

theorem Task.plan_of_visible (t : Task) : ∀ path position sources,
    (t.plan settings history path position sources).Completes → ∀ u ∈ t.visible history,
      ∃ path' position' sources', (u.plan settings history path' position' sources').Completes ∧
        ∀ q ∈ (u.plan settings history path' position' sources').placements,
          q ∈ (t.plan settings history path position sources).placements := by
  induction t using Task.induction with
  | step t ih =>
    intro path position sources hcompletes u hu
    rw [visible_eq, List.mem_cons] at hu
    rcases hu with rfl | hu
    · exact ⟨path, position, sources, hcompletes, fun q hq => hq⟩
    cases hopen : t.isRunLoop history with
    | true =>
      rw [hopen] at hu
      cases hu
    | false =>
      rw [hopen] at hu
      obtain ⟨s, hs, hu⟩ := List.mem_flatMap.mp hu
      obtain ⟨v, hv, hvisible⟩ := List.mem_flatMap.mp hu
      obtain ⟨⟨branch, _⟩, hpart, rfl⟩ := List.mem_map.mp (t.kind.sequences_eq_parts ▸ hs)
      obtain ⟨hinner, hplacements⟩ := t.plan_sequence hcompletes hpart hopen
      obtain ⟨i, hi⟩ := List.getElem?_of_mem hv
      obtain ⟨sources', hplan, hmem⟩ := planTasks_plan hi hinner
      obtain ⟨path', position', sources'', hcompletes', hmem'⟩ :=
        ih _ hs v hv _ _ _ hplan u hvisible
      exact ⟨path', position', sources'', hcompletes', fun q hq =>
        hplacements q (hmem q (hmem' q hq))⟩

/-- What is planned of a task that a walk comes to is part of the whole plan. -/
theorem Plan.ofTasks_visible (hcompletes : (Plan.ofTasks settings history tasks).Completes)
    {u : Task} (hu : u ∈ visibleTasks history tasks) :
    ∃ path position sources, (u.plan settings history path position sources).Completes ∧
      ∀ q ∈ (u.plan settings history path position sources).placements,
        q ∈ (Plan.ofTasks settings history tasks).placements := by
  obtain ⟨t, ht, hu⟩ := List.mem_flatMap.mp hu
  rw [Plan.ofTasks_eq] at hcompletes ⊢
  rw [completes_andThen, completes_andThen] at hcompletes
  rw [placements_andThen, placements_andThen]
  obtain ⟨i, hi⟩ := List.getElem?_of_mem ht
  obtain ⟨sources, hplan, hmem⟩ := planTasks_plan hi hcompletes.2.1
  obtain ⟨path, position, sources', hcompletes', hmem'⟩ := t.plan_of_visible _ _ _ hplan u hu
  exact ⟨path, position, sources', hcompletes', fun q hq =>
    List.mem_append_right _ (List.mem_append_left _ (hmem q (hmem' q hq)))⟩

/-- What is drawn under the reference of a task that a walk comes to is that task. -/
theorem Plan.task_of_visible (hcompletes : (Plan.ofTasks settings history tasks).Completes)
    (hnodup : (Plan.ofTasks settings history tasks).references.Nodup) {u : Task}
    (hu : u ∈ visibleTasks history tasks) {p : Placement}
    (hp : p ∈ (Plan.ofTasks settings history tasks).placements)
    (href : p.reference = u.reference) : p.task = u := by
  obtain ⟨path, position, sources, hplan, hmem⟩ := Plan.ofTasks_visible hcompletes hu
  have hself := hmem _ (u.plan_self hplan)
  rw [List.inj_on_of_nodup_map hnodup hp hself href]

/-- What closes a loop has its place in the tree. -/
theorem Task.plan_loopEnd {t : Task} {condition : Option String} {body : List Task}
    {path : TreePath} {position : Nat} {sources : List String} (hk : t.kind = .loop condition body)
    (hcompletes : (t.plan settings history path position sources).Completes) :
    ∃ q ∈ (t.plan settings history path position sources).placements,
      q.reference = loopEndRef t.reference ∧ q.position ≠ none := by
  rw [plan_eq, hk] at hcompletes ⊢
  dsimp only at hcompletes ⊢
  obtain ⟨latest, hlatest, heq⟩ := hcompletes.of_attempt
  rw [heq] at hcompletes ⊢
  cases latest with
  | none =>
    dsimp only
    rw [Plan.placements_andThen, Plan.placements_andThen]
    exact ⟨_, List.mem_append_right _ (List.mem_append_right _ (List.mem_singleton_self _)), rfl,
      nofun⟩
  | some a =>
    dsimp only at hcompletes ⊢
    rw [Plan.completes_andThen] at hcompletes
    obtain ⟨aggregate, -, heq⟩ := planIterations_cases hcompletes.2
    rw [Plan.placements_andThen, heq, Plan.placements_andThen]
    exact ⟨_, List.mem_append_right _ (List.mem_append_right _ (List.mem_singleton_self _)), rfl,
      nofun⟩

/-- What stands for the iterations of a loop has no place. -/
theorem Task.plan_loopChildren {t : Task} {path : TreePath} {position : Nat}
    {sources : List String} (hrun : t.isRunLoop history = true)
    (hcompletes : (t.plan settings history path position sources).Completes) :
    ∃ q ∈ (t.plan settings history path position sources).placements,
      q.reference = loopChildrenRef t.reference ∧ q.aggregate ≠ none := by
  obtain ⟨⟨condition, body, hk⟩, hlatest⟩ := isRunLoop_iff.mp hrun
  rw [plan_eq, hk] at hcompletes ⊢
  dsimp only at hcompletes ⊢
  obtain ⟨latest, hok, heq⟩ := hcompletes.of_attempt
  rw [heq] at hcompletes ⊢
  cases latest with
  | none =>
    rw [History.latest?_eq_of_latestOfTask hok] at hlatest
    cases hlatest
  | some a =>
    dsimp only at hcompletes ⊢
    rw [Plan.completes_andThen] at hcompletes
    obtain ⟨aggregate, -, heq⟩ := planIterations_cases hcompletes.2
    rw [Plan.placements_andThen, heq, Plan.placements_andThen]
    exact ⟨_, List.mem_append_right _ (List.mem_append_left _ (List.mem_singleton_self _)), rfl,
      nofun⟩

end

/-- The children of a dynamic fork. -/
abbrev History.spawnedBy (history : History) (reference : String) : List String :=
  (history.spawned? reference).getD []

/-- Whether a dynamic fork is drawn with a vertex for each of its children. -/
def Settings.expands (settings : Settings) (children : List String) : Bool :=
  !children.isEmpty && decide (children.length < settings.collapseLimit)

theorem Settings.expands_iff {settings : Settings} {children : List String} :
    settings.expands children = true ↔
      children ≠ [] ∧ children.length < settings.collapseLimit := by
  simp [expands]

theorem Settings.expands_mono {low high : Settings} {children : List String}
    (hle : low.collapseLimit ≤ high.collapseLimit) (h : low.expands children = true) :
    high.expands children = true := by
  obtain ⟨hne, hfew⟩ := expands_iff.mp h
  exact expands_iff.mpr ⟨hne, hfew.trans_le hle⟩

/-- Whether a vertex stands for no task of its own. -/
def Kind.isMarker : Kind (List Task) → Bool
  | .marker _ => true
  | _ => false

theorem Attempt.isMarker_kind (a : Attempt) : a.kind.isMarker = false := by
  unfold kind
  split <;> try rfl
  split <;> rfl

/-- A vertex for a child of the fork `reference`. -/
structure Placement.SpawnedBy (reference : String) (q : Placement) : Prop where
  sources : q.sources = [reference]
  position : q.position = none
  marker : q.task.kind.isMarker = false
  aggregate : q.aggregate = none

/-- The vertex for all children of the fork `f`. -/
structure Placement.IsStackOf (f : Task) (q : Placement) : Prop where
  task : q.task = Task.forkedStack f.reference
  aggregate : q.aggregate ≠ none

theorem Placement.IsStackOf.reference_eq {f : Task} {q : Placement} (h : q.IsStackOf f) :
    q.reference = dynamicForkChildrenRef f.reference := congrArg Task.reference h.task

section

variable {settings : Settings} {history : History} {reference : String} {path : TreePath}

theorem Task.planForked_of_few (hfew : settings.expands (history.spawnedBy reference) = true) :
    planForked settings history reference path =
      .beside ((history.spawnedBy reference).map (planChild history reference path)) := by
  unfold planForked
  unfold Settings.expands at hfew
  dsimp only
  rw [if_pos hfew]
  rfl

theorem Task.planForked_of_many {aggregate : Aggregate}
    (hmany : settings.expands (history.spawnedBy reference) = false)
    (hof : Aggregate.OfForked history reference (history.spawnedBy reference) aggregate) :
    planForked settings history reference path =
      .vertex ⟨forkedStack reference, path, none, some aggregate, [reference]⟩ := by
  unfold planForked
  unfold Settings.expands at hmany
  dsimp only
  rw [if_neg (Bool.eq_false_iff.mp hmany)]
  rcases hof with ⟨hlatest, rfl⟩ | ⟨a, hlatest, haggregate⟩
  · rw [hlatest]
    rfl
  · rw [hlatest]
    dsimp only [Plan.attempt]
    rw [haggregate]
    rfl

theorem Task.planForked_congr {settings' : Settings}
    (h : settings.expands (history.spawnedBy reference) =
      settings'.expands (history.spawnedBy reference)) :
    planForked settings history reference path = planForked settings' history reference path := by
  unfold planForked
  unfold Settings.expands at h
  dsimp only
  rw [h]

/-- The children that a dynamic fork does not draw by themselves are drawn as one. -/
theorem Task.plan_forkedStack {t : Task} {position : Nat}
    {sources : List String} (htype : t.type = .forkJoinDynamic)
    (hmany : settings.expands (history.spawnedBy t.reference) = false)
    (hcompletes : (t.plan settings history path position sources).Completes) :
    ∃ aggregate, Aggregate.OfForked history t.reference (history.spawnedBy t.reference) aggregate ∧
      ⟨forkedStack t.reference, path, none, some aggregate, [t.reference]⟩ ∈
        (t.plan settings history path position sources).placements := by
  rw [plan_of_dynamicFork htype] at hcompletes ⊢
  rw [Plan.completes_andThen] at hcompletes
  rcases planForked_cases hcompletes.2 with ⟨hfew, -⟩ | ⟨-, aggregate, hof, heq⟩
  · exact absurd (hfew.symm.trans hmany) nofun
  · rw [Plan.placements_andThen, heq]
    exact ⟨aggregate, hof, List.mem_append_right _ (List.mem_singleton_self _)⟩

/-- What is drawn for all children of a dynamic fork that a walk comes to. -/
theorem Plan.exists_forkedStack {tasks : List Task} {f : Task}
    (hcompletes : (Plan.ofTasks settings history tasks).Completes)
    (hf : f ∈ visibleTasks history tasks) (htype : f.type = .forkJoinDynamic)
    (hmany : settings.expands (history.spawnedBy f.reference) = false) :
    ∃ path aggregate,
      Aggregate.OfForked history f.reference (history.spawnedBy f.reference) aggregate ∧
      ⟨Task.forkedStack f.reference, path, none, some aggregate, [f.reference]⟩ ∈
        (Plan.ofTasks settings history tasks).shown := by
  obtain ⟨path, position, sources, hplan, hmem⟩ := Plan.ofTasks_visible hcompletes hf
  obtain ⟨aggregate, hof, hq⟩ := Task.plan_forkedStack htype hmany hplan
  refine ⟨path, aggregate, hof, List.mem_filter.mpr ⟨hmem _ hq, decide_eq_true (Or.inr ?_)⟩⟩
  exact List.cons_ne_nil _ _

/-- A child that is drawn by itself comes after its fork alone. -/
theorem Task.plan_spawned {t : Task} {position : Nat} {sources : List String} {child : String}
    (hfiled : history.Filed) (htype : t.type = .forkJoinDynamic)
    (hfew : (history.spawnedBy t.reference).length < settings.collapseLimit)
    (hchild : child ∈ history.spawnedBy t.reference)
    (hcompletes : (t.plan settings history path position sources).Completes) :
    ∃ q ∈ (t.plan settings history path position sources).placements, q.reference = child ∧
      q.SpawnedBy t.reference := by
  have hexpands : settings.expands (history.spawnedBy t.reference) = true :=
    Settings.expands_iff.mpr ⟨List.ne_nil_of_mem hchild, hfew⟩
  rw [plan_of_dynamicFork htype, planForked_of_few hexpands] at hcompletes ⊢
  rw [Plan.completes_andThen, Plan.completes_beside] at hcompletes
  obtain ⟨a, ha, heq⟩ := planChild_cases (hcompletes.2 _ (List.mem_map_of_mem hchild))
  refine ⟨⟨a.task, path, none, none, [t.reference]⟩, ?_, hfiled.reference_eq ha, rfl, rfl,
    a.isMarker_kind, rfl⟩
  rw [Plan.placements_andThen, Plan.placements_beside]
  refine List.mem_append_right _ (List.mem_flatMap_of_mem (List.mem_map_of_mem hchild) ?_)
  rw [heq]
  exact List.mem_singleton_self _

end

end Flowchart

import Flowchart.Proofs.DrawnReferences
import Mathlib.Data.List.Pairwise
import Mathlib.Data.List.Perm.Basic

/-!
# Walks over a tree

What is drawn of a definition is what one meets on a walk over its tree: each task before those in
its sequences, and behind these whatever is generated for it. Apart from its generated tasks, a walk
is the listing of the tree.
-/

namespace Flowchart

theorem loopEndRef_injective : Function.Injective loopEndRef :=
  fun _ _ h => (String.append_left_inj "-END").mp h

theorem dynamicForkChildrenRef_injective : Function.Injective dynamicForkChildrenRef :=
  fun _ _ h => (String.append_left_inj "_DF_CHILDREN_PLACEHOLDER").mp h

/-- The last letters tell the names of generated vertices apart. -/
theorem getLast?_loopEndRef (r : String) : (loopEndRef r).toList.getLast? = some 'D' := by
  rw [loopEndRef, String.toList_append, List.getLast?_append_of_ne_nil _ (by decide)]
  rfl

theorem getLast?_dynamicForkChildrenRef (r : String) :
    (dynamicForkChildrenRef r).toList.getLast? = some 'R' := by
  rw [dynamicForkChildrenRef, String.toList_append, List.getLast?_append_of_ne_nil _ (by decide)]
  rfl

theorem loopEndRef_ne_dynamicForkChildrenRef {r r' : String} :
    loopEndRef r ≠ dynamicForkChildrenRef r' := by
  intro h
  have hlast := congrArg (fun name => name.toList.getLast?) h
  simp only [getLast?_loopEndRef, getLast?_dynamicForkChildrenRef] at hlast
  exact absurd hlast (by decide)

namespace Task

def start : Task := .plain "start" startBubble (.marker .terminal)

def final : Task := .plain "final" finalBubble (.marker .terminal)

def forkedStack (reference : String) : Task :=
  .ofRef (dynamicForkChildrenRef reference) (.marker .dynamicForkChildren)

/-- What is drawn for a task that has not run, behind what is in it. -/
def attendants (t : Task) : List Task :=
  match t.type with
  | .forkJoinDynamic => [forkedStack t.reference]
  | .doWhile => [t.loopEnd]
  | _ => []

/-- What is drawn of a task that has not run, in order. -/
def walk : Task → List Task := fold fun t k => t :: k.sequences.flatten.flatten ++ t.attendants

theorem attendants_of_type {t : Task} (hloop : t.type ≠ .doWhile)
    (hfork : t.type ≠ .forkJoinDynamic) : t.attendants = [] := by
  unfold attendants
  split
  · exact absurd ‹_› hfork
  · exact absurd ‹_› hloop
  · rfl

theorem attendants_of_fork {t : Task} {tasksParam inputParam : Option String}
    (hk : t.kind = .dynamicFork tasksParam inputParam) :
    t.attendants = [forkedStack t.reference] := by
  rw [attendants, type, hk]
  rfl

theorem attendants_of_loop {t : Task} {condition : Option String} {body : List Task}
    (hk : t.kind = .loop condition body) : t.attendants = [t.loopEnd] := by
  rw [attendants, type, hk]
  rfl

end Task

def walk (tasks : List Task) : List Task := tasks.flatMap Task.walk

/-- The tasks that a diagram of a definition adds to those of its tree. -/
def generated (tasks : List Task) : List Task :=
  Task.start :: Task.final :: (listing tasks).flatMap Task.attendants

section

variable {tasks : List Task}

theorem walk_flatten (sequences : List (List Task)) :
    walk sequences.flatten = sequences.flatMap walk := by
  rw [walk, ← List.flatMap_id, List.flatMap_assoc]
  rfl

theorem listing_flatten (sequences : List (List Task)) :
    listing sequences.flatten = sequences.flatMap listing := by
  rw [listing, ← List.flatMap_id, List.flatMap_assoc]
  rfl

theorem Task.walk_eq (t : Task) :
    t.walk = t :: Flowchart.walk t.kind.sequences.flatten ++ t.attendants := by
  rw [walk_flatten, walk, fold_eq, Kind.sequences_map, List.flatten_flatten, List.map_map]
  rfl

theorem Task.family_eq_listing (t : Task) :
    t.family = t :: listing t.kind.sequences.flatten := by
  rw [listing_flatten]
  exact t.family_eq

theorem walk_perm_of_forall
    (h : ∀ t ∈ tasks, t.walk.Perm (t.family ++ t.family.flatMap Task.attendants)) :
    (walk tasks).Perm (listing tasks ++ (listing tasks).flatMap Task.attendants) := by
  calc walk tasks
    _ |>.Perm (tasks.flatMap fun t => t.family ++ t.family.flatMap Task.attendants) :=
      List.Perm.flatMap_left tasks h
    _ |>.Perm (listing tasks ++ tasks.flatMap fun t => t.family.flatMap Task.attendants) :=
      (List.flatMap_append_perm tasks _ _).symm
    _ = listing tasks ++ (listing tasks).flatMap Task.attendants := by
      rw [listing, List.flatMap_assoc]

/-- The order apart, a walk meets the tasks of the tree and what is generated for them. -/
theorem Task.walk_perm (t : Task) : t.walk.Perm (t.family ++ t.family.flatMap attendants) := by
  induction t using Task.induction with
  | step t ih =>
    have hinner : (Flowchart.walk t.kind.sequences.flatten).Perm
        (listing t.kind.sequences.flatten ++
          (listing t.kind.sequences.flatten).flatMap attendants) := by
      refine walk_perm_of_forall fun u hu => ?_
      obtain ⟨s, hs, hu⟩ := List.mem_flatten.mp hu
      exact ih s hs u hu
    rw [walk_eq, family_eq_listing, List.flatMap_cons, List.cons_append, List.cons_append]
    refine List.Perm.cons t ((hinner.append_right _).trans ?_)
    rw [List.append_assoc]
    exact List.perm_append_comm.append_left _

theorem walk_perm (tasks : List Task) :
    (walk tasks).Perm (listing tasks ++ (listing tasks).flatMap Task.attendants) :=
  walk_perm_of_forall fun t _ => t.walk_perm

/-- Between the bubbles there is the tree, and all the rest is generated. -/
theorem framed_walk_perm (tasks : List Task) :
    (Task.start :: walk tasks ++ [Task.final]).Perm (listing tasks ++ generated tasks) := by
  calc Task.start :: walk tasks ++ [Task.final]
    _ |>.Perm (Task.start :: ([Task.final] ++ walk tasks)) := List.perm_append_comm.cons Task.start
    _ = [Task.start, Task.final] ++ walk tasks := rfl
    _ |>.Perm ([Task.start, Task.final] ++
        (listing tasks ++ (listing tasks).flatMap Task.attendants)) :=
      (walk_perm tasks).append_left _
    _ |>.Perm (listing tasks ++ generated tasks) := by
      rw [← List.append_assoc]
      refine (List.perm_append_comm.append_right _).trans ?_
      rw [List.append_assoc]
      exact List.Perm.refl _

theorem filter_walk_of_forall {p : Task → Bool}
    (htasks : ∀ t ∈ tasks, (∀ u ∈ t.family, p u = true ∧ ∀ v ∈ u.attendants, p v = false) →
      t.walk.filter p = t.family)
    (h : ∀ u ∈ listing tasks, p u = true ∧ ∀ v ∈ u.attendants, p v = false) :
    (walk tasks).filter p = listing tasks := by
  rw [walk, List.filter_flatMap, listing]
  exact List.flatMap_congr fun t ht => htasks t ht fun u hu => h u (List.mem_flatMap_of_mem ht hu)

/-- Apart from what is generated, a walk is the listing, in the same order. -/
theorem Task.filter_walk {p : Task → Bool} (t : Task) :
    (∀ u ∈ t.family, p u = true ∧ ∀ v ∈ u.attendants, p v = false) →
      t.walk.filter p = t.family := by
  induction t using Task.induction with
  | step t ih =>
    intro h
    rw [family_eq_listing, List.forall_mem_cons] at h
    obtain ⟨⟨hself, hattendants⟩, hinner⟩ := h
    have hbelow := filter_walk_of_forall (fun u hu => by
      obtain ⟨s, hs, hu⟩ := List.mem_flatten.mp hu
      exact ih s hs u hu) hinner
    have hbehind : t.attendants.filter p = [] :=
      List.filter_eq_nil_iff.mpr fun v hv => Bool.eq_false_iff.mp (hattendants v hv)
    rw [walk_eq, family_eq_listing, List.filter_append, List.filter_cons_of_pos hself, hbelow,
      hbehind, List.append_nil]

theorem filter_walk {p : Task → Bool}
    (h : ∀ u ∈ listing tasks, p u = true ∧ ∀ v ∈ u.attendants, p v = false) :
    (walk tasks).filter p = listing tasks :=
  filter_walk_of_forall (fun t _ => t.filter_walk) h

end

theorem eq_of_mem_flatMap {α β : Type} {as : List α} {f : α → List β} {a a' : α} {b : β}
    (hnodup : (as.flatMap f).Nodup) (ha : a ∈ as) (ha' : a' ∈ as) (hb : b ∈ f a)
    (hb' : b ∈ f a') : a = a' := by
  by_contra hne
  rw [List.nodup_flatMap] at hnodup
  have hsymm : Std.Symm (Function.onFun List.Disjoint f) := ⟨fun _ _ h b hb hb' => h hb' hb⟩
  exact hnodup.2.forall ha ha' hne hb hb'

/-- The names that are drawn of the task itself. -/
def Task.ownRefs (t : Task) : List String := (t :: t.attendants).map (·.reference)

/-- All that is drawn of a definition, task by task. -/
theorem listing_generated_perm (tasks : List Task) : (listing tasks ++ generated tasks).Perm
    ([Task.start, Task.final] ++ (listing tasks).flatMap fun t => t :: t.attendants) := by
  calc listing tasks ++ generated tasks
    _ |>.Perm ([Task.start, Task.final] ++
        (listing tasks ++ (listing tasks).flatMap Task.attendants)) :=
      List.perm_append_comm_assoc (listing tasks) [Task.start, Task.final] _
    _ = [Task.start, Task.final] ++ ((listing tasks).flatMap (fun t => [t]) ++
        (listing tasks).flatMap Task.attendants) := by rw [List.flatMap_singleton']
    _ |>.Perm ([Task.start, Task.final] ++ (listing tasks).flatMap fun t => t :: t.attendants) :=
      (List.flatMap_append_perm _ _ _).append_left _

/-- A placement that says nothing of other attempts than its own. -/
def Placement.Silent (p : Placement) : Prop := p.aggregate = none ∨ p.aggregate = some .blank

namespace Plan

/-- The plan runs through and draws these tasks, and no other attempts are spoken of. -/
structure Draws (p : Plan) (tasks : List Task) : Prop where
  completes : p.Completes
  tasks : p.placements.map (·.task) = tasks
  silent : ∀ q ∈ p.placements, q.Silent

variable {p : Plan} {next : List String → Plan} {ts us : List Task}

theorem draws_nothing (sources : List String) : (Plan.mk [] sources).Draws [] :=
  ⟨completes_nothing sources, rfl, fun _ hq => absurd hq List.not_mem_nil⟩

theorem draws_vertex {placement : Placement} (h : placement.Silent) :
    (vertex placement).Draws [placement.task] :=
  ⟨completes_vertex, rfl, fun _ hq => List.mem_singleton.mp hq ▸ h⟩

theorem Draws.andThen (hp : p.Draws ts) (hnext : (next p.frontier).Draws us) :
    (p.andThen next).Draws (ts ++ us) where
  completes := completes_andThen.mpr ⟨hp.completes, hnext.completes⟩
  tasks := by rw [placements_andThen, List.map_append, hp.tasks, hnext.tasks]
  silent := by
    intro q hq
    rw [placements_andThen, List.mem_append] at hq
    exact hq.elim (hp.silent q) (hnext.silent q)

theorem draws_beside {α : Type} {as : List α} {f : α → Plan} {g : α → List Task}
    (h : ∀ a ∈ as, (f a).Draws (g a)) : (beside (as.map f)).Draws (as.flatMap g) where
  completes := by
    rw [completes_beside, List.forall_mem_map]
    exact fun a ha => (h a ha).completes
  tasks := by
    rw [placements_beside, List.flatMap_map, List.map_flatMap]
    exact List.flatMap_congr fun a ha => (h a ha).tasks
  silent := by
    intro q hq
    rw [placements_beside, List.flatMap_map] at hq
    obtain ⟨a, ha, hq⟩ := List.mem_flatMap.mp hq
    exact (h a ha).silent q hq

end Plan

section

variable {settings : Settings} {tasks : List Task}

theorem planTasks_draws_walk {path : TreePath} {position : Nat} {sources : List String}
    (htasks : ∀ t ∈ tasks, ∀ path position sources,
      (t.plan settings .empty path position sources).Draws t.walk) :
    (planTasks settings .empty path position tasks sources).Draws (walk tasks) := by
  induction tasks generalizing position sources with
  | nil => exact Plan.draws_nothing sources
  | cons t rest ih =>
    obtain ⟨ht, hrest⟩ := List.forall_mem_cons.mp htasks
    exact (ht path position sources).andThen (ih hrest)

/-- A loop that has not run is drawn with its body and its bar. -/
theorem Task.plan_of_idle_loop {t : Task} {path : TreePath} {position : Nat}
    {sources : List String} {condition : Option String} {body : List Task}
    (hk : t.kind = .loop condition body) : t.plan settings .empty path position sources =
      (Plan.vertex ⟨t, path, some position, none, sources⟩).andThen fun sources =>
        (planTasks settings .empty (path.child position .loopBody) 0 body sources).andThen
          fun sources => .vertex ⟨t.loopEnd, path, some position, none, sources⟩ := by
  rw [plan_eq, hk]
  rfl

/-- A dynamic fork that has not run is drawn with one vertex for all of its children. -/
theorem Task.plan_of_idle_fork {t : Task} {path : TreePath} {position : Nat}
    {sources : List String} {tasksParam inputParam : Option String}
    (hk : t.kind = .dynamicFork tasksParam inputParam) :
    t.plan settings .empty path position sources =
      (Plan.vertex ⟨t, path, some position, none, sources⟩).andThen fun _ =>
        .vertex ⟨forkedStack t.reference, path, none, some .blank, [t.reference]⟩ := by
  rw [plan_eq, hk]
  rfl

/-- A task that has not run is drawn by a walk over it. -/
theorem Task.plan_draws_walk (t : Task) : ∀ path position sources,
    (t.plan settings .empty path position sources).Draws t.walk := by
  induction t using Task.induction with
  | step t ih =>
    intro path position sources
    have hself : (Plan.vertex ⟨t, path, some position, none, sources⟩).Draws [t] :=
      Plan.draws_vertex (Or.inl rfl)
    have hsequence : ∀ s ∈ t.kind.sequences, ∀ path sources,
        (planTasks settings .empty path 0 s sources).Draws (Flowchart.walk s) :=
      fun s hs path sources => planTasks_draws_walk (ih s hs)
    rw [walk_eq, walk_flatten]
    cases t.kind.form with
    | single hsingle hnone =>
      obtain ⟨hloop, hfork⟩ := Kind.type_of_isSingle hsingle
      rw [plan_of_single hsingle, hnone, attendants_of_type hloop hfork]
      exact hself
    | final hk =>
      have htype : t.type = .terminate := by rw [type, hk, Kind.type]
      rw [plan_eq, attendants, htype, hk]
      exact ⟨hself.completes, hself.tasks, hself.silent⟩
    | branches hne =>
      obtain ⟨hloop, hfork⟩ := Kind.type_of_branches hne
      rw [plan_of_branches hne, attendants_of_type hloop hfork, List.append_nil,
        Kind.sequences_eq_branches hne, List.flatMap_map]
      exact hself.andThen (Plan.draws_beside fun branch hmem =>
        hsequence _ (Kind.mem_sequences_of_branches hmem) _ _)
    | forked hk =>
      rw [plan_of_idle_fork hk, attendants_of_fork hk, hk]
      exact hself.andThen (Plan.draws_vertex (Or.inr rfl))
    | @loop condition body hk =>
      have hbody := Kind.mem_sequences_of_loop hk
      rw [plan_of_idle_loop hk, attendants_of_loop hk, hk]
      dsimp only [Kind.sequences]
      rw [List.flatMap_singleton, List.cons_append]
      exact hself.andThen
        ((hsequence body hbody _ _).andThen (Plan.draws_vertex (Or.inl rfl)))

/-- The diagram of a definition draws a walk over its tree between two bubbles. -/
theorem Plan.ofTasks_draws_walk (settings : Settings) (tasks : List Task) :
    (Plan.ofTasks settings .empty tasks).Draws (Task.start :: walk tasks ++ [Task.final]) := by
  rw [Plan.ofTasks_eq, List.cons_append]
  exact (draws_vertex (Or.inl rfl)).andThen
    ((planTasks_draws_walk fun t _ => t.plan_draws_walk).andThen (draws_vertex (Or.inl rfl)))

/-- The order apart, these are the references of the tree and of what is generated for it. -/
theorem Plan.references_perm (settings : Settings) (tasks : List Task) :
    (Plan.ofTasks settings .empty tasks).references.Perm
      ((listing tasks ++ generated tasks).map (·.reference)) := by
  have hreferences : (Plan.ofTasks settings .empty tasks).references =
      (Task.start :: walk tasks ++ [Task.final]).map (·.reference) := by
    rw [← (Plan.ofTasks_draws_walk settings tasks).tasks, List.map_map]
    rfl
  rw [hreferences]
  exact (framed_walk_perm tasks).map _

/-- The bubbles and the names of all tasks are different, if all that is drawn is. -/
theorem Plan.nodup_ownRefs (hnodup : (Plan.ofTasks settings .empty tasks).references.Nodup) :
    ([startBubble, finalBubble] ++ (listing tasks).flatMap Task.ownRefs).Nodup := by
  have hperm := (listing_generated_perm tasks).map (·.reference)
  have hall := ((Plan.references_perm settings tasks).trans hperm).nodup hnodup
  rw [List.map_append, List.map_flatMap] at hall
  exact hall

theorem Plan.bubble_not_mem_ownRefs
    (hnodup : (Plan.ofTasks settings .empty tasks).references.Nodup) {bubble : String}
    (hbubble : bubble ∈ [startBubble, finalBubble]) {t : Task} (ht : t ∈ listing tasks) :
    bubble ∉ t.ownRefs := fun hmem =>
  (List.nodup_append.mp (Plan.nodup_ownRefs hnodup)).2.2 bubble hbubble bubble
    (List.mem_flatMap_of_mem ht hmem) rfl

end

end Flowchart

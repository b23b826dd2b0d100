import Flowchart.Proofs.Positions
import Flowchart.Proofs.Words

/-!
# The references of a plan

The references that a plan draws follow from the tree, by recursion on it. Where a path leads to a
sequence of the tree, what is drawn for that sequence is one stretch of them, and a change of the
sequence is a change of that stretch.
-/

namespace Flowchart

theorem Kind.type_of_isSingle {k : Kind (List Task)} (h : k.isSingle = true) :
    k.type ≠ .doWhile ∧ k.type ≠ .forkJoinDynamic := by
  cases k with
  | worker w => cases w <;> exact ⟨nofun, nofun⟩
  | marker m => cases m <;> exact ⟨nofun, nofun⟩
  | terminate | switch | dynamicFork | loop => cases h
  | _ => exact ⟨nofun, nofun⟩

section

variable (settings : Settings) (history : History)

/-- The references of what is drawn behind a task and belongs to no other task. -/
def Task.trailingRefs (t : Task) : List String :=
  match t.type with
  | .forkJoinDynamic => forkedRefs settings history t.reference
  | .doWhile => [loopEndRef t.reference]
  | _ => []

theorem Task.trailingRefs_of_type {t : Task} (hloop : t.type ≠ .doWhile)
    (hfork : t.type ≠ .forkJoinDynamic) : t.trailingRefs settings history = [] := by
  unfold trailingRefs
  split
  · exact absurd ‹_› hfork
  · exact absurd ‹_› hloop
  · rfl

/-- The references of what is drawn of a task, in order. -/
def Task.drawnRefs : Task → List String :=
  fold fun t k =>
    let inner := if t.isRunLoop history then [loopChildrenRef t.reference]
      else k.sequences.flatten.flatten
    t.reference :: inner ++ t.trailingRefs settings history

def drawnRefs (tasks : List Task) : List String := tasks.flatMap (Task.drawnRefs settings history)

theorem Task.drawnRefs_eq (t : Task) : t.drawnRefs settings history =
    t.reference :: (if t.isRunLoop history then [loopChildrenRef t.reference]
      else t.kind.sequences.flatMap (Flowchart.drawnRefs settings history)) ++
        t.trailingRefs settings history := by
  rw [drawnRefs, fold_eq, Kind.sequences_map, List.flatten_flatten, List.map_map]
  rfl

@[simp] theorem drawnRefs_nil : drawnRefs settings history [] = [] := rfl

theorem drawnRefs_cons (t : Task) (rest : List Task) : drawnRefs settings history (t :: rest) =
    t.drawnRefs settings history ++ drawnRefs settings history rest := List.flatMap_cons

theorem drawnRefs_append (s s' : List Task) : drawnRefs settings history (s ++ s') =
    drawnRefs settings history s ++ drawnRefs settings history s' := List.flatMap_append

end

section

variable {settings : Settings} {history : History} {path : TreePath} {position : Nat}
  {sources : List String} {tasks : List Task}

theorem Task.planForked_references (hfiled : history.Filed) {reference : String}
    (hcompletes : (planForked settings history reference path).Completes) :
    (planForked settings history reference path).references =
      forkedRefs settings history reference := by
  rw [forkedRefs]
  rcases planForked_cases hcompletes with ⟨hfew, heq⟩ | ⟨hmany, aggregate, -, heq⟩
  · rw [heq, Plan.completes_beside] at hcompletes
    have hchild : ∀ child ∈ (history.spawned? reference).getD [],
        (planChild history reference path child).references = [child] := by
      intro child hmem
      obtain ⟨a, ha, hplan⟩ := planChild_cases (hcompletes _ (List.mem_map_of_mem hmem))
      rw [hplan]
      exact congrArg ([·]) (hfiled.reference_eq ha)
    rw [if_pos hfew, heq, Plan.references_beside, List.flatMap_map, List.flatMap_congr hchild,
      List.flatMap_singleton']
  · rw [if_neg (Bool.eq_false_iff.mp hmany), heq]
    rfl

theorem planTasks_references (htasks : ∀ t ∈ tasks, ∀ position sources,
      (t.plan settings history path position sources).Completes →
        (t.plan settings history path position sources).references =
          t.drawnRefs settings history)
    (hcompletes : (planTasks settings history path position tasks sources).Completes) :
    (planTasks settings history path position tasks sources).references =
      drawnRefs settings history tasks := by
  induction tasks generalizing position sources with
  | nil => rfl
  | cons t rest ih =>
    rw [planTasks_cons] at hcompletes ⊢
    rw [Plan.completes_andThen] at hcompletes
    obtain ⟨ht, hrest⟩ := List.forall_mem_cons.mp htasks
    rw [Plan.references_andThen, drawnRefs_cons, ht _ _ hcompletes.1, ih hrest hcompletes.2]

theorem Task.plan_references (hfiled : history.Filed) (t : Task) : ∀ path position sources,
    (t.plan settings history path position sources).Completes →
      (t.plan settings history path position sources).references =
        t.drawnRefs settings history := by
  induction t using Task.induction with
  | step t ih =>
    intro path position sources hcompletes
    have hsequence : ∀ {path s sources}, s ∈ t.kind.sequences →
        (planTasks settings history path 0 s sources).Completes →
          (planTasks settings history path 0 s sources).references =
            Flowchart.drawnRefs settings history s :=
      fun hs h => planTasks_references (fun u hu => ih _ hs u hu _) h
    rw [Task.drawnRefs_eq]
    have hplanned := t.planned hcompletes
    generalize t.plan settings history path position sources = plan at hcompletes hplanned ⊢
    cases hplanned with
    | single hsingle hnone =>
      obtain ⟨hloop, hfork⟩ := Kind.type_of_isSingle hsingle
      rw [Task.isRunLoop_of_type hloop, Task.trailingRefs_of_type _ _ hloop hfork, hnone]
      rfl
    | final hk =>
      have htype : t.type = .terminate := by rw [Task.type, hk, Kind.type]
      have hloop : t.type ≠ .doWhile := by rw [htype]; decide
      have hfork : t.type ≠ .forkJoinDynamic := by rw [htype]; decide
      rw [Task.isRunLoop_of_type hloop, Task.trailingRefs_of_type _ _ hloop hfork, hk]
      rfl
    | branches hne =>
      obtain ⟨hloop, hfork⟩ := Kind.type_of_branches hne
      rw [Plan.completes_andThen, Plan.completes_beside] at hcompletes
      have hbranch : ∀ branch ∈ t.kind.branches, (planTasks settings history
          (path.child position branch.1) 0 branch.2 [t.reference]).references =
            Flowchart.drawnRefs settings history branch.2 := by
        intro branch hmem
        exact hsequence (Kind.mem_sequences_of_branches hmem)
          (hcompletes.2 _ (List.mem_map_of_mem hmem))
      rw [Task.isRunLoop_of_type hloop, Task.trailingRefs_of_type _ _ hloop hfork,
        Kind.sequences_eq_branches hne, Plan.references_andThen, Plan.references_beside,
        List.flatMap_map, List.flatMap_map, List.append_nil]
      exact congrArg (t.reference :: ·) (List.flatMap_congr hbranch)
    | forked hk =>
      have htype : t.type = .forkJoinDynamic := by rw [Task.type, hk, Kind.type]
      have hloop : t.type ≠ .doWhile := by rw [htype]; decide
      rw [Plan.completes_andThen] at hcompletes
      rw [Plan.references_andThen, Task.planForked_references hfiled hcompletes.2,
        Task.isRunLoop_of_type hloop, Task.trailingRefs, htype, hk]
      rfl
    | body hk hlatest =>
      have htype : t.type = .doWhile := Kind.type_eq_doWhile.mpr ⟨_, _, hk⟩
      rw [Plan.completes_andThen, Plan.completes_andThen] at hcompletes
      have hbody := hsequence (Kind.mem_sequences_of_loop hk) hcompletes.2.1
      rw [Plan.references_andThen, Plan.references_andThen, hbody, Task.isRunLoop_of_loop hk,
        History.latest?_eq_of_latestOfTask hlatest, Task.trailingRefs, htype, hk]
      dsimp only [Kind.sequences]
      rw [List.flatMap_singleton]
      rfl
    | iterations hk hlatest =>
      have htype : t.type = .doWhile := Kind.type_eq_doWhile.mpr ⟨_, _, hk⟩
      rw [Plan.completes_andThen] at hcompletes
      obtain ⟨aggregate, -, heq⟩ := Task.planIterations_cases hcompletes.2
      rw [Plan.references_andThen, heq, Task.isRunLoop_of_loop hk,
        History.latest?_eq_of_latestOfTask hlatest, Task.trailingRefs, htype]
      rfl

/-- A diagram draws its two bubbles and what the tasks between them come to. -/
theorem Plan.references_eq_drawnRefs (hfiled : history.Filed)
    (hcompletes : (Plan.ofTasks settings history tasks).Completes) :
    (Plan.ofTasks settings history tasks).references =
      startBubble :: drawnRefs settings history tasks ++ [finalBubble] := by
  rw [Plan.ofTasks_eq] at hcompletes ⊢
  rw [Plan.completes_andThen, Plan.completes_andThen] at hcompletes
  rw [Plan.references_andThen, Plan.references_andThen, planTasks_references
    (fun t _ => t.plan_references hfiled _) hcompletes.2.1]
  rfl

variable {old new : List String} {s tasks' : List Task} {segments : List Segment}

theorem Task.drawnRefs_with_kind {t : Task} {k : Kind (List Task)} (htype : k.type = t.kind.type)
    (hopen : t.isRunLoop history = false) :
    ({ t with kind := k } : Task).drawnRefs settings history =
      t.reference :: k.sequences.flatMap (Flowchart.drawnRefs settings history) ++
        t.trailingRefs settings history := by
  have htrailing : ({ t with kind := k } : Task).trailingRefs settings history =
      t.trailingRefs settings history := by
    rw [trailingRefs, trailingRefs, type, type, htype]
  rw [drawnRefs_eq, isRunLoop_with_kind history htype, hopen, htrailing]
  rfl

/-- A change of the kind of a drawn task shows in its sequences alone. -/
theorem drawnRefs_set {i : Nat} {t : Task} {k : Kind (List Task)} (ht : tasks[i]? = some t)
    (hopen : t.isRunLoop history = false) (htype : k.type = t.kind.type)
    (h : Swaps old new (t.kind.sequences.flatMap (drawnRefs settings history))
      (k.sequences.flatMap (drawnRefs settings history))) :
    Swaps old new (drawnRefs settings history tasks)
      (drawnRefs settings history (tasks.set i { t with kind := k })) := by
  obtain ⟨front, back, rfl, -, hset⟩ := split_of_getElem? ht
  have hbefore : t.drawnRefs settings history =
      t.reference :: t.kind.sequences.flatMap (drawnRefs settings history) ++
        t.trailingRefs settings history := by
    rw [Task.drawnRefs_eq, hopen]
    rfl
  refine Swaps.trans ⟨drawnRefs settings history front ++ [t.reference],
    t.trailingRefs settings history ++ drawnRefs settings history back, ?_, ?_⟩ h
  · rw [drawnRefs_append, drawnRefs_cons, hbefore]
    simp only [List.append_assoc, List.cons_append, List.nil_append]
  · rw [hset, drawnRefs_append, drawnRefs_cons, Task.drawnRefs_with_kind htype hopen]
    simp only [List.append_assoc, List.cons_append, List.nil_append]

/-- What is drawn after a change at the end of a path. -/
theorem drawnRefs_change? {f : List Task → List Task}
    (hleads : TreePath.Leads history segments tasks s)
    (h : TreePath.change? f segments tasks = some tasks') :
    Swaps (drawnRefs settings history s) (drawnRefs settings history (f s))
      (drawnRefs settings history tasks) (drawnRefs settings history tasks') := by
  induction hleads generalizing tasks' with
  | here tasks =>
    obtain rfl := Option.some.inj h
    exact Swaps.whole
  | @step segment rest tasks q s t ht hopen hq _ ih =>
    obtain ⟨t', q₁, q', ht', hq₁, hq', rfl⟩ := TreePath.change?_cons h
    obtain rfl := Option.some.inj (ht'.symm.trans ht)
    obtain rfl := Option.some.inj (hq₁.symm.trans hq)
    obtain ⟨left, right, hsequences, hset⟩ := Kind.sequences_set hq
    refine drawnRefs_set ht hopen (Kind.type_set _ _ _) (Swaps.trans
      ⟨left.flatMap (drawnRefs settings history), right.flatMap (drawnRefs settings history),
        ?_, ?_⟩ (ih hq'))
    · rw [hsequences, List.flatMap_append, List.flatMap_cons, List.append_assoc]
    · rw [hset, List.flatMap_append, List.flatMap_cons, List.append_assoc]

end

end Flowchart

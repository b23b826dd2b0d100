import Flowchart.Proofs.Filing
import Flowchart.Proofs.Reading

/-!
# The plan of a task reads the words of the task

By induction on the tree. What stands for the children of a dynamic fork, or for the iterations of a
loop, is read first.
-/

namespace Flowchart

open Plan

variable {settings : Settings} {history : History} {path : TreePath} {position : Nat}
  {sources : List String}

theorem Plan.Clean.vertex_fresh {placement : Placement}
    (h : (vertex placement).Clean placement.sources) : placement.reference ∉ placement.sources :=
  fun hmem => h.fresh _ hmem (List.mem_singleton_self _)

namespace Task

theorem planForked_reads (hh : history.Filed) {reference : String}
    (hclean : (planForked settings history reference path).Clean [reference]) :
    (planForked settings history reference path).Reads [reference]
      (Word.oneOf ((forkedRefs settings history reference).map Word.one)) := by
  have hcases := planForked_cases hclean.completes
  dsimp only at hcases
  unfold forkedRefs
  generalize (history.spawned? reference).getD [] = children at hcases ⊢
  rcases hcases with ⟨hfew, heq⟩ | ⟨hmany, aggregate, -, heq⟩
  · rw [heq] at hclean ⊢
    rw [if_pos hfew]
    have hchild : ∀ child ∈ children,
        (planChild history reference path child).Reads [reference] (Word.one child) := by
      intro child hmem
      have hclean' := hclean.of_mem (List.mem_map_of_mem hmem)
      obtain ⟨a, ha, heq⟩ := planChild_cases hclean'.completes
      rw [heq] at hclean' ⊢
      have href : a.task.reference = child := hh.reference_eq ha
      subst href
      exact reads_vertex hclean'.vertex_fresh
    have hne : children ≠ [] := by
      rintro rfl
      simp at hfew
    apply reads_beside hclean (by simpa using hne)
    · intro p hp
      obtain ⟨child, hmem, rfl⟩ := List.mem_map.mp hp
      exact ⟨_, List.mem_map_of_mem hmem, hchild child hmem⟩
    · intro L hL
      obtain ⟨child, hmem, rfl⟩ := List.mem_map.mp hL
      exact ⟨_, List.mem_map_of_mem hmem, hchild child hmem⟩
  · rw [heq] at hclean ⊢
    rw [if_neg (Bool.eq_false_iff.mp hmany), List.map_singleton, Word.oneOf_singleton]
    exact reads_vertex hclean.vertex_fresh

theorem planIterations_reads {t bar : Task}
    (hclean : (planIterations history t bar path position).Clean [t.reference]) :
    (planIterations history t bar path position).Reads [t.reference]
      (Word.andThen (Word.one (loopChildrenRef t.reference)) (Word.one bar.reference)) := by
  obtain ⟨aggregate, -, heq⟩ := planIterations_cases hclean.completes
  rw [heq] at hclean ⊢
  have hstack := reads_vertex hclean.left.vertex_fresh
  exact reads_andThen hclean hstack (reads_vertex (hclean.right hstack).vertex_fresh)

theorem planTasks_reads {tasks : List Task}
    (htasks : ∀ t ∈ tasks, ∀ path position sources,
      (t.plan settings history path position sources).Clean sources →
        (t.plan settings history path position sources).Reads sources (t.words settings history))
    (hclean : (planTasks settings history path position tasks sources).Clean sources) :
    (planTasks settings history path position tasks sources).Reads sources
      (sequenceWords settings history tasks) := by
  induction tasks generalizing position sources with
  | nil => exact reads_nothing sources
  | cons t rest ih =>
    rw [planTasks_cons] at hclean ⊢
    have hfirst := htasks t List.mem_cons_self path position sources hclean.left
    exact reads_andThen hclean hfirst
      (ih (fun u hu => htasks u (List.mem_cons_of_mem t hu)) (hclean.right hfirst))

theorem words_of_single {t : Task} (h : t.kind.isSingle = true) :
    t.words settings history = Word.one t.reference := by
  rw [words_eq]
  revert h
  cases t.kind with
  | fork branches =>
    intro h
    rw [List.isEmpty_iff.mp h]
  | switch | dynamicFork | loop | terminate => exact fun h => absurd h Bool.false_ne_true
  | worker | join | exclusiveJoin | subWorkflow | event | loopEnd | marker => exact fun _ => rfl

theorem words_of_branches {t : Task} (h : t.kind.branches ≠ []) :
    t.words settings history = Word.andThen (Word.one t.reference)
      (Word.oneOf (t.kind.branches.map fun branch => sequenceWords settings history branch.2)) := by
  have hsequences : t.kind.branches.map (fun branch => sequenceWords settings history branch.2) =
      t.kind.sequences.map (sequenceWords settings history) := by
    rw [Kind.sequences_eq_branches h, List.map_map]
    rfl
  rw [words_eq, hsequences]
  revert h
  cases t.kind with
  | fork branches =>
    intro h
    cases branches with
    | nil => exact absurd rfl h
    | cons branch rest => rfl
  | switch form s => exact fun _ => rfl
  | _ => exact fun h => absurd rfl h

theorem plan_reads (hh : history.Filed) (t : Task) : ∀ path position sources,
    (t.plan settings history path position sources).Clean sources →
      (t.plan settings history path position sources).Reads sources
        (t.words settings history) := by
  induction t using Task.induction with
  | step t ih =>
    intro path position sources hclean
    have hseq : ∀ s ∈ t.kind.sequences, ∀ {path position sources},
        (planTasks settings history path position s sources).Clean sources →
          (planTasks settings history path position s sources).Reads sources
            (sequenceWords settings history s) :=
      fun s hs _ _ _ => planTasks_reads (ih s hs)
    have hplanned := t.planned hclean.completes
    generalize t.plan settings history path position sources = p at hclean hplanned ⊢
    cases hplanned with
    | single hsingle _ =>
      rw [words_of_single hsingle]
      exact reads_vertex hclean.vertex_fresh
    | final hk =>
      rw [words_eq, hk]
      exact reads_final fun hmem => hclean.fresh _ hmem (List.mem_singleton_self _)
    | branches hne =>
      have hself := reads_vertex hclean.left.vertex_fresh
      have hinner := hclean.right hself
      have hbranch : ∀ branch ∈ t.kind.branches,
          (planTasks settings history (path.child position branch.1) 0 branch.2
            [t.reference]).Reads [t.reference] (sequenceWords settings history branch.2) := by
        intro branch hmem
        apply hseq branch.2 (Kind.mem_sequences_of_branches hmem)
        exact hinner.of_mem (List.mem_map_of_mem hmem)
      rw [words_of_branches hne]
      apply reads_andThen hclean hself
      apply reads_beside hinner (by simpa using hne)
      · intro p hp
        obtain ⟨branch, hmem, rfl⟩ := List.mem_map.mp hp
        exact ⟨_, List.mem_map_of_mem hmem, hbranch branch hmem⟩
      · intro L hL
        obtain ⟨branch, hmem, rfl⟩ := List.mem_map.mp hL
        exact ⟨_, List.mem_map_of_mem hmem, hbranch branch hmem⟩
    | forked hk =>
      rw [words_eq, hk]
      have hself := reads_vertex hclean.left.vertex_fresh
      exact reads_andThen hclean hself (planForked_reads hh (hclean.right hself))
    | body hk hlatest =>
      rw [words_eq, hk]
      dsimp only
      rw [History.latest?_eq_of_latestOfTask hlatest]
      have hself := reads_vertex hclean.left.vertex_fresh
      have hinner := hclean.right hself
      have hbody := hseq _ (by rw [hk]; exact List.mem_singleton_self _) hinner.left
      exact reads_andThen hclean hself
        (reads_andThen hinner hbody (reads_vertex (hinner.right hbody).vertex_fresh))
    | iterations hk hlatest =>
      rw [words_eq, hk]
      dsimp only
      rw [History.latest?_eq_of_latestOfTask hlatest]
      have hself := reads_vertex hclean.left.vertex_fresh
      exact reads_andThen hclean hself (planIterations_reads (hclean.right hself))

end Task

end Flowchart

import Flowchart.Proofs.Drawn
import Flowchart.Proofs.Filing

/-!
# Which tasks are drawn

A task of the tree is drawn under its reference, unless it lies in the body of a loop that has run.
-/

namespace Flowchart

/-- A task in the body of a loop that has run. -/
def HiddenIn (history : History) (tasks : List Task) (u : Task) : Prop :=
  ∃ l ∈ listing tasks, ∃ condition body, l.kind = .loop condition body ∧
    (history.latest? l.reference).isSome = true ∧ u ∈ listing body

section

variable {settings : Settings} {history : History} {path : TreePath} {position : Nat}
  {sources : List String}

theorem mem_listing {tasks : List Task} {u : Task} :
    u ∈ listing tasks ↔ ∃ t ∈ tasks, u ∈ t.family := List.mem_flatMap

theorem Task.mem_family {t u : Task} :
    u ∈ t.family ↔ u = t ∨ ∃ s ∈ t.kind.sequences, u ∈ listing s := by
  rw [Task.family_eq, List.mem_cons, Task.descendants, List.mem_flatMap]
  rfl

theorem HiddenIn.mono {tasks tasks' : List Task} {u : Task} (h : HiddenIn history tasks u)
    (hsub : ∀ t ∈ listing tasks, t ∈ listing tasks') : HiddenIn history tasks' u := by
  obtain ⟨l, hl, hloop⟩ := h
  exact ⟨l, hsub l hl, hloop⟩

/-- A loop with an attempt. Its body is not drawn. -/
def Task.isRunLoop (history : History) (t : Task) : Bool :=
  decide (t.type = .doWhile) && (history.latest? t.reference).isSome

theorem Kind.type_eq_doWhile {k : Kind (List Task)} :
    k.type = .doWhile ↔ ∃ condition body, k = .loop condition body := by
  constructor
  · cases k with
    | loop condition body => exact fun _ => ⟨condition, body, rfl⟩
    | worker w => cases w <;> exact nofun
    | marker m => cases m <;> exact nofun
    | switch form s => cases form <;> exact nofun
    | _ => exact nofun
  · rintro ⟨condition, body, rfl⟩
    rfl

theorem Task.isRunLoop_of_type {t : Task} (h : t.type ≠ .doWhile) :
    t.isRunLoop history = false := by
  rw [isRunLoop, decide_eq_false h, Bool.false_and]

theorem Task.isRunLoop_of_loop {t : Task} {condition : Option String} {body : List Task}
    (h : t.kind = .loop condition body) :
    t.isRunLoop history = (history.latest? t.reference).isSome := by
  have htype : t.type = .doWhile := Kind.type_eq_doWhile.mpr ⟨condition, body, h⟩
  rw [isRunLoop, decide_eq_true htype, Bool.true_and]

theorem Task.isRunLoop_iff {t : Task} : t.isRunLoop history = true ↔
    (∃ condition body, t.kind = .loop condition body) ∧
      (history.latest? t.reference).isSome = true := by
  constructor
  · intro h
    obtain ⟨htype, hlatest⟩ := Bool.and_eq_true_iff.mp h
    exact ⟨Kind.type_eq_doWhile.mp (of_decide_eq_true htype), hlatest⟩
  · rintro ⟨⟨condition, body, hk⟩, hlatest⟩
    rw [isRunLoop_of_loop hk, hlatest]

theorem Task.plan_self (t : Task)
    (hcompletes : (t.plan settings history path position sources).Completes) :
    ⟨t, path, some position, none, sources⟩ ∈
      (t.plan settings history path position sources).placements := by
  have hplanned := t.planned hcompletes
  generalize t.plan settings history path position sources = p at hplanned ⊢
  cases hplanned <;> exact List.mem_cons_self

/-- The plan of a task contains those of its sequences, unless it is a loop that has run. -/
theorem Task.plan_sequence (t : Task)
    (hcompletes : (t.plan settings history path position sources).Completes) {branch : Branch}
    {s : List Task} (hs : (branch, s) ∈ t.kind.parts) (hopen : t.isRunLoop history = false) :
    (planTasks settings history (path.child position branch) 0 s [t.reference]).Completes ∧
      ∀ q ∈ (planTasks settings history (path.child position branch) 0 s [t.reference]).placements,
        q ∈ (t.plan settings history path position sources).placements := by
  have hplanned := t.planned hcompletes
  generalize t.plan settings history path position sources = p at hcompletes hplanned ⊢
  cases hplanned with
  | single _ hnone =>
    rw [Kind.sequences_eq_parts, List.map_eq_nil_iff] at hnone
    rw [hnone] at hs
    cases hs
  | final hk | forked hk =>
    rw [hk] at hs
    cases hs
  | branches hne =>
    rw [Kind.parts_eq_branches hne] at hs
    have hmem := List.mem_map_of_mem (f := fun branch : Branch × List Task =>
      planTasks settings history (path.child position branch.1) 0 branch.2 [t.reference]) hs
    rw [Plan.completes_andThen, Plan.completes_beside] at hcompletes
    rw [Plan.placements_andThen, Plan.placements_beside]
    exact ⟨hcompletes.2 _ hmem, fun q hq =>
      List.mem_append_right _ (List.mem_flatMap_of_mem hmem hq)⟩
  | body hk _ =>
    rw [hk] at hs
    cases List.mem_singleton.mp hs
    rw [Plan.completes_andThen, Plan.completes_andThen] at hcompletes
    rw [Plan.placements_andThen, Plan.placements_andThen]
    exact ⟨hcompletes.2.1, fun q hq => List.mem_append_right _ (List.mem_append_left _ hq)⟩
  | iterations hk hlatest =>
    rw [isRunLoop_of_loop hk, History.latest?_eq_of_latestOfTask hlatest] at hopen
    cases hopen

theorem planTasks_draws {tasks : List Task}
    (htasks : ∀ t ∈ tasks, ∀ path position sources,
      (t.plan settings history path position sources).Completes → ∀ u ∈ t.family,
        u.reference ∈ (t.plan settings history path position sources).references ∨
          HiddenIn history [t] u)
    (hcompletes : (planTasks settings history path position tasks sources).Completes)
    {u : Task} (hu : u ∈ listing tasks) :
    u.reference ∈ (planTasks settings history path position tasks sources).references ∨
      HiddenIn history tasks u := by
  induction tasks generalizing position sources with
  | nil => cases hu
  | cons t rest ih =>
    rw [planTasks_cons] at hcompletes ⊢
    rw [Plan.completes_andThen] at hcompletes
    rw [Plan.references_andThen, List.mem_append]
    rw [listing, List.flatMap_cons, List.mem_append] at hu
    rcases hu with hu | hu
    · rcases htasks t List.mem_cons_self path position sources hcompletes.1 u hu
        with hdrawn | hhidden
      · exact Or.inl (Or.inl hdrawn)
      · refine Or.inr (hhidden.mono fun t' ht' => ?_)
        rw [listing, List.flatMap_singleton] at ht'
        exact mem_listing.mpr ⟨t, List.mem_cons_self, ht'⟩
    · rcases ih (fun t' ht' => htasks t' (List.mem_cons_of_mem t ht')) hcompletes.2 hu
        with hdrawn | hhidden
      · exact Or.inl (Or.inr hdrawn)
      · refine Or.inr (hhidden.mono fun t' ht' => ?_)
        rw [listing, List.flatMap_cons]
        exact List.mem_append_right _ ht'

theorem Task.plan_draws (t : Task) : ∀ path position sources,
    (t.plan settings history path position sources).Completes → ∀ u ∈ t.family,
      u.reference ∈ (t.plan settings history path position sources).references ∨
        HiddenIn history [t] u := by
  induction t using Task.induction with
  | step t ih =>
    intro path position sources hcompletes u hu
    rcases Task.mem_family.mp hu with rfl | ⟨s, hs, hu⟩
    · exact Or.inl (List.mem_map_of_mem (u.plan_self hcompletes))
    have hfamily : ∀ u ∈ t.family, u ∈ listing [t] := fun u hu =>
      mem_listing.mpr ⟨t, List.mem_cons_self, hu⟩
    cases hrun : t.isRunLoop history with
    | false =>
      obtain ⟨⟨branch, _⟩, hpart, rfl⟩ := List.mem_map.mp (t.kind.sequences_eq_parts ▸ hs)
      obtain ⟨hinner, hplacements⟩ := t.plan_sequence hcompletes hpart hrun
      rcases planTasks_draws (ih _ hs) hinner hu with hdrawn | hhidden
      · obtain ⟨q, hq, heq⟩ := List.mem_map.mp hdrawn
        exact Or.inl (heq ▸ List.mem_map_of_mem (hplacements q hq))
      · exact Or.inr (hhidden.mono fun u hu =>
          hfamily u (Task.mem_family.mpr (Or.inr ⟨_, hs, hu⟩)))
    | true =>
      obtain ⟨⟨condition, body, hk⟩, hlatest⟩ := t.isRunLoop_iff.mp hrun
      rw [hk] at hs
      obtain rfl := List.mem_singleton.mp hs
      exact Or.inr ⟨t, hfamily t (Task.mem_family.mpr (Or.inl rfl)), condition, s, hk, hlatest, hu⟩

theorem Graph.draws_of_mem_listing {tasks : List Task} {g : Graph}
    (h : Graph.ofTasks settings history tasks = .ok g) {u : Task} (hu : u ∈ listing tasks) :
    u.reference ∈ g.references ∨ u.reference = finalBubble ∨ HiddenIn history tasks u := by
  have hcompletes := Graph.ofTasks_completes h
  rw [Plan.ofTasks_eq, Plan.completes_andThen, Plan.completes_andThen] at hcompletes
  rcases planTasks_draws (fun t _ => t.plan_draws) hcompletes.2.1 hu with hdrawn | hhidden
  · by_cases hfinal : u.reference = finalBubble
    · exact Or.inr (Or.inl hfinal)
    · refine Or.inl (Graph.mem_references_ofTasks h ?_ hfinal)
      rw [Plan.ofTasks_eq, Plan.references_andThen, Plan.references_andThen]
      exact List.mem_append_right _ (List.mem_append_left _ hdrawn)
  · exact Or.inr (Or.inr hhidden)

end

end Flowchart

import Flowchart.Proofs.Drawn
import Flowchart.Proofs.Filing

/-!
# What comes after what

A plan names the sources of a vertex after it has placed them, and it leaves a switch open only
behind an empty branch, so that each edge out of a switch belongs to a case. Both are said of a plan
that is drawn behind other placements, by induction on the tree. They are all that a drawing of
distinct references needs.
-/

namespace Flowchart

/-- An edge from the task to `r` can be labelled. -/
def Task.Admits (t : Task) (r : String) : Prop :=
  ∀ s, t.kind.switch? = some s → (s.caseValue? r).isSome = true

namespace Placement

/-- Each placement comes after its sources, and these admit it. -/
def InOrder (before : List Placement) : List Placement → Prop
  | [] => True
  | p :: rest =>
    (∀ s ∈ p.sources, ∃ q ∈ before, q.reference = s ∧ q.task.Admits p.reference) ∧
      InOrder (before ++ [p]) rest

variable {before before' ps qs : List Placement}

theorem inOrder_append : InOrder before (ps ++ qs) ↔
    InOrder before ps ∧ InOrder (before ++ ps) qs := by
  induction ps generalizing before with
  | nil => simp [InOrder]
  | cons p ps ih => simp [InOrder, ih, and_assoc]

theorem InOrder.mono (h : InOrder before ps) (hsub : ∀ q ∈ before, q ∈ before') :
    InOrder before' ps := by
  induction ps generalizing before before' with
  | nil => trivial
  | cons p ps ih =>
    refine ⟨fun s hs => ?_, ih h.2 fun q hq => ?_⟩
    · obtain ⟨q, hq, hadmits⟩ := h.1 s hs
      exact ⟨q, hsub q hq, hadmits⟩
    · rw [List.mem_append] at hq ⊢
      exact hq.imp_left (hsub q)

theorem inOrder_flatMap {α : Type} {as : List α} {f : α → List Placement}
    (h : ∀ a ∈ as, InOrder before (f a)) : InOrder before (as.flatMap f) := by
  induction as generalizing before with
  | nil => trivial
  | cons a as ih =>
    obtain ⟨hfirst, hrest⟩ := List.forall_mem_cons.mp h
    rw [List.flatMap_cons, inOrder_append]
    exact ⟨hfirst, ih fun b hb => (hrest b hb).mono fun q hq => List.mem_append_left _ hq⟩

end Placement

namespace Plan

/-- The plan may be drawn behind these placements, and anything may be drawn behind it. -/
structure Follows (p : Plan) (before : List Placement) : Prop where
  inOrder : Placement.InOrder before p.placements
  frontier : ∀ u ∈ p.frontier, ∃ q ∈ before ++ p.placements, q.reference = u ∧ ∀ r, q.task.Admits r

variable {p : Plan} {ps : List Plan} {next : List String → Plan} {before : List Placement}

theorem follows_vertex {placement : Placement}
    (hsources : ∀ s ∈ placement.sources, ∃ q ∈ before,
      q.reference = s ∧ q.task.Admits placement.reference)
    (hadmits : ∀ r, placement.task.Admits r) : (vertex placement).Follows before where
  inOrder := ⟨hsources, trivial⟩
  frontier := by
    intro u hu
    refine ⟨placement, List.mem_append_right _ List.mem_cons_self, ?_, hadmits⟩
    exact (List.mem_singleton.mp hu).symm

/-- Where the first vertex is drawn, the rest may rely on it. -/
theorem follows_vertex_andThen {placement : Placement}
    (hsources : ∀ s ∈ placement.sources, ∃ q ∈ before,
      q.reference = s ∧ q.task.Admits placement.reference)
    (hnext : (next [placement.reference]).Follows (before ++ [placement])) :
    ((vertex placement).andThen next).Follows before where
  inOrder := by
    rw [placements_andThen, placements_vertex, List.singleton_append]
    exact ⟨hsources, hnext.inOrder⟩
  frontier := by
    rw [placements_andThen, placements_vertex, ← List.append_assoc]
    exact hnext.frontier

theorem Follows.andThen (hp : p.Follows before)
    (hnext : (next p.frontier).Follows (before ++ p.placements)) :
    (p.andThen next).Follows before where
  inOrder := by
    rw [placements_andThen, Placement.inOrder_append]
    exact ⟨hp.inOrder, hnext.inOrder⟩
  frontier := by
    rw [placements_andThen, ← List.append_assoc]
    exact hnext.frontier

theorem Follows.beside (h : ∀ p ∈ ps, p.Follows before) : (beside ps).Follows before where
  inOrder := by
    rw [placements_beside]
    exact Placement.inOrder_flatMap fun p hp => (h p hp).inOrder
  frontier := by
    intro u hu
    obtain ⟨p, hp, hu⟩ := mem_frontier_beside.mp hu
    obtain ⟨q, hq, hadmits⟩ := (h p hp).frontier u hu
    refine ⟨q, ?_, hadmits⟩
    rw [placements_beside, List.mem_append] at *
    exact hq.imp_right (List.mem_flatMap_of_mem hp)

end Plan

theorem Task.admits_of_plain {t : Task} (h : t.kind.switch? = none) (r : String) : t.Admits r := by
  intro s hs
  rw [h] at hs
  cases hs

theorem Kind.switch?_of_isSingle {k : Kind (List Task)} (h : k.isSingle = true) :
    k.switch? = none := by
  cases k with
  | switch form s => cases h
  | _ => rfl

namespace Switch

variable {s : Switch (List Task)} {r : String}

theorem caseValue?_of_otherwise (h : s.otherwise = [] ∨ s.opensDefault r = true) :
    (s.caseValue? r).isSome = true := by
  unfold caseValue?
  split
  · rfl
  · next hopens =>
    have hempty : s.otherwise.isEmpty = true :=
      List.isEmpty_iff.mpr (h.resolve_right hopens)
    cases s.caseOpenedBy? r with
    | some key => rfl
    | none => simp [hempty]

theorem caseValue?_of_case {c : String × List Task} (hc : c ∈ s.cases)
    (h : c.2 = [] ∨ head? c.2 = some r) : (s.caseValue? r).isSome = true := by
  unfold caseValue?
  split
  · rfl
  · cases hopened : s.caseOpenedBy? r with
    | some key => rfl
    | none =>
      have hempty : c.2 = [] := by
        refine h.resolve_right fun hhead => ?_
        have hnone := List.find?_eq_none.mp (Option.map_eq_none_iff.mp hopened) c hc
        exact hnone (beq_iff_eq.mpr hhead)
      have hfound : (s.cases.find? (·.2.isEmpty)).isSome = true :=
        List.find?_isSome.mpr ⟨c, hc, List.isEmpty_iff.mpr hempty⟩
      dsimp only
      split
      · rfl
      · rw [Option.isSome_map, hfound]

end Switch

theorem Switch.head?_eq_none {tasks : List Task} : head? tasks = none ↔ tasks = [] := by
  rw [head?, Option.map_eq_none_iff, List.head?_eq_none_iff]

/-- A task that branches admits what opens a branch, and all that follows an empty branch. -/
theorem Task.admits_branch {t : Task} {branch : Branch × List Task} (h : branch ∈ t.kind.branches)
    (r : String) : t.Admits ((Switch.head? branch.2).getD r) := by
  have hhead : branch.2 = [] ∨ Switch.head? branch.2 = some ((Switch.head? branch.2).getD r) := by
    cases hhead : Switch.head? branch.2 with
    | none => exact Or.inl (Switch.head?_eq_none.mp hhead)
    | some head => exact Or.inr rfl
  intro s hs
  cases hk : t.kind with
  | switch form s' =>
    rw [hk] at h hs
    obtain rfl := Option.some.inj hs
    rcases List.mem_cons.mp h with rfl | h
    · exact Switch.caseValue?_of_otherwise (hhead.imp_right beq_iff_eq.mpr)
    · obtain ⟨c, hc, rfl⟩ := List.mem_map.mp h
      exact Switch.caseValue?_of_case hc hhead
  | _ =>
    rw [hk] at hs
    cases hs

/-- A spawned switch is drawn without branches. -/
theorem Attempt.task_admits (a : Attempt) (r : String) : a.task.Admits r := by
  intro s hs
  refine Switch.caseValue?_of_otherwise (Or.inl ?_)
  change a.kind.switch? = some s at hs
  unfold Attempt.kind at hs
  split at hs
  case h_13 => split at hs <;> cases hs
  all_goals cases hs
  all_goals rfl

section

variable {settings : Settings} {history : History} {path : TreePath} {position : Nat}
  {sources : List String} {before : List Placement}

theorem Task.planForked_follows (hfiled : history.Filed) {t : Task}
    (hcompletes : (planForked settings history t.reference path).Completes)
    (hplain : t.kind.switch? = none)
    (hbefore : ∃ q ∈ before, q.task = t) :
    (planForked settings history t.reference path).Follows before := by
  obtain ⟨q, hq, rfl⟩ := hbefore
  have hsources : ∀ r, ∀ s ∈ [q.task.reference], ∃ q ∈ before,
      q.reference = s ∧ q.task.Admits r := by
    intro r s hs
    exact ⟨q, hq, (List.mem_singleton.mp hs).symm, Task.admits_of_plain hplain r⟩
  rcases planForked_cases hcompletes with ⟨-, heq⟩ | ⟨-, aggregate, -, heq⟩
  · rw [heq] at hcompletes ⊢
    rw [Plan.completes_beside] at hcompletes
    refine Plan.Follows.beside fun p hp => ?_
    have hchild := hcompletes p hp
    obtain ⟨child, -, rfl⟩ := List.mem_map.mp hp
    obtain ⟨a, ha, heq⟩ := planChild_cases hchild
    have href : child = a.task.reference := (hfiled.reference_eq ha).symm
    rw [heq, href]
    exact Plan.follows_vertex (hsources _) a.task_admits
  · rw [heq]
    exact Plan.follows_vertex (hsources _) (Task.admits_of_plain rfl)

/-- Tasks in a sequence follow what admits the first of them, or all that comes next if there are
none. -/
theorem planTasks_follows {tasks : List Task}
    (htasks : ∀ t ∈ tasks, ∀ path position sources before,
      (t.plan settings history path position sources).Completes →
      (∀ s ∈ sources, ∃ q ∈ before, q.reference = s ∧ q.task.Admits t.reference) →
        (t.plan settings history path position sources).Follows before)
    (hcompletes : (planTasks settings history path position tasks sources).Completes)
    (hsources : ∀ s ∈ sources, ∃ q ∈ before,
      q.reference = s ∧ ∀ r, q.task.Admits ((Switch.head? tasks).getD r)) :
    (planTasks settings history path position tasks sources).Follows before := by
  induction tasks generalizing position sources before with
  | nil => exact ⟨trivial, by simpa [Switch.head?] using hsources⟩
  | cons t rest ih =>
    rw [planTasks_cons] at hcompletes ⊢
    rw [Plan.completes_andThen] at hcompletes
    obtain ⟨ht, hrest⟩ := List.forall_mem_cons.mp htasks
    have hfirst := ht path position sources before hcompletes.1 fun s hs => by
      obtain ⟨q, hq, href, hadmits⟩ := hsources s hs
      exact ⟨q, hq, href, hadmits t.reference⟩
    refine hfirst.andThen (ih hrest hcompletes.2 fun s hs => ?_)
    obtain ⟨q, hq, href, hadmits⟩ := hfirst.frontier s hs
    exact ⟨q, hq, href, fun r => hadmits _⟩

theorem Task.plan_follows (hfiled : history.Filed) (t : Task) : ∀ path position sources before,
    (t.plan settings history path position sources).Completes →
    (∀ s ∈ sources, ∃ q ∈ before, q.reference = s ∧ q.task.Admits t.reference) →
      (t.plan settings history path position sources).Follows before := by
  induction t using Task.induction with
  | step t ih =>
    intro path position sources before hcompletes hsources
    have hsequence : ∀ s ∈ t.kind.sequences, ∀ {path position sources before},
        (planTasks settings history path position s sources).Completes →
        (∀ u ∈ sources, ∃ q ∈ before,
          q.reference = u ∧ ∀ r, q.task.Admits ((Switch.head? s).getD r)) →
          (planTasks settings history path position s sources).Follows before :=
      fun s hs _ _ _ _ => planTasks_follows (ih s hs)
    have hplanned := t.planned hcompletes
    generalize t.plan settings history path position sources = plan at hcompletes hplanned ⊢
    have hself : ∃ q ∈ before ++ [⟨t, path, some position, none, sources⟩], q.task = t :=
      ⟨_, List.mem_append_right _ List.mem_cons_self, rfl⟩
    cases hplanned with
    | single hsingle _ =>
      exact Plan.follows_vertex hsources (Task.admits_of_plain (Kind.switch?_of_isSingle hsingle))
    | final _ => exact ⟨⟨hsources, trivial⟩, fun u hu => absurd hu List.not_mem_nil⟩
    | branches hne =>
      rw [Plan.completes_andThen, Plan.completes_beside] at hcompletes
      refine Plan.follows_vertex_andThen hsources (Plan.Follows.beside fun p hp => ?_)
      have hbranch := hcompletes.2 p hp
      obtain ⟨branch, hmem, rfl⟩ := List.mem_map.mp hp
      refine hsequence _ (Kind.mem_sequences_of_branches hmem) hbranch fun u hu => ?_
      obtain ⟨q, hq, rfl⟩ := hself
      exact ⟨q, hq, (List.mem_singleton.mp hu).symm, Task.admits_branch hmem⟩
    | forked hk =>
      rw [Plan.completes_andThen] at hcompletes
      exact Plan.follows_vertex_andThen hsources
        (Task.planForked_follows hfiled hcompletes.2 (by rw [hk]; rfl) hself)
    | @body condition body hk _ =>
      rw [Plan.completes_andThen, Plan.completes_andThen] at hcompletes
      refine Plan.follows_vertex_andThen hsources ?_
      have hopen : ∀ u ∈ [t.reference], ∃ q ∈ before ++ [⟨t, path, some position, none, sources⟩],
          q.reference = u ∧ ∀ r, q.task.Admits ((Switch.head? body).getD r) := fun u hu =>
        ⟨_, List.mem_append_right _ List.mem_cons_self, (List.mem_singleton.mp hu).symm,
          fun r => Task.admits_of_plain (by rw [hk]; rfl) _⟩
      have hbody := hsequence body (Kind.mem_sequences_of_loop hk) hcompletes.2.1 hopen
      refine hbody.andThen (Plan.follows_vertex (fun s hs => ?_) (Task.admits_of_plain rfl))
      obtain ⟨q, hq, href, hadmits⟩ := hbody.frontier s hs
      exact ⟨q, hq, href, hadmits _⟩
    | iterations hk _ =>
      rw [Plan.completes_andThen] at hcompletes
      obtain ⟨aggregate, -, heq⟩ := Task.planIterations_cases hcompletes.2
      refine Plan.follows_vertex_andThen hsources ?_
      rw [heq]
      refine Plan.follows_vertex_andThen (fun s hs => ?_)
        (Plan.follows_vertex (fun s hs => ?_) (Task.admits_of_plain rfl))
      · obtain ⟨q, hq, rfl⟩ := hself
        exact ⟨q, hq, (List.mem_singleton.mp hs).symm, Task.admits_of_plain (by rw [hk]; rfl) _⟩
      · exact ⟨_, List.mem_append_right _ List.mem_cons_self, (List.mem_singleton.mp hs).symm,
          Task.admits_of_plain rfl _⟩

/-- A diagram places each vertex behind those that edges lead to it from. -/
theorem Plan.ofTasks_inOrder (hfiled : history.Filed) {tasks : List Task}
    (hcompletes : (Plan.ofTasks settings history tasks).Completes) :
    Placement.InOrder [] (Plan.ofTasks settings history tasks).placements := by
  rw [Plan.ofTasks_eq] at hcompletes ⊢
  rw [completes_andThen, completes_andThen] at hcompletes
  refine (follows_vertex_andThen (fun s hs => absurd hs List.not_mem_nil) ?_).inOrder
  have htasks := planTasks_follows (fun t _ => t.plan_follows hfiled) hcompletes.2.1 fun s hs =>
    ⟨_, List.mem_singleton_self _, (List.mem_singleton.mp hs).symm,
      fun r => Task.admits_of_plain rfl _⟩
  refine htasks.andThen (follows_vertex (fun s hs => ?_) (Task.admits_of_plain rfl))
  obtain ⟨q, hq, href, hadmits⟩ := htasks.frontier s hs
  exact ⟨q, hq, href, hadmits _⟩

end

end Flowchart

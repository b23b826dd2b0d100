import Flowchart.Proofs.PathLanguage
import Flowchart.Proofs.Relabelling
import Flowchart.Proofs.Walks

/-!
# A run as an overlay

What a run says is put over the diagram of its definition. As long as no loop and no dynamic fork
has been tried, the diagram of a run is that of the definition once all that is said of attempts is
taken away, even where references are not distinct and the drawing fails.
-/

namespace Flowchart

/-- The vertex without what it says of attempts. -/
def Vertex.outline (v : Vertex) : Vertex :=
  { v with results := [], status := none, tally := none, standsFor := none }

/-- The label without what it says of execution. -/
def EdgeLabel.outline (label : EdgeLabel) : EdgeLabel := { label with executed := false }

/-- What is left of a graph when nothing has been executed. -/
def Graph.outline : Graph → Graph := Graph.relabel Vertex.outline EdgeLabel.outline

variable {settings : Settings} {history : History} {p : Placement} {g : Graph}

theorem Vertex.outline_reference (v : Vertex) : v.outline.reference = v.reference := rfl

theorem Placement.toVertex_outline (hp : p.Silent) :
    (p.toVertex history).outline = p.toVertex .empty := by
  unfold toVertex
  rcases hp with hnone | hblank
  · rw [hnone]
    rfl
  · rw [hblank]
    rfl

/-- Whatever has been executed, the label has the same case, and the same edges lack one. -/
theorem Placement.edgeFrom_outline (source : String) :
    (p.edgeFrom history g source).map EdgeLabel.outline =
      p.edgeFrom .empty g.outline source := by
  unfold edgeFrom
  rw [Graph.outline, Graph.vertex?_relabel Vertex.outline_reference]
  cases g.vertex? source with
  | none => rfl
  | some v =>
    dsimp only [Option.map_some, Vertex.outline]
    cases v.task.kind.switch? with
    | none => rfl
    | some s =>
      dsimp only
      cases s.caseValue? p.task.reference with
      | none => rfl
      | some value => rfl

theorem Graph.draw_outline (hp : p.Silent) :
    (g.draw history p).map outline = g.outline.draw .empty p :=
  draw_relabel Vertex.outline_reference (Placement.toVertex_outline hp) fun s _ =>
    Placement.edgeFrom_outline s

/-- The type of a task that is drawn in another way once it has been tried. -/
def Task.IsExpandable (t : Task) : Prop := t.type = .doWhile ∨ t.type = .forkJoinDynamic

instance (t : Task) : Decidable t.IsExpandable :=
  inferInstanceAs (Decidable (t.type = .doWhile ∨ t.type = .forkJoinDynamic))

theorem History.latest?_eq_none {r : String} (h : history.attempts r = []) :
    history.latest? r = none := by
  rw [latest?, h]
  rfl

theorem Task.planForked_untried {reference : String} {path : TreePath}
    (h : history.attempts reference = []) :
    planForked settings history reference path = planForked settings .empty reference path := by
  have hlatest := History.latest?_eq_none h
  have hchildren : history.spawned? reference = none := by
    rw [History.spawned?, hlatest]
    rfl
  have htask : history.latestOfTask reference = .ok none := by
    rw [History.latestOfTask, hlatest]
    rfl
  unfold planForked
  rw [hchildren, htask]
  rfl

theorem planTasks_congr {path : TreePath} {position : Nat} {tasks : List Task}
    {sources : List String}
    (htasks : ∀ t ∈ tasks, t.plan settings history = t.plan settings .empty) :
    planTasks settings history path position tasks sources =
      planTasks settings .empty path position tasks sources := by
  rw [planTasks, planTasks, List.map_congr_left htasks]

/-- Without a loop or a dynamic fork that has been tried, attempts do not matter to a plan. -/
theorem Task.plan_untried (t : Task) :
    (∀ u ∈ t.family, u.IsExpandable → history.attempts u.reference = []) →
      t.plan settings history = t.plan settings .empty := by
  induction t using Task.induction with
  | step t ih =>
    intro huntried
    have hself := huntried t (by rw [family_eq]; exact List.mem_cons_self)
    have hsequence : ∀ s ∈ t.kind.sequences, ∀ u ∈ s,
        u.plan settings history = u.plan settings .empty := by
      intro s hs u hu
      refine ih s hs u hu fun v hv => huntried v ?_
      exact mem_family.mpr (Or.inr ⟨s, hs, mem_listing.mpr ⟨u, hu, hv⟩⟩)
    funext path position sources
    cases t.kind.form with
    | single hsingle _ => rw [plan_of_single hsingle, plan_of_single hsingle]
    | final hk => rw [plan_eq, plan_eq, hk]
    | branches hne =>
      rw [plan_of_branches hne, plan_of_branches hne]
      refine congrArg (Plan.andThen _) (funext fun sources => congrArg Plan.beside ?_)
      exact List.map_congr_left fun branch hmem =>
        planTasks_congr (hsequence _ (Kind.mem_sequences_of_branches hmem))
    | forked hk =>
      have htype : t.type = .forkJoinDynamic := Kind.type_eq_forkJoinDynamic.mpr ⟨_, _, hk⟩
      rw [plan_of_dynamicFork htype, plan_of_dynamicFork htype,
        planForked_untried (hself (Or.inr htype))]
    | @loop condition body hk =>
      have htype : t.type = .doWhile := Kind.type_eq_doWhile.mpr ⟨_, _, hk⟩
      have hlatest : history.latestOfTask t.reference = .ok none := by
        rw [History.latestOfTask, History.latest?_eq_none (hself (Or.inl htype))]
        rfl
      have hbody : ∀ path sources, planTasks settings history path 0 body sources =
          planTasks settings .empty path 0 body sources :=
        fun path sources => planTasks_congr (hsequence body (Kind.mem_sequences_of_loop hk))
      rw [plan_eq, plan_eq, hk]
      dsimp only
      rw [hlatest]
      simp only [Plan.attempt, hbody]
      rfl

theorem Plan.ofTasks_untried {tasks : List Task}
    (h : ∀ t ∈ listing tasks, t.IsExpandable → history.attempts t.reference = []) :
    Plan.ofTasks settings history tasks = Plan.ofTasks settings .empty tasks := by
  rw [Plan.ofTasks, Plan.ofTasks, List.map_congr_left fun t ht =>
    t.plan_untried fun u hu => h u (mem_listing.mpr ⟨t, ht, hu⟩)]

namespace Graph

variable {tasks : List Task}

theorem ofTasks_untried
    (h : ∀ t ∈ listing tasks, t.IsExpandable → history.attempts t.reference = []) :
    (ofTasks settings history tasks).map outline = ofTasks settings .empty tasks := by
  have hplan : Plan.ofTasks settings history tasks = Plan.ofTasks settings .empty tasks :=
    Plan.ofTasks_untried h
  refine ofTasks_relabel Vertex.outline_reference hplan fun g p hp => draw_outline ?_
  rw [hplan] at hp
  exact (Plan.ofTasks_draws_walk settings tasks).silent p hp

/-- **Runs are overlays.** If no loop and no dynamic fork of the tree has been tried, then the
outline of the diagram with a history is the diagram without one, and either both are drawn or both
stop with one error. What is drawn without a history says nothing of attempts. -/
theorem ofTasks_outline
    (h : ∀ t ∈ listing tasks, t.IsExpandable → history.attempts t.reference = []) :
    (ofTasks settings history tasks).map outline = ofTasks settings .empty tasks ∧
      ∀ g, ofTasks settings .empty tasks = .ok g →
        (∀ v ∈ g.vertices, v.results = [] ∧ v.status = none ∧ v.tally = none ∧
          v.standsFor = none) ∧ ∀ e ∈ g.edges, e.label.executed = false := by
  refine ⟨ofTasks_untried h, fun g hg => ?_⟩
  have hself : (ofTasks settings .empty tasks).map outline = ofTasks settings .empty tasks :=
    ofTasks_untried fun _ _ _ => rfl
  rw [hg] at hself
  have hblank : g.outline = g := Except.ok.inj hself
  constructor
  · intro v hv
    rw [← hblank] at hv
    obtain ⟨u, -, rfl⟩ := List.mem_map.mp hv
    exact ⟨rfl, rfl, rfl, rfl⟩
  · intro e he
    rw [← hblank] at he
    obtain ⟨e, -, rfl⟩ := List.mem_map.mp he
    rfl

end Graph

/-- A run that has not come further than the switch before the loop and the dynamic fork. -/
def Sample.begun : History :=
  (History.ofAttempts .running [.bare none "s" .switch .completed,
    .bare none "d" .simple .completed]).toOption.getD .empty

theorem Graph.ofTasks_outline_of_begun :
    (∀ t ∈ listing Sample.tasks, t.IsExpandable → Sample.begun.attempts t.reference = []) ∧
      Sample.begun.attempts "d" ≠ [] ∧
      (ofTasks .standard Sample.begun Sample.tasks).map outline =
        ofTasks .standard .empty Sample.tasks := by
  have huntried : ∀ t ∈ listing Sample.tasks, t.IsExpandable →
      Sample.begun.attempts t.reference = [] := by decide +kernel
  exact ⟨huntried, by decide +kernel, (ofTasks_outline huntried).1⟩

end Flowchart

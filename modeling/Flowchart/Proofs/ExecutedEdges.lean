import Flowchart.Proofs.Drawn
import Flowchart.Proofs.Reachable

/-!
# Which edges are executed

An edge is marked by what its two ends did, except behind a switch. There only the vertex that it
leads to is asked, and the heads of the branches, and so an edge may be marked although the switch
has not run.
-/

namespace Flowchart

/-- A placement that does not speak of attempts of its own comes after placements that are drawn
too and are no switches. -/
def Plan.Grounded (p : Plan) : Prop :=
  ∀ q ∈ p.placements, q.aggregate ≠ none → ∀ s ∈ q.sources,
    ∃ r ∈ p.placements, r.reference = s ∧ r.task.kind.switch? = none

namespace Plan

variable {p : Plan} {ps : List Plan} {next : List String → Plan}

theorem grounded_of_no_aggregate (h : ∀ q ∈ p.placements, q.aggregate = none) : p.Grounded :=
  fun q hq haggregate => absurd (h q hq) haggregate

theorem Grounded.andThen (hp : p.Grounded) (hq : (next p.frontier).Grounded) :
    (p.andThen next).Grounded := by
  intro q hq' haggregate s hs
  rw [placements_andThen] at hq' ⊢
  rcases List.mem_append.mp hq' with hmem | hmem
  · obtain ⟨r, hr, hground⟩ := hp q hmem haggregate s hs
    exact ⟨r, List.mem_append_left _ hr, hground⟩
  · obtain ⟨r, hr, hground⟩ := hq q hmem haggregate s hs
    exact ⟨r, List.mem_append_right _ hr, hground⟩

theorem Grounded.beside (h : ∀ p ∈ ps, p.Grounded) : (beside ps).Grounded := by
  intro q hq haggregate s hs
  rw [placements_beside] at hq ⊢
  obtain ⟨p, hp, hmem⟩ := List.mem_flatMap.mp hq
  obtain ⟨r, hr, hground⟩ := h p hp q hmem haggregate s hs
  exact ⟨r, List.mem_flatMap_of_mem hp hr, hground⟩

/-- What speaks for the children or iterations of a task comes after that task. -/
theorem Grounded.vertex_andThen {placement : Placement} (haggregate : placement.aggregate = none)
    (hswitch : placement.task.kind.switch? = none)
    (hnext : ∀ q ∈ (next [placement.reference]).placements, q.aggregate ≠ none →
      ∀ s ∈ q.sources, s = placement.reference ∨
        ∃ r ∈ (next [placement.reference]).placements, r.reference = s ∧
          r.task.kind.switch? = none) :
    ((vertex placement).andThen next).Grounded := by
  intro q hq haggregate' s hs
  rw [placements_andThen, placements_vertex, frontier_vertex] at hq ⊢
  rcases List.mem_append.mp hq with hmem | hmem
  · rw [List.mem_singleton.mp hmem] at haggregate'
    exact absurd haggregate haggregate'
  · rcases hnext q hmem haggregate' s hs with rfl | ⟨r, hr, hground⟩
    · exact ⟨placement, List.mem_append_left _ List.mem_cons_self, rfl, hswitch⟩
    · exact ⟨r, List.mem_append_right _ hr, hground⟩

end Plan

namespace Task

variable {settings : Settings} {history : History} {path : TreePath} {position : Nat}
  {sources : List String}

theorem planForked_sources {reference : String}
    (hcompletes : (planForked settings history reference path).Completes) :
    ∀ q ∈ (planForked settings history reference path).placements, q.sources = [reference] := by
  intro q hq
  rcases planForked_cases hcompletes with ⟨-, heq⟩ | ⟨-, aggregate, -, heq⟩
  · rw [heq] at hcompletes hq
    rw [Plan.placements_beside] at hq
    obtain ⟨p, hp, hq⟩ := List.mem_flatMap.mp hq
    have hchild := Plan.completes_beside.mp hcompletes p hp
    obtain ⟨child, -, rfl⟩ := List.mem_map.mp hp
    obtain ⟨a, -, heq⟩ := planChild_cases hchild
    rw [heq] at hq
    rw [List.mem_singleton.mp hq]
  · rw [heq] at hq
    rw [List.mem_singleton.mp hq]

theorem planTasks_grounded {tasks : List Task}
    (htasks : ∀ t ∈ tasks, ∀ path position sources,
      (t.plan settings history path position sources).Completes →
        (t.plan settings history path position sources).Grounded)
    (hcompletes : (planTasks settings history path position tasks sources).Completes) :
    (planTasks settings history path position tasks sources).Grounded := by
  induction tasks generalizing position sources with
  | nil => exact Plan.grounded_of_no_aggregate fun q hq => absurd hq List.not_mem_nil
  | cons t rest ih =>
    rw [planTasks_cons] at hcompletes ⊢
    rw [Plan.completes_andThen] at hcompletes
    exact (htasks t List.mem_cons_self path position sources hcompletes.1).andThen
      (ih (fun u hu => htasks u (List.mem_cons_of_mem t hu)) hcompletes.2)

theorem plan_grounded (t : Task) : ∀ path position sources,
    (t.plan settings history path position sources).Completes →
      (t.plan settings history path position sources).Grounded := by
  induction t using Task.induction with
  | step t ih =>
    intro path position sources hcompletes
    have hseq : ∀ s ∈ t.kind.sequences, ∀ {path position sources},
        (planTasks settings history path position s sources).Completes →
          (planTasks settings history path position s sources).Grounded :=
      fun s hs _ _ _ => planTasks_grounded (ih s hs)
    have hself : (Plan.vertex ⟨t, path, some position, none, sources⟩).Grounded := by
      apply Plan.grounded_of_no_aggregate
      intro q hq
      rw [List.mem_singleton.mp hq]
    have hplanned := t.planned hcompletes
    generalize t.plan settings history path position sources = p at hcompletes hplanned ⊢
    cases hplanned with
    | single | final => exact hself
    | branches hne =>
      rw [Plan.completes_andThen, Plan.completes_beside] at hcompletes
      apply hself.andThen
      apply Plan.Grounded.beside
      intro p hp
      have hp' := hcompletes.2 p hp
      obtain ⟨branch, hmem, rfl⟩ := List.mem_map.mp hp
      exact hseq branch.2 (Kind.mem_sequences_of_branches hmem) hp'
    | forked hk =>
      rw [Plan.completes_andThen] at hcompletes
      apply Plan.Grounded.vertex_andThen rfl (by rw [hk]; rfl)
      intro q hq _ s hs
      rw [planForked_sources hcompletes.2 q hq] at hs
      exact Or.inl (List.mem_singleton.mp hs)
    | body hk _ =>
      rw [Plan.completes_andThen, Plan.completes_andThen] at hcompletes
      have hbody := hseq _ (by rw [hk]; exact List.mem_singleton_self _) hcompletes.2.1
      apply hself.andThen
      apply hbody.andThen
      apply Plan.grounded_of_no_aggregate
      intro q hq
      rw [List.mem_singleton.mp hq]
    | iterations hk _ =>
      rw [Plan.completes_andThen] at hcompletes
      obtain ⟨aggregate, -, hiterations⟩ := planIterations_cases hcompletes.2
      apply Plan.Grounded.vertex_andThen rfl (by rw [hk]; rfl)
      rw [hiterations]
      intro q hq _ s hs
      rw [Plan.placements_andThen] at hq ⊢
      rcases List.mem_append.mp hq with hmem | hmem
      · rw [List.mem_singleton.mp hmem] at hs
        exact Or.inl (List.mem_singleton.mp hs)
      · rw [List.mem_singleton.mp hmem] at hs
        exact Or.inr ⟨_, List.mem_append_left _ List.mem_cons_self,
          (List.mem_singleton.mp hs).symm, rfl⟩

end Task

theorem Plan.ofTasks_grounded {settings : Settings} {history : History} {tasks : List Task}
    (hcompletes : (Plan.ofTasks settings history tasks).Completes) :
    (Plan.ofTasks settings history tasks).Grounded := by
  have hbubble : ∀ name reference sources, (Plan.vertex
      ⟨.plain name reference (.marker .terminal), .root, none, none, sources⟩).Grounded := by
    intro name reference sources
    apply grounded_of_no_aggregate
    intro q hq
    rw [List.mem_singleton.mp hq]
  rw [Plan.ofTasks_eq] at hcompletes ⊢
  rw [completes_andThen, completes_andThen] at hcompletes
  have htasks := Task.planTasks_grounded (fun t _ => Task.plan_grounded t) hcompletes.2.1
  exact (hbubble _ _ _).andThen (htasks.andThen (hbubble _ _ _))

theorem Placement.isExecuted_toVertex (p : Placement) (history : History) :
    (p.toVertex history).isExecuted = p.isExecuted (history.latest? p.task.reportRef) := by
  unfold Placement.isExecuted Vertex.isExecuted Placement.toVertex History.latest?
  cases p.aggregate with
  | some aggregate => rfl
  | none => exact Option.isSome_map

theorem Switch.mem_openings {s : Switch (List Task)} {r : String} :
    r ∈ s.openings ↔ s.opensDefault r = true ∨ (s.caseOpenedBy? r).isSome = true := by
  rw [Switch.opensDefault, Switch.caseOpenedBy?, Option.isSome_map, List.find?_isSome, beq_iff_eq]
  simp only [Switch.openings, Switch.sequences, List.mem_filterMap, List.mem_cons,
    exists_eq_or_imp, beq_iff_eq]
  refine or_congr_right ⟨?_, ?_⟩
  · rintro ⟨tasks, htasks, hhead⟩
    obtain ⟨c, hc, rfl⟩ := List.mem_map.mp htasks
    exact ⟨c, hc, hhead⟩
  · rintro ⟨c, hc, hhead⟩
    exact ⟨c.2, List.mem_map_of_mem hc, hhead⟩

/-- An edge out of a switch is taken towards the head of a branch, and past the switch when no
branch was entered. -/
theorem Switch.taken_iff {s : Switch (List Task)} {history : History} {r : String} :
    s.taken history r = true ↔
      r ∈ s.openings ∨ ∀ head ∈ s.openings, history.latest? head = none := by
  rw [Switch.mem_openings, Switch.taken, Bool.or_eq_true, Bool.or_eq_true]
  simp

/-- What comes after a switch speaks of its own attempts. -/
theorem Diagram.aggregate_of_switch {run : Run} {settings : Settings} {d : Diagram}
    (hd : Diagram.ofRun run settings = .ok d) (hnodup : d.plan.references.Nodup)
    {p : Placement} (hp : p ∈ d.plan.placements) {source : String} (hsource : source ∈ p.sources)
    {u : Vertex} (hu : d.graph.vertex? source = some u) {s : Switch (List Task)}
    (hswitch : u.task.kind.switch? = some s) : p.aggregate = none := by
  have hg := (Reachable.ofRun hd).graph_eq
  have hshows := Graph.ofTasks_shows hg hnodup
  by_contra haggregate
  obtain ⟨r, hr, hreference, hplain⟩ :=
    Plan.ofTasks_grounded (Graph.ofTasks_completes hg) p hp haggregate source hsource
  obtain ⟨hmem, hname⟩ := Graph.vertex?_ok hu
  rw [hshows.vertices] at hmem
  obtain ⟨q, hq, rfl⟩ := List.mem_map.mp hmem
  obtain rfl : q = r := List.inj_on_of_nodup_map hnodup (List.mem_filter.mp hq).1 hr
    (Eq.trans hname hreference.symm)
  exact absurd (hswitch.symm.trans hplain) (Option.some_ne_none s)

/-- **Executed edges.** An edge that is marked executed leads to a vertex that is executed. It
comes from one as well, unless it leaves a switch that has not run: then it is marked when it opens
a branch, or when no branch was entered. -/
theorem Diagram.executed_iff {run : Run} {settings : Settings} {d : Diagram}
    (hd : Diagram.ofRun run settings = .ok d) (hnodup : d.plan.references.Nodup) {e : Edge}
    (he : e ∈ d.graph.edges) :
    ∃ u v, d.graph.vertex? e.source = some u ∧ d.graph.vertex? e.target = some v ∧
      (e.label.executed = true → v.isExecuted = true) ∧
      (e.label.executed = true ∧ u.isExecuted = false ↔
        u.isExecuted = false ∧ v.isExecuted = true ∧ ∃ s, u.task.kind.switch? = some s ∧
          (e.target ∈ s.openings ∨ ∀ head ∈ s.openings, d.history.latest? head = none)) := by
  have hg := (Reachable.ofRun hd).graph_eq
  have hshows := Graph.ofTasks_shows hg hnodup
  obtain ⟨p, hp, hsource, htarget, hlabel⟩ := hshows.labels e he
  have hshown : (d.plan.shown.map Placement.reference).Nodup :=
    hnodup.sublist (List.filter_sublist.map _)
  have hv := hshows.vertex?_eq hshown hp
  rw [← htarget] at hv
  obtain ⟨u, hu, hrule⟩ := Graph.edgeFrom_ok hlabel
  refine ⟨u, p.toVertex d.history, hu, hv, ?_⟩
  rw [p.isExecuted_toVertex]
  rcases hrule with ⟨hswitch, -, hexecuted⟩ | ⟨s, hswitch, -, hexecuted⟩
  · rw [hexecuted, hswitch, Bool.and_eq_true]
    refine ⟨And.right, ?_, ?_⟩
    · rintro ⟨⟨hrun, -⟩, hidle⟩
      rw [hidle] at hrun
      cases hrun
    · rintro ⟨-, -, s, hnone, -⟩
      cases hnone
  · have hown := aggregate_of_switch hd hnodup (List.mem_filter.mp hp).1 hsource hu hswitch
    have hend : p.isExecuted (d.history.latest? p.task.reportRef) =
        (d.history.latest? p.task.reportRef).isSome := by
      rw [Placement.isExecuted, hown]
    rw [hexecuted, hswitch, hend, Bool.and_eq_true, ← htarget, Switch.taken_iff]
    refine ⟨And.left, ?_, ?_⟩
    · rintro ⟨⟨hrun, htaken⟩, hidle⟩
      exact ⟨hidle, hrun, s, rfl, htaken⟩
    · rintro ⟨hidle, hrun, _, ⟨⟩, htaken⟩
      exact ⟨⟨hrun, htaken⟩, hidle⟩

namespace Sample

/-- A switch in a case that was not entered, and an empty default behind it. -/
def nested : List Task :=
  [.ofRef "s" (.switch .switch
      { Switch.empty [.ofRef "d" (.worker .simple)] with
        cases := [("a", [.ofRef "i" (.switch .switch
          { Switch.empty [] with cases := [("x", [.ofRef "p" (.worker .simple)])] })])] }),
    .ofRef "z" (.worker .simple)]

def nestedRun : Run where
  execution := {
    id := ""
    status := .running
    definition := .ofTasks "w" nested
    startTime := none
    endTime := none
    reason := none }
  attempts := [.bare none "s" .switch .completed, .bare none "d" .simple .completed,
    .bare none "z" .simple .completed]

def nestedDiagram : Diagram :=
  (Diagram.ofRun nestedRun .standard).toOption.getD
    ⟨nestedRun.execution.definition, none, .empty, .standard, .empty⟩

end Sample

/-- The inner switch has not run, and the edge behind it is marked. -/
theorem Diagram.executed_iff_of_nested :
    Diagram.ofRun Sample.nestedRun .standard = .ok Sample.nestedDiagram ∧
      Sample.nestedDiagram.plan.references.Nodup ∧
      ∃ e ∈ Sample.nestedDiagram.graph.edges, e.label.executed = true ∧
        ∃ u v, Sample.nestedDiagram.graph.vertex? e.source = some u ∧
          Sample.nestedDiagram.graph.vertex? e.target = some v ∧ u.isExecuted = false ∧
            v.isExecuted = true ∧ ∃ s, u.task.kind.switch? = some s ∧ (e.target ∈ s.openings ∨
              ∀ head ∈ s.openings, Sample.nestedDiagram.history.latest? head = none) := by
  have hd : Diagram.ofRun Sample.nestedRun .standard = .ok Sample.nestedDiagram :=
    Outcome.eq_ok_of_isOk (by decide +kernel) _
  have hnodup : Sample.nestedDiagram.plan.references.Nodup := by decide +kernel
  have he : (⟨"i", "z", ⟨true, some "default"⟩, 5⟩ : Edge) ∈ Sample.nestedDiagram.graph.edges := by
    decide +kernel
  have hidle : (Sample.nestedDiagram.graph.vertex? "i").map (·.isExecuted) = some false := by
    decide +kernel
  obtain ⟨u, v, hu, hv, -, hiff⟩ := Diagram.executed_iff hd hnodup he
  rw [hu] at hidle
  have hu' : u.isExecuted = false := Option.some.inj hidle
  exact ⟨hd, hnodup, _, he, rfl, u, v, hu, hv, hiff.mp ⟨rfl, hu'⟩⟩

end Flowchart

import Flowchart.Proofs.CaseLabels
import Flowchart.Proofs.Positions

/-!
# The exit that a switch was left by

An edge out of a switch is marked by the attempts of what it leads to. The head of a branch is drawn
as itself and speaks of its own attempts. So if no two heads have been attempted, the edges to heads
are marked for the one that has. What follows the switch is asked only if none has.
-/

namespace Flowchart

theorem eq_of_countP_le_one {α : Type} {p : α → Bool} {as : List α} (h : as.countP p ≤ 1) {a b : α}
    (ha : a ∈ as) (hb : b ∈ as) (hpa : p a = true) (hpb : p b = true) : a = b := by
  have ha' : a ∈ as.filter p := List.mem_filter.mpr ⟨ha, hpa⟩
  have hb' : b ∈ as.filter p := List.mem_filter.mpr ⟨hb, hpb⟩
  rw [List.countP_eq_length_filter] at h
  cases hfilter : as.filter p with
  | nil =>
    rw [hfilter] at ha'
    cases ha'
  | cons c rest =>
    rw [hfilter, List.length_cons] at h
    obtain rfl : rest = [] := List.eq_nil_of_length_eq_zero (by omega)
    rw [hfilter, List.mem_singleton] at ha' hb'
    rw [ha', hb']

section

variable {settings : Settings} {history : History} {tasks : List Task} {g : Graph} {t : Task}

/-- The head of a branch speaks of its own attempts, for it is no bar of a loop. -/
theorem Graph.reportRef_of_head (hg : Graph.ofTasks settings history tasks = .ok g)
    (hnodup : (Plan.ofTasks settings history tasks).references.Nodup)
    (hends : Throughout (·.type ≠ .doWhileEnd) tasks) (ht : t ∈ visibleTasks history tasks)
    (hopen : t.isRunLoop history = false) {head : String} (hhead : head ∈ t.kind.heads) {v : Vertex}
    (hv : g.vertex? head = some v) : v.task.reportRef = head := by
  obtain ⟨s, hs, hhead⟩ := Kind.mem_heads.mp hhead
  obtain ⟨u, hu, rfl⟩ := Option.map_eq_some_iff.mp hhead
  have hvisible : u ∈ visibleTasks history tasks := by
    refine mem_visibleTasks_of_visible ht (Task.mem_visible_of_sequence hopen hs ?_)
    exact List.mem_flatMap_of_mem (List.mem_of_head? hu) u.mem_visible_self
  obtain ⟨hmem, hname⟩ := vertex?_ok hv
  rw [(ofTasks_shows hg hnodup).vertices] at hmem
  obtain ⟨p, hp, rfl⟩ := List.mem_map.mp hmem
  have hself : (p.toVertex history).task = u :=
    Plan.task_of_visible (ofTasks_completes hg) hnodup hvisible (List.mem_filter.mp hp).1 hname
  rw [hself]
  exact Task.DrawnAs.reportRef_eq (Or.inl rfl) (hends u (mem_listing_of_visible hvisible))

/-- An edge out of a switch is executed if what it leads to has an attempt, and either it leads to a
head or no head has one. -/
theorem Graph.executed_of_switch (hg : Graph.ofTasks settings history tasks = .ok g)
    (hnodup : (Plan.ofTasks settings history tasks).references.Nodup)
    (hends : Throughout (·.type ≠ .doWhileEnd) tasks) (ht : t ∈ visibleTasks history tasks)
    {form : SwitchForm} {s : Switch (List Task)} (hk : t.kind = .switch form s) {e : Edge}
    (he : e ∈ g.edges) (hsource : e.source = t.reference) :
    ∃ v, g.vertex? e.target = some v ∧ (e.target ∈ s.openings → v.task.reportRef = e.target) ∧
      (e.label.executed = true ↔ (history.latest? v.task.reportRef).isSome = true ∧
        (e.target ∈ s.openings ∨ ∀ head ∈ s.openings, history.latest? head = none)) := by
  obtain ⟨-, v, hv, hexecuted⟩ := label_of_switch hg hnodup ht hk he hsource
  refine ⟨v, hv, fun hhead => ?_, ?_⟩
  · have htype := (Kind.type_of_branches (Kind.branches_of_switch hk)).1
    rw [← Kind.heads_of_switch hk] at hhead
    exact reportRef_of_head hg hnodup hends ht (Task.isRunLoop_of_type htype) hhead hv
  · rw [hexecuted, Bool.and_eq_true, Switch.taken_iff]

end

namespace Diagram

variable {d : Diagram} {t : Task} {form : SwitchForm} {s : Switch (List Task)}

/-- **The exit taken.** If no two heads of a switch have attempts, at most one edge out of it is
executed. It is the one to the head that has. If none has, it can only be the one to what follows
the switch, and that is executed if what it leads to has an attempt. -/
theorem Reachable.taken_exit (hd : d.Reachable) (hnodup : d.plan.references.Nodup)
    (hends : Throughout (·.type ≠ .doWhileEnd) d.tasks)
    (ht : t ∈ visibleTasks d.history d.tasks) (hk : t.kind = .switch form s)
    (hone : s.openings.countP (fun head => (d.history.latest? head).isSome) ≤ 1) :
    d.graph.edges.countP (fun e => e.source = t.reference ∧ e.label.executed = true) ≤ 1 ∧
    (∀ head ∈ s.openings, (d.history.latest? head).isSome = true →
      d.graph.Joins t.reference head ∧ ∀ e ∈ d.graph.edges, e.source = t.reference →
        (e.label.executed = true ↔ e.target = head)) ∧
    ((∀ head ∈ s.openings, d.history.latest? head = none) →
      ∃ next, FollowedBy d.history d.tasks t next ∧
        ∀ e ∈ d.graph.edges, e.source = t.reference →
          (e.label.executed = true ↔ e.target = next.getD finalBubble ∧
            ∃ v, d.graph.vertex? e.target = some v ∧
              (d.history.latest? v.task.reportRef).isSome = true)) := by
  have hg := hd.graph_eq
  obtain ⟨next, hfollowed, -, -, hjoins⟩ :=
    Graph.exits hd.bound.filed hg hnodup ht (Kind.branches_of_switch hk)
  simp only [Kind.heads_of_switch hk] at hjoins
  -- two edges that are both executed have the same ends
  have hcount : ∀ target, (∀ e ∈ d.graph.edges, e.source = t.reference → e.label.executed = true →
      e.target = target) →
      d.graph.edges.countP (fun e => e.source = t.reference ∧ e.label.executed = true) ≤ 1 := by
    intro target htarget
    refine Graph.countP_edges_le_one hg (t.reference, target) fun e he h => ?_
    obtain ⟨hsource, hexecuted⟩ := of_decide_eq_true h
    rw [Edge.ends, hsource, htarget e he hsource hexecuted]
  by_cases htried : ∃ head ∈ s.openings, (d.history.latest? head).isSome = true
  · obtain ⟨head, hhead, hsome⟩ := htried
    have honly : ∀ e ∈ d.graph.edges, e.source = t.reference →
        (e.label.executed = true ↔ e.target = head) := by
      intro e he hsource
      obtain ⟨v, -, hself, hexecuted⟩ :=
        Graph.executed_of_switch hg hnodup hends ht hk he hsource
      rw [hexecuted]
      constructor
      · rintro ⟨hlatest, hopens | hnone⟩
        · rw [hself hopens] at hlatest
          exact eq_of_countP_le_one hone hopens hhead hlatest hsome
        · rw [hnone head hhead] at hsome
          cases hsome
      · rintro rfl
        rw [hself hhead]
        exact ⟨hsome, Or.inl hhead⟩
    refine ⟨hcount head fun e he hsource => (honly e he hsource).mp, ?_, fun hnone => ?_⟩
    · intro head' hhead' hsome'
      obtain rfl : head' = head := eq_of_countP_le_one hone hhead' hhead hsome' hsome
      exact ⟨(hjoins head').mpr (Or.inl hhead), honly⟩
    · rw [hnone head hhead] at hsome
      cases hsome
  · have hnone : ∀ head ∈ s.openings, d.history.latest? head = none := fun head hhead =>
      Option.not_isSome_iff_eq_none.mp fun hsome => htried ⟨head, hhead, hsome⟩
    have hpast : ∀ e ∈ d.graph.edges, e.source = t.reference →
        (e.label.executed = true ↔ e.target = next.getD finalBubble ∧
          ∃ v, d.graph.vertex? e.target = some v ∧
            (d.history.latest? v.task.reportRef).isSome = true) := by
      intro e he hsource
      obtain ⟨v, hv, hself, hexecuted⟩ :=
        Graph.executed_of_switch hg hnodup hends ht hk he hsource
      rw [hexecuted, hv]
      constructor
      · rintro ⟨hlatest, -⟩
        refine ⟨?_, v, rfl, hlatest⟩
        rcases (hjoins e.target).mp ⟨e, he, hsource, rfl⟩ with hopens | ⟨-, htarget⟩
        · rw [hself hopens, hnone _ hopens] at hlatest
          cases hlatest
        · exact htarget
      · rintro ⟨-, _, ⟨⟩, hlatest⟩
        exact ⟨hlatest, Or.inr hnone⟩
    refine ⟨hcount _ fun e he hsource h => ((hpast e he hsource).mp h).1, ?_,
      fun _ => ⟨next, hfollowed, hpast⟩⟩
    exact fun head hhead hsome => absurd ⟨head, hhead, hsome⟩ htried

end Diagram

/-- The outer switch was left towards its default, and not towards the case beside it. -/
theorem Diagram.Reachable.taken_exit_of_nested :
    Diagram.ofRun Sample.nestedRun .standard = .ok Sample.nestedDiagram ∧
      (Sample.nestedDiagram.history.latest? "d").isSome = true ∧
      Sample.nestedDiagram.graph.Joins "s" "d" ∧
      ∀ e ∈ Sample.nestedDiagram.graph.edges, e.source = "s" →
        (e.label.executed = true ↔ e.target = "d") := by
  have hd : Diagram.ofRun Sample.nestedRun .standard = .ok Sample.nestedDiagram :=
    Outcome.eq_ok_of_isOk (by decide +kernel) _
  have htasks : Sample.nestedDiagram.tasks = Sample.nested := by decide +kernel
  obtain ⟨t, s, hfirst, href, hk, hopenings⟩ : ∃ t s, Sample.nested.head? = some t ∧
      t.reference = "s" ∧ t.kind = .switch .switch s ∧ s.openings = ["d", "i"] :=
    ⟨_, _, rfl, rfl, rfl, rfl⟩
  have ht : t ∈ visibleTasks Sample.nestedDiagram.history Sample.nestedDiagram.tasks := by
    rw [htasks]
    exact List.mem_flatMap_of_mem (List.mem_of_head? hfirst) t.mem_visible_self
  have hone : s.openings.countP
      (fun head => (Sample.nestedDiagram.history.latest? head).isSome) ≤ 1 := by
    rw [hopenings]
    decide +kernel
  have hrun : (Sample.nestedDiagram.history.latest? "d").isSome = true := by decide +kernel
  obtain ⟨-, hhead, -⟩ := Diagram.Reachable.taken_exit (.ofRun hd) (by decide +kernel)
    (by decide +kernel) ht hk hone
  rw [hopenings, href] at hhead
  obtain ⟨hjoins, hexecuted⟩ := hhead "d" List.mem_cons_self hrun
  exact ⟨hd, hrun, hjoins, hexecuted⟩

end Flowchart

import Flowchart.Proofs.Accounts

/-!
# The iterations of a loop

The vertex for the iterations of a loop that has run lists what was recorded under the name of a
task in its body with two underscores behind it. Nothing else is known of an iteration. So what is
listed belongs to that loop alone as long as the names in the tree keep to themselves: no task
outside has such a name, and no name in the body of one loop is another's in the body of a second
loop with underscores behind it.
-/

namespace Flowchart

/-- Whatever is the name of an iteration of `q` is one of an iteration of `p` as well. -/
def Collides (p q : String) : Prop := q = p ++ "_" ∨ isIterationOf p q = true

instance (p q : String) : Decidable (Collides p q) := inferInstanceAs (Decidable (_ ∨ _))

section

variable {p q r : String}

theorem isIterationOf_iff : isIterationOf p r = true ↔ p.toList ++ ['_', '_'] <+: r.toList := by
  rw [isIterationOf, List.isPrefixOf_iff_prefix, String.toList_append]
  rfl

theorem Collides.isIterationOf (h : Collides p q) (hr : isIterationOf q r = true) :
    Flowchart.isIterationOf p r = true := by
  rw [isIterationOf_iff] at hr ⊢
  apply List.IsPrefix.trans _ hr
  rcases h with rfl | h
  · rw [String.toList_append]
    exact ⟨['_'], by simp⟩
  · exact (isIterationOf_iff.mp h).trans (List.prefix_append _ _)

theorem collides_of_startsWith (h : p.toList ++ ['_', '_'] <+: q.toList ++ ['_', '_']) (hne : p ≠ q) :
    Collides p q := by
  obtain ⟨s, hs⟩ := h
  rcases List.eq_nil_or_concat' s with rfl | ⟨s, c, rfl⟩
  · rw [List.append_nil] at hs
    exact absurd (String.toList_inj.mp (List.append_cancel_right hs)) hne
  rcases List.eq_nil_or_concat' s with rfl | ⟨s, c', rfl⟩
  · have hsplit : (p.toList ++ ['_']) ++ ['_', c] = q.toList ++ ['_', '_'] := by simpa using hs
    left
    rw [← String.toList_inj, String.toList_append]
    exact (List.append_inj' hsplit rfl).1.symm
  · have hsplit : (p.toList ++ ['_', '_'] ++ s) ++ [c', c] = q.toList ++ ['_', '_'] := by
      simpa using hs
    right
    rw [isIterationOf_iff, ← (List.append_inj' hsplit rfl).1]
    exact List.prefix_append _ _

/-- One name is that of iterations of two tasks only if the names of these collide. -/
theorem collides_of_isIterationOf (hp : isIterationOf p r = true) (hq : isIterationOf q r = true)
    (hne : p ≠ q) : Collides p q ∨ Collides q p := by
  rw [isIterationOf_iff] at hp hq
  rcases List.prefix_or_prefix_of_prefix hp hq with h | h
  · exact Or.inl (collides_of_startsWith h hne)
  · exact Or.inr (collides_of_startsWith h hne.symm)

end

/-- The references of the attempts, in the order of their first arrival. -/
def Run.references (run : Run) : List String := (run.attempts.map (·.reference)).eraseDups

/-- What was recorded of the tasks in the body of a loop. -/
def Task.rounds (run : Run) (l : Task) : List String :=
  run.references.filter fun r => l.descendants.any fun u => isIterationOf u.reference r

section

variable {run : Run} {history : History} {l : Task} {r : String}

theorem Run.mem_references : r ∈ run.references ↔ run.attemptsOf r ≠ [] := by
  simp [references, List.mem_eraseDups, attemptsOf_eq_nil]

theorem Task.mem_rounds : r ∈ l.rounds run ↔
    run.attemptsOf r ≠ [] ∧ ∃ u ∈ l.descendants, isIterationOf u.reference r = true := by
  rw [rounds, List.mem_filter, Run.mem_references, List.any_eq_true]

theorem History.latestOfTask_of_ofReferences {references : List String} {aggregate : Aggregate}
    (hof : Aggregate.ofReferences history references = .ok aggregate) (hr : r ∈ references) :
    ∃ a, history.latestOfTask r = .ok (some a) := by
  rw [Aggregate.ofReferences_eq, Outcome.bind_eq_ok] at hof
  obtain ⟨statuses, hstatuses, -⟩ := hof
  obtain ⟨status, -, hstatus⟩ := (Outcome.mem_of_mapM hstatuses).2 r hr
  obtain ⟨latest, hlatest, hstatus⟩ := Outcome.bind_eq_ok.mp hstatus
  cases latest with
  | none => cases hstatus
  | some a => exact ⟨a, hlatest⟩

/-- A bubble that has run is no iteration, as no vertex could be drawn for it. -/
theorem Task.iterations_eq
    (hbind : History.ofAttempts run.execution.status run.attempts = .ok history)
    {aggregate : Aggregate}
    (hof : Aggregate.ofReferences history (l.iterations history) = .ok aggregate) :
    l.iterations history = l.rounds run := by
  have hreferences := History.references_eq hbind
  rw [List.map_append, List.eraseDups_append] at hreferences
  rw [iterations, hreferences, List.filter_append, rounds, ← Run.references, List.append_right_eq_self,
    List.filter_eq_nil_iff]
  intro r hr hiteration
  have hmem : r ∈ l.iterations history := by
    rw [iterations, hreferences, List.mem_filter]
    exact ⟨List.mem_append_right _ hr, hiteration⟩
  obtain ⟨a, ha⟩ := History.latestOfTask_of_ofReferences hof hmem
  have hnone := (History.statusOf?_of_latest hbind ha).1
  rw [History.bubbleAttempts, ← History.filter_bubbles, List.filter_eq_nil_iff] at hnone
  rw [List.mem_eraseDups, List.removeAll, List.mem_filter] at hr
  obtain ⟨b, hb, rfl⟩ := List.mem_map.mp hr.1
  exact hnone b hb (decide_eq_true rfl)

end

section

variable {history : History} {tasks s : List Task} {l m t u : Task}

theorem TreePath.Leads.mem_visible {segments : List Segment}
    (h : TreePath.Leads history segments tasks s) (hu : u ∈ s) :
    u ∈ visibleTasks history tasks := by
  induction h with
  | here tasks => exact List.mem_flatMap_of_mem hu u.mem_visible_self
  | @step segment rest tasks q s t ht hopen hq _ ih =>
    have hsequence : q ∈ t.kind.sequences := by
      rw [Kind.sequences_eq_parts]
      exact List.mem_map_of_mem (f := (·.2)) (Kind.mem_parts_of_get? hq)
    have hvisible := Task.mem_visible_of_sequence hopen hsequence (ih hu)
    exact List.mem_flatMap_of_mem (List.mem_of_getElem? ht) hvisible

/-- A task that a walk comes to, and what the walk passes over with it. -/
def Task.passed (history : History) (t : Task) : List Task :=
  t :: if t.isRunLoop history then t.descendants else []

theorem Task.visible_flatMap_passed (t : Task) :
    (t.visible history).flatMap (passed history) = t.family := by
  induction t using Task.induction with
  | step t ih =>
    rw [visible_eq, List.flatMap_cons, family_eq, passed]
    cases t.isRunLoop history with
    | true => simp
    | false =>
      have hsequences : ∀ s ∈ t.kind.sequences,
          (visibleTasks history s).flatMap (passed history) = s.flatMap family := by
        intro s hs
        rw [visibleTasks, List.flatMap_assoc]
        exact List.flatMap_congr fun u hu => ih s hs u hu
      simp only [Bool.false_eq_true, if_false, List.singleton_append]
      rw [List.flatMap_assoc, descendants]
      exact congrArg (t :: ·) (List.flatMap_congr hsequences)

/-- A walk comes to each task once, or passes over it once. -/
theorem visibleTasks_flatMap_passed (history : History) (tasks : List Task) :
    (visibleTasks history tasks).flatMap (Task.passed history) = listing tasks := by
  rw [visibleTasks, List.flatMap_assoc, listing]
  exact List.flatMap_congr fun t _ => t.visible_flatMap_passed

theorem mem_listing_of_passed (hl : l ∈ visibleTasks history tasks) (ht : t ∈ l.passed history) :
    t ∈ listing tasks := by
  rw [← visibleTasks_flatMap_passed history]
  exact List.mem_flatMap_of_mem hl ht

theorem Task.mem_passed_of_body (hrun : l.isRunLoop history = true) (ht : t ∈ l.descendants) :
    t ∈ l.passed history := by
  rw [passed, if_pos hrun]
  exact List.mem_cons_of_mem l ht

/-- Two loops that have run and that a walk comes to have no name in both of their bodies. -/
theorem eq_of_bodies (hnodup : (treeRefs tasks).Nodup) (hl : l ∈ visibleTasks history tasks)
    (hm : m ∈ visibleTasks history tasks) (hlrun : l.isRunLoop history = true)
    (hmrun : m.isRunLoop history = true) (ht : t ∈ l.descendants) (hu : u ∈ m.descendants)
    (heq : t.reference = u.reference) : l = m := by
  rw [treeRefs, ← visibleTasks_flatMap_passed history, List.map_flatMap] at hnodup
  apply eq_of_mem_flatMap hnodup hl hm (List.mem_map_of_mem (Task.mem_passed_of_body hlrun ht))
  rw [heq]
  exact List.mem_map_of_mem (Task.mem_passed_of_body hmrun hu)

end

/-! ### What is said to be an iteration

A loop counts whatever bears the name of an iteration of its body, wherever it comes from. That this
does no harm is said twice below: by `CountsOwn` of what is drawn, and by `NamesApart` of the names
of tasks and attempts.
-/

theorem loopChildrenRef_inj {r r' : String} (h : loopChildrenRef r = loopChildrenRef r') :
    r = r' := by
  rw [loopChildrenRef, loopChildrenRef, ← String.toList_inj, String.toList_append,
    String.toList_append] at h
  exact String.toList_inj.mp (List.append_cancel_right h)

/-- What stands for the iterations of a loop is drawn for a loop that has run and that a walk comes
to, and it lists what was recorded of the body. -/
theorem Graph.exists_rounds {run : Run} {settings : Settings} {history : History}
    {tasks : List Task} {g : Graph} {v : Vertex} {r : String} {refs : List String}
    (hbind : History.ofAttempts run.execution.status run.attempts = .ok history)
    (hg : Graph.ofTasks settings history tasks = .ok g) (hkeyed : Throughout Kind.Keyed tasks)
    (hv : v ∈ g.vertices) (htask : v.task = Task.loopStack r) (hstands : v.standsFor = some refs) :
    ∃ l ∈ visibleTasks history tasks, l.reference = r ∧ l.isRunLoop history = true ∧
      refs = l.rounds run := by
  obtain ⟨p, hp, rfl⟩ := mem_vertices_ofTasks hg hv
  have hsaid : p.aggregate.bind (·.standsFor) = some refs := by
    rw [← hstands, Placement.toVertex]
    cases p.aggregate <;> rfl
  rcases Plan.ofTasks_drawnIn (ofTasks_completes hg) hp with
    ⟨_, _, u, hu, horigin, hplace⟩ | ⟨-, hnone, -⟩
  · obtain ⟨segments, s, rfl, hleads, hfound⟩ := hplace hkeyed
    cases horigin with
    | own | child | bar | closingBar => cases hsaid
    | children => cases congrArg Task.kind htask
    | iterations hk hlatest hof =>
      have hrun : u.isRunLoop history = true := by
        rw [Task.isRunLoop_of_loop hk, History.latest?_eq_of_latestOfTask hlatest]
        rfl
      refine ⟨u, hleads.mem_visible (List.mem_of_getElem? hfound),
        loopChildrenRef_inj (congrArg Task.reference htask), hrun, ?_⟩
      rw [← Task.iterations_eq hbind hof]
      obtain ⟨t, -, rfl⟩ := History.tallied_of_ofReferences hbind hof
      exact (Option.some.inj hsaid).symm
  · rw [hnone] at hsaid
    cases hsaid

namespace Diagram

/-- The loops that have run and are drawn, each with what its iterations are said to be. -/
def gathered (d : Diagram) : List (Task × List String) :=
  (listing d.tasks).flatMap fun l => d.graph.vertices.filterMap fun v =>
    if l.type = .doWhile ∧ v.task = Task.loopStack l.reference then v.standsFor.map (l, ·)
    else none

/-- Nothing is said to be an iteration of a loop that belongs elsewhere. -/
structure CountsOwn (d : Diagram) : Prop where
  own : ∀ p ∈ d.gathered, ∀ t ∈ listing d.tasks, t.reference ∈ p.2 → t ∈ p.1.descendants
  once : ∀ p ∈ d.gathered, ∀ q ∈ d.gathered, ∀ r ∈ p.2, r ∈ q.2 → p.1 = q.1

/-- What has run bears no name by which it could be taken for something else. -/
structure NamesApart (d : Diagram) (run : Run) : Prop where
  /-- A task outside a loop is not named like an iteration of a task in the body. -/
  own : ∀ p ∈ d.gathered, ∀ u ∈ p.1.descendants, ∀ t ∈ listing d.tasks,
    run.attemptsOf t.reference ≠ [] → isIterationOf u.reference t.reference = true →
      t ∈ p.1.descendants
  /-- Where names in two bodies collide, there are no iterations that could be taken for others. -/
  once : ∀ p ∈ d.gathered, ∀ q ∈ d.gathered, ∀ t ∈ p.1.descendants, ∀ u ∈ q.1.descendants,
    Collides t.reference u.reference →
      (∃ a ∈ run.attempts, isIterationOf u.reference a.reference = true) → p.1 = q.1

variable {run : Run} {settings : Settings} {d : Diagram} {p : Task × List String}

theorem mem_gathered : p ∈ d.gathered ↔ p.1 ∈ listing d.tasks ∧ p.1.type = .doWhile ∧
    ∃ v ∈ d.graph.vertices, v.task = Task.loopStack p.1.reference ∧ v.standsFor = some p.2 := by
  obtain ⟨l, refs⟩ := p
  simp only [gathered, List.mem_flatMap, List.mem_filterMap]
  constructor
  · rintro ⟨l', hl', v, hv, hp⟩
    split at hp
    · next h =>
      obtain ⟨refs', hrefs', heq⟩ := Option.map_eq_some_iff.mp hp
      cases heq
      exact ⟨hl', h.1, v, hv, h.2, hrefs'⟩
    · cases hp
  · rintro ⟨hl, htype, v, hv, htask, hstands⟩
    exact ⟨l, hl, v, hv, by rw [if_pos ⟨htype, htask⟩, hstands, Option.map_some]⟩

theorem tasks_of_ofRun (hd : Diagram.ofRun run settings = .ok d) :
    d.tasks = run.execution.definition.tasks := by
  obtain ⟨history, -, hdraw⟩ := ofRun_ok hd
  obtain ⟨graph, -, rfl⟩ := draw_ok hdraw
  rfl

section

variable (hd : Diagram.ofRun run settings = .ok d)
  (hkeyed : Throughout Kind.Keyed run.execution.definition.tasks)
  (hnodup : (treeRefs run.execution.definition.tasks).Nodup)

include hd hkeyed hnodup

theorem gathered_eq (hp : p ∈ d.gathered) :
    p.1 ∈ visibleTasks d.history d.tasks ∧ p.1.isRunLoop d.history = true ∧
      p.2 = p.1.rounds run := by
  obtain ⟨hl, -, v, hv, htask, hstands⟩ := mem_gathered.mp hp
  obtain ⟨history, hbind, hdraw⟩ := ofRun_ok hd
  obtain ⟨graph, hg, rfl⟩ := draw_ok hdraw
  obtain ⟨u, hu, href, hrun, hrefs⟩ := Graph.exists_rounds hbind hg hkeyed hv htask hstands
  have hlisted := mem_listing_of_passed hu List.mem_cons_self
  obtain rfl := List.inj_on_of_nodup_map hnodup hlisted hl href
  exact ⟨hu, hrun, hrefs⟩

theorem NamesApart.countsOwn (hnames : d.NamesApart run) : d.CountsOwn where
  own := by
    intro p hp t ht hlisted
    rw [(gathered_eq hd hkeyed hnodup hp).2.2, Task.mem_rounds] at hlisted
    obtain ⟨hran, u, hu, hiteration⟩ := hlisted
    exact hnames.own p hp u hu t ht hran hiteration
  once := by
    intro p hp q hq r hrp hrq
    obtain ⟨hpvisible, hprun, hprefs⟩ := gathered_eq hd hkeyed hnodup hp
    obtain ⟨hqvisible, hqrun, hqrefs⟩ := gathered_eq hd hkeyed hnodup hq
    rw [hprefs, Task.mem_rounds] at hrp
    rw [hqrefs, Task.mem_rounds] at hrq
    obtain ⟨hran, t, ht, htr⟩ := hrp
    obtain ⟨-, u, hu, hur⟩ := hrq
    obtain ⟨a, ha, rfl⟩ : ∃ a ∈ run.attempts, a.reference = r := by
      simpa [Run.attemptsOf_eq_nil] using hran
    by_cases heq : t.reference = u.reference
    · rw [← tasks_of_ofRun hd] at hnodup
      exact eq_of_bodies hnodup hpvisible hqvisible hprun hqrun ht hu heq
    rcases collides_of_isIterationOf htr hur heq with hcollides | hcollides
    · exact hnames.once p hp q hq t ht u hu hcollides ⟨a, ha, hur⟩
    · exact (hnames.once q hq p hp u hu t ht hcollides ⟨a, ha, htr⟩).symm

/-- **The iterations of a loop.** Where the iterations of a loop are drawn as one vertex, it lists
the references that were recorded under a name in the body with two underscores behind it, in the
order of their first arrival. This counts no task outside the body, and nothing that another loop
counts as well, if and only if what has run bears no name by which it could be taken for
something else. -/
theorem countsOwn_iff :
    (∀ p ∈ d.gathered, p.2 = p.1.rounds run) ∧ (d.CountsOwn ↔ d.NamesApart run) := by
  have hrounds : ∀ p ∈ d.gathered, p.2 = p.1.rounds run := fun p hp =>
    (gathered_eq hd hkeyed hnodup hp).2.2
  refine ⟨hrounds, fun hcounts => ⟨?_, ?_⟩, NamesApart.countsOwn hd hkeyed hnodup⟩
  · intro p hp u hu t ht hran hiteration
    apply hcounts.own p hp t ht
    rw [hrounds p hp, Task.mem_rounds]
    exact ⟨hran, u, hu, hiteration⟩
  · rintro p hp q hq t ht u hu hcollides ⟨a, ha, hiteration⟩
    have hran : run.attemptsOf a.reference ≠ [] := fun hnone =>
      Run.attemptsOf_eq_nil.mp hnone a ha rfl
    apply hcounts.once p hp q hq a.reference
    · rw [hrounds p hp, Task.mem_rounds]
      exact ⟨hran, t, ht, hcollides.isIterationOf hiteration⟩
    · rw [hrounds q hq, Task.mem_rounds]
      exact ⟨hran, u, hu, hiteration⟩

end

end Diagram

namespace Sample

/-- A run of two loops with one task in each, and the name of the second task is that of the first
one with an underscore behind it. Both loops have run, and so has what is given. -/
def underscoredRun (recorded : List String) : Run where
  execution := {
    id := "x"
    status := .running
    definition := .ofTasks "w" [.ofRef "l" (.loop none [.ofRef "b" (.worker .simple)]),
      .ofRef "m" (.loop none [.ofRef "b_" (.worker .simple)])]
    startTime := none
    endTime := none
    reason := none }
  attempts :=
    [.bare none "l" .doWhile .completed, .bare none "m" .doWhile .completed] ++
      recorded.map fun r => .bare none r .simple .completed

def underscoredDiagram (recorded : List String) : Diagram :=
  (Diagram.ofRun (underscoredRun recorded) .standard).toOption.getD
    ⟨(underscoredRun recorded).execution.definition, none, .empty, .standard, .empty⟩

end Sample

/-- While the second task has not run, the first loop counts its own iterations alone. -/
theorem Diagram.countsOwn_iff_of_untried :
    Diagram.ofRun (Sample.underscoredRun ["b__1", "b__2"]) .standard =
      .ok (Sample.underscoredDiagram ["b__1", "b__2"]) ∧
    (Sample.underscoredDiagram ["b__1", "b__2"]).gathered.map (fun p => (p.1.reference, p.2)) =
      [("l", ["b__1", "b__2"]), ("m", [])] ∧
    (Sample.underscoredDiagram ["b__1", "b__2"]).CountsOwn := by
  have hd : Diagram.ofRun (Sample.underscoredRun ["b__1", "b__2"]) .standard =
      .ok (Sample.underscoredDiagram ["b__1", "b__2"]) := Outcome.eq_ok_of_isOk (by decide +kernel) _
  refine ⟨hd, by decide +kernel, ?_⟩
  apply (countsOwn_iff hd (by decide +kernel) (by decide +kernel)).2.mpr
  exact ⟨by decide +kernel, by decide +kernel⟩

/-- Once it has, its iteration is counted twice. -/
theorem Diagram.not_countsOwn_of_tried :
    Diagram.ofRun (Sample.underscoredRun ["b__1", "b___1"]) .standard =
      .ok (Sample.underscoredDiagram ["b__1", "b___1"]) ∧
    (treeRefs (Sample.underscoredRun ["b__1", "b___1"]).execution.definition.tasks).Nodup ∧
    (Sample.underscoredDiagram ["b__1", "b___1"]).gathered.map (fun p => (p.1.reference, p.2)) =
      [("l", ["b__1", "b___1"]), ("m", ["b___1"])] ∧
    ¬ (Sample.underscoredDiagram ["b__1", "b___1"]).CountsOwn := by
  refine ⟨Outcome.eq_ok_of_isOk (by decide +kernel) _, by decide +kernel, by decide +kernel, ?_⟩
  intro hcounts
  exact absurd hcounts.once (by decide +kernel)

end Flowchart

import Flowchart.Proofs.Positions
import Flowchart.Proofs.RunRecords
import Flowchart.Proofs.VisibleTasks

/-!
# What a diagram tells of a run

A vertex carries the attempts of the reference that it reports by, all of them and no others, and
tells the status of the last. What is generated to stand for tasks that are not drawn has no
attempts to go by, and tells the tally of the latest attempts of those tasks. So does the bar behind
a loop that has run.
-/

namespace Flowchart

def Task.loopStack (reference : String) : Task :=
  .ofRef (loopChildrenRef reference) (.marker .loopChildren)

namespace Vertex

/-- What a vertex tells besides attempts. -/
def told (v : Vertex) : Aggregate := ⟨v.status, v.tally, v.standsFor⟩

/-- The vertex has the place of the task `u`. -/
def StandsAt (tasks : List Task) (u : Task) (v : Vertex) : Prop :=
  ∃ s i, v.position = some i ∧ v.parent.get? tasks = some s ∧ s[i]? = some u

/-- A generated vertex that stands for tasks that are not drawn. So does a bubble, for none. -/
def IsPlaceholder (v : Vertex) : Prop := v.position = none ∧ v.task.kind.isMarker = true

/-- The generated bar behind the loop `l`, which has run. -/
def ClosesRun (run : Run) (tasks : List Task) (l : Task) (v : Vertex) : Prop :=
  v.StandsAt tasks l ∧ l.type = .doWhile ∧ run.attemptsOf l.reference ≠ [] ∧ v.task = l.loopEnd

/-- The vertex tells what the run says: the attempts of one reference and the status of the last, or
else the tally of the tasks that it stands for. -/
structure Accounts (run : Run) (history : History) (tasks : List Task) (v : Vertex) : Prop where
  results : ∃ spawned, v.results =
    mapLast (fun a => { a with spawned := spawned }) (run.attemptsOf v.task.reportRef)
  own : ¬ v.IsPlaceholder → (∀ l, ¬ v.ClosesRun run tasks l) →
    v.told = ⟨run.statusOf? v.task.reportRef, none, none⟩
  placeholder : v.IsPlaceholder →
    (∃ f ∈ listing tasks, f.type = .forkJoinDynamic ∧ v.task = Task.forkedStack f.reference ∧
      (run.attemptsOf f.reference = [] ∧ v.told = .blank ∨
        run.attemptsOf f.reference ≠ [] ∧ ∃ t, run.Tallied (history.spawnedBy f.reference) t ∧
          v.told = ⟨some t.status, some t, some (history.spawnedBy f.reference)⟩)) ∨
    ∃ l ∈ listing tasks, l.type = .doWhile ∧ v.task = Task.loopStack l.reference ∧
      run.attemptsOf l.reference ≠ [] ∧ ∃ t, run.Tallied (l.iterations history) t ∧
        v.told = ⟨some t.status, some t, some (l.iterations history)⟩
  bar : ∀ l, v.ClosesRun run tasks l →
    ∃ t, run.Tallied (l.iterations history) t ∧ v.told = ⟨some t.status, none, none⟩

theorem StandsAt.eq {tasks s : List Task} {u l : Task} {i : Nat} {v : Vertex}
    (h : v.StandsAt tasks l) (hi : v.position = some i) (hs : v.parent.get? tasks = some s)
    (hu : s[i]? = some u) : l = u := by
  obtain ⟨s', i', hi', hs', hl⟩ := h
  obtain rfl := Option.some.inj (hi'.symm.trans hi)
  obtain rfl := Option.some.inj (hs'.symm.trans hs)
  exact Option.some.inj (hl.symm.trans hu)

theorem not_closesRun {run : Run} {tasks : List Task} {l : Task} {v : Vertex}
    (h : v.position = none) : ¬ v.ClosesRun run tasks l := by
  rintro ⟨⟨s, i, hi, -, -⟩, -⟩
  rw [h] at hi
  cases hi

end Vertex

theorem getLast?_loopChildrenRef (r : String) : (loopChildrenRef r).toList.getLast? = some 'R' := by
  rw [loopChildrenRef, String.toList_append, List.getLast?_append_of_ne_nil _ (by decide)]
  rfl

/-- Generated references end in capital letters, and those of bubbles do not. -/
theorem ne_bubble_of_getLast? {r : String}
    (h : r.toList.getLast? = some 'D' ∨ r.toList.getLast? = some 'R') :
    r ≠ startBubble ∧ r ≠ finalBubble := by
  constructor <;> rintro rfl <;> exact absurd h (by decide)

section

variable {run : Run} {history : History} {tasks : List Task} {u : Task} {path : TreePath} {i : Nat}
  {p : Placement}

theorem Placement.told_toVertex (h : p.aggregate = none) : (p.toVertex history).told =
    ⟨(history.attempts p.task.reportRef).getLast?.map (·.status), none, none⟩ := by
  rw [toVertex, h]
  rfl

variable (hbind : History.ofAttempts run.execution.status run.attempts = .ok history)

include hbind

theorem Run.attemptsOf_ne_nil {r : String} {a : Attempt}
    (h : history.latestOfTask r = .ok (some a)) : run.attemptsOf r ≠ [] := by
  rw [ne_eq, ← Run.statusOf?_eq_none, (History.statusOf?_of_latest hbind h).2]
  exact nofun

/-- What is drawn for a task of the tree tells what the run says. -/
theorem Placement.Origin.accounts (h : p.Origin history u path i) (hu : u ∈ listing tasks)
    {s : List Task} (hs : path.get? tasks = some s) (hfound : s[i]? = some u)
    (hstart : p.task.reportRef ≠ startBubble) (hfinal : p.task.reportRef ≠ finalBubble) :
    (p.toVertex history).Accounts run history tasks := by
  have hresults := History.attempts_of_ne_bubble hbind hstart hfinal
  have hown (hnone : p.aggregate = none) : (p.toVertex history).told =
      ⟨run.statusOf? p.task.reportRef, none, none⟩ := by
    rw [told_toVertex hnone, History.status_of_ne_bubble hbind hstart hfinal]
  cases h with
  | own sources =>
    refine ⟨hresults, fun _ _ => hown rfl, fun hplaceholder => ?_, fun l hl => ?_⟩
    · cases hplaceholder.1
    · obtain ⟨hstands, hloop, -, htask⟩ := hl
      obtain rfl := hstands.eq rfl hs hfound
      have hend := congrArg Task.type htask
      exact absurd (hloop.symm.trans hend) nofun
  | @child _ _ _ a hk hmem ha =>
    refine ⟨hresults, fun _ _ => hown rfl, fun hplaceholder => ?_, fun l hl => ?_⟩
    · exact absurd (a.isMarker_kind.symm.trans hplaceholder.2) Bool.false_ne_true
    · exact absurd hl (Vertex.not_closesRun rfl)
  | children hk hof =>
    refine ⟨hresults, fun hnot => absurd ⟨rfl, rfl⟩ hnot, fun _ => ?_, fun l hl => ?_⟩
    · refine Or.inl ⟨u, hu, Kind.type_eq_forkJoinDynamic.mpr ⟨_, _, hk⟩, rfl, ?_⟩
      rcases hof with ⟨hlatest, rfl⟩ | ⟨a, hlatest, haggregate⟩
      · exact Or.inl ⟨History.attemptsOf_eq_nil_of_latest hbind hlatest, rfl⟩
      · obtain ⟨t, htallied, rfl⟩ := History.tallied_of_ofReferences hbind haggregate
        exact Or.inr ⟨Run.attemptsOf_ne_nil hbind hlatest, t, htallied, rfl⟩
    · exact absurd hl (Vertex.not_closesRun rfl)
  | bar sources hk hlatest =>
    refine ⟨hresults, fun _ _ => hown rfl, fun hplaceholder => ?_, fun l hl => ?_⟩
    · cases hplaceholder.1
    · obtain ⟨hstands, -, hran, -⟩ := hl
      obtain rfl := hstands.eq rfl hs hfound
      exact absurd (History.attemptsOf_eq_nil_of_latest hbind hlatest) hran
  | iterations hk hlatest haggregate =>
    obtain ⟨t, htallied, rfl⟩ := History.tallied_of_ofReferences hbind haggregate
    refine ⟨hresults, fun hnot => absurd ⟨rfl, rfl⟩ hnot, fun _ => ?_, fun l hl => ?_⟩
    · exact Or.inr ⟨u, hu, Kind.type_eq_doWhile.mpr ⟨_, _, hk⟩, rfl,
        Run.attemptsOf_ne_nil hbind hlatest, t, htallied, rfl⟩
    · exact absurd hl (Vertex.not_closesRun rfl)
  | closingBar sources hk hlatest haggregate =>
    obtain ⟨t, htallied, rfl⟩ := History.tallied_of_ofReferences hbind haggregate
    refine ⟨hresults, fun _ hnot => ?_, fun hplaceholder => ?_, fun l hl => ?_⟩
    · exact absurd ⟨⟨s, i, rfl, hs, hfound⟩, Kind.type_eq_doWhile.mpr ⟨_, _, hk⟩,
        Run.attemptsOf_ne_nil hbind hlatest, rfl⟩ (hnot u)
    · cases hplaceholder.1
    · obtain ⟨hstands, -⟩ := hl
      obtain rfl := hstands.eq rfl hs hfound
      exact ⟨t, htallied, rfl⟩

/-- What is drawn for a task is no bubble, unless a child of a fork bears the name of the last. -/
theorem Placement.Origin.reference_ne (h : p.Origin history u path i)
    (hu : u.reference ≠ startBubble ∧ u.reference ≠ finalBubble) :
    p.reference ≠ startBubble ∧ (p.reference = finalBubble → run.attemptsOf finalBubble ≠ []) := by
  have hgenerated (hlast : p.reference.toList.getLast? = some 'D' ∨
      p.reference.toList.getLast? = some 'R') : p.reference ≠ startBubble ∧
        (p.reference = finalBubble → run.attemptsOf finalBubble ≠ []) := by
    obtain ⟨hstart, hfinal⟩ := ne_bubble_of_getLast? hlast
    exact ⟨hstart, fun h => absurd h hfinal⟩
  cases h with
  | own sources => exact ⟨hu.1, fun h => absurd h hu.2⟩
  | @child _ _ child a hk hmem ha =>
    have hreference : a.reference = child := (History.Filed.ofAttempts hbind).reference_eq ha
    refine ⟨fun hstart => ?_, fun hfinal => ?_⟩
    · obtain ⟨hnone, -⟩ := History.statusOf?_of_latest hbind ha
      rw [← hreference, show a.reference = startBubble from hstart, History.bubbleAttempts,
        if_pos rfl] at hnone
      cases hnone
    · have hran := Run.attemptsOf_ne_nil hbind ha
      rwa [← hreference, show a.reference = finalBubble from hfinal] at hran
  | children => exact hgenerated (Or.inr (getLast?_dynamicForkChildrenRef _))
  | iterations => exact hgenerated (Or.inr (getLast?_loopChildrenRef _))
  | bar | closingBar => exact hgenerated (Or.inl (getLast?_loopEndRef _))

end

namespace Graph

variable {run : Run} {settings : Settings} {history : History} {tasks : List Task} {g : Graph}
  {v : Vertex} {r : String}

section

variable (hbind : History.ofAttempts run.execution.status run.attempts = .ok history)
  (hg : Graph.ofTasks settings history tasks = .ok g)

include hbind hg

/-- Each vertex that reports by no bubble tells what the run says. -/
theorem accounts (hkeyed : Throughout Kind.Keyed tasks) (hv : v ∈ g.vertices)
    (hstart : v.task.reportRef ≠ startBubble) (hfinal : v.task.reportRef ≠ finalBubble) :
    v.Accounts run history tasks := by
  obtain ⟨p, hp, rfl⟩ := mem_vertices_ofTasks hg hv
  rcases Plan.ofTasks_drawnIn (ofTasks_completes hg) hp with
    ⟨_, _, u, hu, horigin, hplace⟩ | ⟨-, -, htask⟩
  · obtain ⟨segments, s, rfl, hleads, hfound⟩ := hplace hkeyed
    exact horigin.accounts hbind hu hleads.follow? hfound hstart hfinal
  · rcases htask with htask | htask
    · exact absurd (congrArg Task.reportRef htask) hstart
    · exact absurd (congrArg Task.reportRef htask) hfinal

variable (hnames : ∀ t ∈ listing tasks, t.reference ≠ startBubble ∧ t.reference ≠ finalBubble)

include hnames

/-- What is found under the name of a bubble is that bubble. -/
theorem isExecuted_bubble (hv : g.vertex? r = some v)
    (hr : r = startBubble ∨ r = finalBubble ∧ run.attemptsOf finalBubble = []) :
    v.isExecuted = (history.attempts r).getLast?.isSome := by
  obtain ⟨hmem, href⟩ := vertex?_ok hv
  obtain ⟨p, hp, rfl⟩ := mem_vertices_ofTasks hg hmem
  change p.reference = r at href
  rcases Plan.ofTasks_drawnIn (ofTasks_completes hg) hp with
    ⟨_, _, u, hu, horigin, -⟩ | ⟨-, hnone, htask⟩
  · obtain ⟨hstart, hfinal⟩ := horigin.reference_ne hbind (hnames u hu)
    rcases hr with rfl | ⟨rfl, hno⟩
    · exact absurd href hstart
    · exact absurd hno (hfinal href)
  · have hreport : p.task.reportRef = r := by
      rw [← href]
      rcases htask with h | h <;> rw [Placement.reference, h] <;> rfl
    have htold : (p.toVertex history).status =
        (history.attempts p.task.reportRef).getLast?.map (·.status) :=
      congrArg Aggregate.status (p.told_toVertex hnone)
    rw [Vertex.isExecuted, htold, hreport, Option.isSome_map]

theorem startBubble_executed : ∃ v, g.vertex? startBubble = some v ∧ v.isExecuted = true := by
  have hmem : startBubble ∈ g.references := by
    refine mem_references_ofTasks hg ?_ (by decide)
    rw [Plan.ofTasks_eq, Plan.references_andThen]
    exact List.mem_append_left _ (List.mem_singleton_self _)
  obtain ⟨v, hv⟩ := exists_vertex? hmem
  obtain ⟨spawned, hattempts⟩ := History.attempts_ofAttempts hbind startBubble
  refine ⟨v, hv, ?_⟩
  rw [isExecuted_bubble hbind hg hnames hv (Or.inl rfl), hattempts, History.bubbleAttempts,
    if_pos rfl, List.getLast?_concat]
  rfl

theorem finalBubble_executed_iff (hv : g.vertex? finalBubble = some v)
    (hno : ∀ a ∈ run.attempts, a.reference ≠ finalBubble) :
    v.isExecuted = true ↔
      run.execution.status = .completed ∧ ∀ a ∈ run.attempts, a.type ≠ .terminate := by
  have hnone := Run.attemptsOf_eq_nil.mpr hno
  obtain ⟨spawned, hattempts⟩ := History.attempts_ofAttempts hbind finalBubble
  rw [isExecuted_bubble hbind hg hnames hv (Or.inr ⟨rfl, hnone⟩), hattempts, hnone,
    History.bubbleAttempts, if_neg (by decide)]
  split_ifs with hcompleted
  · exact iff_of_true rfl hcompleted.2
  · exact iff_of_false Bool.false_ne_true fun h => hcompleted ⟨rfl, h⟩

end

end Graph

namespace Diagram

variable {run : Run} {settings : Settings} {d : Diagram}

/-- **The account of a run.** Each vertex of the diagram of a run tells what the run says of it, and
neither more nor less. The start bubble has run. The final bubble, if no attempt bears its name, has
run if and only if the run has completed and no task has terminated it. -/
theorem ofRun_accounts (hd : Diagram.ofRun run settings = .ok d)
    (hkeyed : Throughout Kind.Keyed run.execution.definition.tasks)
    (hnames : ∀ t ∈ listing run.execution.definition.tasks,
      t.reference ≠ startBubble ∧ t.reference ≠ finalBubble) :
    (∀ v ∈ d.graph.vertices, v.task.reportRef ≠ startBubble → v.task.reportRef ≠ finalBubble →
      v.Accounts run d.history d.tasks) ∧
    (∃ v, d.graph.vertex? startBubble = some v ∧ v.isExecuted = true) ∧
    ∀ v, d.graph.vertex? finalBubble = some v →
      (∀ a ∈ run.attempts, a.reference ≠ finalBubble) →
        (v.isExecuted = true ↔ run.execution.status = .completed ∧
          ∀ a ∈ run.attempts, a.type ≠ .terminate) := by
  obtain ⟨history, hbind, hdraw⟩ := ofRun_ok hd
  obtain ⟨graph, hg, rfl⟩ := draw_ok hdraw
  exact ⟨fun v hv hstart hfinal => Graph.accounts hbind hg hkeyed hv hstart hfinal,
    Graph.startBubble_executed hbind hg hnames,
    fun v hv hno => Graph.finalBubble_executed_iff hbind hg hnames hv hno⟩

end Diagram

namespace Sample

/-- A run that has completed, of a dynamic fork with many children, of a loop that went round twice
and of a task that was tried again. -/
def gatheredRun : Run where
  execution := {
    id := "x"
    status := .completed
    definition := .ofTasks "w" [.ofRef "f" (.dynamicFork none none), .ofRef "j" (.join []),
      .ofRef "l" (.loop none [.ofRef "b" (.worker .simple)]), .ofRef "a" (.worker .simple)]
    startTime := none
    endTime := none
    reason := none }
  attempts :=
    ["c", "d", "e"].map (fun r =>
      { Attempt.bare none r .simple .completed with parent := some "f" }) ++
    [.bare none "f" .fork .completed, .bare none "j" .join .completed,
      .bare none "b__1" .simple .failed, .bare none "a" .simple .failed,
      .bare none "l" .doWhile .completed, .bare none "b__2" .simple .completed,
      .bare none "a" .simple .completed]

def gatheredDiagram : Diagram :=
  (Diagram.ofRun gatheredRun .standard).toOption.getD
    ⟨gatheredRun.execution.definition, none, .empty, .standard, .empty⟩

end Sample

/-- The attempts of the task that was tried again are both there, and the final bubble has run. -/
theorem Diagram.ofRun_accounts_of_gathered :
    Diagram.ofRun Sample.gatheredRun .standard = .ok Sample.gatheredDiagram ∧
      (∃ v ∈ Sample.gatheredDiagram.graph.vertices, v.reference = "a" ∧
        v.Accounts Sample.gatheredRun Sample.gatheredDiagram.history
          Sample.gatheredDiagram.tasks) ∧
      ∃ v, Sample.gatheredDiagram.graph.vertex? finalBubble = some v ∧ v.isExecuted = true := by
  have hd : Diagram.ofRun Sample.gatheredRun .standard = .ok Sample.gatheredDiagram :=
    Outcome.eq_ok_of_isOk (by decide +kernel) _
  have hread : Definition.ofDoc (Doc.ofJson Sample.gatheredRun.execution.definition.toJson) =
      .ok Sample.gatheredRun.execution.definition := by
    decide +kernel
  obtain ⟨hvertices, -, hfinal⟩ := Diagram.ofRun_accounts hd (Definition.keyed_of_ofDoc hread)
    (by decide +kernel)
  obtain ⟨v, hv, href, hreport⟩ : ∃ v ∈ Sample.gatheredDiagram.graph.vertices,
      v.reference = "a" ∧ v.task.reportRef = "a" := by
    decide +kernel
  obtain ⟨w, hw⟩ := Graph.exists_vertex? (g := Sample.gatheredDiagram.graph) (r := finalBubble)
    (by decide +kernel)
  refine ⟨hd, ⟨v, hv, href, ?_⟩, w, hw, (hfinal w hw (by decide +kernel)).mpr ?_⟩
  · exact hvertices v hv (by rw [hreport]; decide) (by rw [hreport]; decide)
  · decide +kernel

end Flowchart

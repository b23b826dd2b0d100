import Flowchart.Proofs.Drawn
import Flowchart.Proofs.TaskReading

/-!
# The paths of a diagram

A path leads along the edges of a graph from the start bubble to a vertex without successors. The
paths of a diagram are the words of its tasks, between the two bubbles.
-/

namespace Flowchart

namespace Graph

/-- The references met on some path from the start bubble to a vertex without successors. -/
def Traverses (g : Graph) (path : List String) : Prop :=
  startBubble ∈ g.references ∧ ∃ w v, path = startBubble :: w ∧
    Route (fun a b => b ∈ g.successors a) startBubble w v ∧ g.successors v = []

theorem Shows.mem_successors {history : History} {g : Graph} {ps : List Placement}
    (hg : g.Shows history ps) {a b : String} : b ∈ g.successors a ↔ g.Joins a b := by
  rw [successors, List.mem_filter, List.any_eq_true]
  constructor
  · rintro ⟨-, e, he, hjoins⟩
    exact ⟨e, he, Edge.joins_iff.mp hjoins⟩
  · rintro ⟨e, he, rfl, rfl⟩
    exact ⟨(hg.edge_mem he).2, e, he, Edge.joins_iff.mpr ⟨rfl, rfl⟩⟩

end Graph

section

variable {settings : Settings} {history : History} {tasks : List Task}

/-- What a diagram draws after the start bubble. -/
private def afterStart (settings : Settings) (history : History) (tasks : List Task) : Plan :=
  (planTasks settings history .root 0 tasks [startBubble]).andThen fun sources =>
    .vertex ⟨.plain "final" finalBubble (.marker .terminal), .root, none, none, sources⟩

private theorem references_ofTasks : (Plan.ofTasks settings history tasks).references =
    startBubble :: (afterStart settings history tasks).references := by
  rw [Plan.ofTasks_eq, Plan.references_andThen]
  rfl

private theorem links_ofTasks {u v : String} : (Plan.ofTasks settings history tasks).Links u v ↔
    (afterStart settings history tasks).Links u v := by
  rw [Plan.ofTasks_eq, Plan.links_andThen, Plan.links_vertex]
  simp only [List.not_mem_nil, false_and, false_or]
  rfl

/-- After the start bubble, a diagram reads the words of its tasks up to the final bubble. -/
private theorem afterStart_reads (hh : history.Filed)
    (hclean : (afterStart settings history tasks).Clean [startBubble]) :
    (afterStart settings history tasks).Reads [startBubble]
      (Word.andThen (sequenceWords settings history tasks) (Word.one finalBubble)) := by
  have htasks := Task.planTasks_reads (fun t _ => Task.plan_reads hh t) hclean.left
  exact Plan.reads_andThen hclean htasks (Plan.reads_vertex (hclean.right htasks).vertex_fresh)

/-- No way leads on from the final bubble. -/
private theorem final_ends (hh : history.Filed)
    (hclean : (afterStart settings history tasks).Clean [startBubble]) (v : String) :
    ¬ (afterStart settings history tasks).Links finalBubble v := by
  have htasks := Task.planTasks_reads (fun t _ => Task.plan_reads hh t) hclean.left
  have hfinal := (hclean.right htasks).vertex_fresh
  have hnot : finalBubble ∉ [startBubble] ∧
      finalBubble ∉ (planTasks settings history .root 0 tasks [startBubble]).references := by
    constructor
    · intro hmem
      exact hclean.not_mem_next (Or.inl hmem) (List.mem_singleton_self _)
    · intro hmem
      exact hclean.disjoint hmem (List.mem_singleton_self _)
  intro hlink
  rcases Plan.links_andThen.mp hlink with hlink | hlink
  · exact (htasks.link_source _ _ hlink).elim hnot.1 hnot.2
  · exact hfinal (Plan.links_vertex.mp hlink).1

private theorem afterStart_clean {g : Graph} (hg : Graph.ofTasks settings history tasks = .ok g)
    (hnodup : (Plan.ofTasks settings history tasks).references.Nodup) :
    (afterStart settings history tasks).Clean [startBubble] := by
  rw [references_ofTasks, List.nodup_cons] at hnodup
  refine ⟨?_, hnodup.2, ?_⟩
  · have hcompletes := Graph.ofTasks_completes hg
    rw [Plan.ofTasks_eq, Plan.completes_andThen] at hcompletes
    exact hcompletes.2
  · intro s hs
    rw [List.mem_singleton.mp hs]
    exact hnodup.1

/-- A route from the start bubble stops at the final bubble, or at a vertex that nothing may come
after. -/
private theorem afterStart_stops (hh : history.Filed)
    (hclean : (afterStart settings history tasks).Clean [startBubble]) {w : List String} :
    (∃ v, Route (afterStart settings history tasks).Links startBubble w v ∧
      ∀ x, ¬ (afterStart settings history tasks).Links v x) ↔
        ∃ ended, (⟨w, ended⟩ : Word) ∈
          Word.andThen (sequenceWords settings history tasks) (Word.one finalBubble) := by
  have hreads := afterStart_reads hh hclean
  have hsource : startBubble ∈ [startBubble] := List.mem_singleton_self _
  constructor
  · rintro ⟨v, hroute, hlast⟩
    by_cases hv : v ∈ (afterStart settings history tasks).frontier
    · exact ⟨false, (hreads.passes _ hsource w).mpr ⟨v, hv, hroute⟩⟩
    · refine ⟨true, (hreads.ends _ hsource w).mpr ⟨v, ⟨?_, hv, hlast⟩, hroute⟩⟩
      rcases Plan.target_of_route hroute with ⟨-, rfl⟩ | ⟨-, hmem⟩
      · rcases hreads.goes_on _ hsource with hmem | ⟨x, hlink⟩
        · exact absurd hmem hv
        · exact absurd hlink (hlast x)
      · exact hmem
  · rintro ⟨_ | _, hw⟩
    · obtain ⟨v, hv, hroute⟩ := (hreads.passes _ hsource w).mp hw
      have hfinal : v = finalBubble := List.mem_singleton.mp hv
      rw [hfinal] at hroute
      exact ⟨_, hroute, final_ends hh hclean⟩
    · obtain ⟨v, ⟨-, -, hlast⟩, hroute⟩ := (hreads.ends _ hsource w).mp hw
      exact ⟨v, hroute, hlast⟩

/-- The edges of a graph are the links of its plan. -/
theorem Graph.mem_successors_iff {g : Graph} (hg : Graph.ofTasks settings history tasks = .ok g)
    (hnodup : (Plan.ofTasks settings history tasks).references.Nodup) {a b : String} :
    b ∈ g.successors a ↔ (Plan.ofTasks settings history tasks).Links a b := by
  have hshows := Graph.ofTasks_shows hg hnodup
  rw [hshows.mem_successors, hshows.joins_iff]
  constructor
  · rintro ⟨p, hp, ha, hb⟩
    exact ⟨p, (List.mem_filter.mp hp).1, ha, hb⟩
  · rintro ⟨p, hp, ha, hb⟩
    exact ⟨p, List.mem_filter.mpr ⟨hp, decide_eq_true (Or.inr (List.ne_nil_of_mem ha))⟩, ha, hb⟩

/-- The final bubble is met at the end of each word that does not end before it. -/
theorem Graph.route_final_iff {g : Graph} (hh : history.Bound)
    (hg : Graph.ofTasks settings history tasks = .ok g)
    (hnodup : (Plan.ofTasks settings history tasks).references.Nodup) {w : List String} :
    Route (fun a b => b ∈ g.successors a) startBubble w finalBubble ↔
      ∃ u, w = u ++ [finalBubble] ∧ ⟨u, false⟩ ∈ sequenceWords settings history tasks := by
  have hreads := afterStart_reads hh.filed (afterStart_clean hg hnodup)
  have hlinks : ∀ a b, b ∈ g.successors a ↔ (afterStart settings history tasks).Links a b :=
    fun a b => (Graph.mem_successors_iff hg hnodup).trans links_ofTasks
  have hroute : Route (fun a b => b ∈ g.successors a) startBubble w finalBubble ↔
      ∃ v ∈ (afterStart settings history tasks).frontier,
        Route (afterStart settings history tasks).Links startBubble w v := by
    constructor
    · intro h
      exact ⟨finalBubble, List.mem_singleton_self _, h.mono fun a b => (hlinks a b).mp⟩
    · rintro ⟨v, hv, h⟩
      rw [List.mem_singleton.mp hv] at h
      exact h.mono fun a b => (hlinks a b).mpr
  rw [hroute, ← hreads.passes _ (List.mem_singleton_self _) w, Word.mem_andThen_open]
  constructor
  · rintro ⟨u, v, rfl, hu, hv⟩
    obtain ⟨rfl, -⟩ := Word.mk.inj hv
    exact ⟨u, rfl, hu⟩
  · rintro ⟨u, rfl, hu⟩
    exact ⟨u, [finalBubble], rfl, hu, rfl⟩

/-- A graph is traversed along the links of its plan. -/
theorem Graph.traverses_iff_links {g : Graph} (hg : Graph.ofTasks settings history tasks = .ok g)
    (hnodup : (Plan.ofTasks settings history tasks).references.Nodup) {path : List String} :
    g.Traverses path ↔ ∃ w v, path = startBubble :: w ∧
      Route (Plan.ofTasks settings history tasks).Links startBubble w v ∧
        ∀ x, ¬ (Plan.ofTasks settings history tasks).Links v x := by
  have hshows := Graph.ofTasks_shows hg hnodup
  have hlinks : ∀ a b, b ∈ g.successors a ↔ (Plan.ofTasks settings history tasks).Links a b :=
    fun a b => Graph.mem_successors_iff hg hnodup
  have hstart : startBubble ∈ g.references := by
    rw [hshows.references_eq]
    refine List.mem_map.mpr ⟨_, List.mem_filter.mpr ⟨List.mem_cons_self, ?_⟩, rfl⟩
    exact decide_eq_true (Or.inl (by decide))
  have hlast : ∀ v, g.successors v = [] ↔
      ∀ x, ¬ (Plan.ofTasks settings history tasks).Links v x := by
    intro v
    rw [List.eq_nil_iff_forall_not_mem]
    exact forall_congr' fun x => not_congr (hlinks v x)
  constructor
  · rintro ⟨-, w, v, hpath, hroute, hv⟩
    exact ⟨w, v, hpath, hroute.mono fun a b => (hlinks a b).mp, (hlast v).mp hv⟩
  · rintro ⟨w, v, hpath, hroute, hv⟩
    exact ⟨hstart, w, v, hpath, hroute.mono fun a b => (hlinks a b).mpr, (hlast v).mpr hv⟩

/-- **The path language.** The paths of the graph that is drawn of a sequence of tasks, with or
without an execution, are the words of the sequence between the bubbles. -/
theorem Graph.traverses_iff {g : Graph} (hh : history.Bound)
    (hg : Graph.ofTasks settings history tasks = .ok g)
    (hnodup : (Plan.ofTasks settings history tasks).references.Nodup) (path : List String) :
    g.Traverses path ↔ ∃ w ∈ sequenceWords settings history tasks, path = w.framed := by
  have hclean := afterStart_clean hg hnodup
  have hframed : ∀ w, (∃ ended, (⟨w, ended⟩ : Word) ∈
      Word.andThen (sequenceWords settings history tasks) (Word.one finalBubble)) ↔
        ∃ u ∈ sequenceWords settings history tasks, startBubble :: w = u.framed := by
    intro w
    rw [Word.exists_mem_andThen_one]
    simp only [Word.framed, List.cons.injEq, true_and]
  have hlinks : (Plan.ofTasks settings history tasks).Links =
      (afterStart settings history tasks).Links := by
    ext u v
    exact links_ofTasks
  rw [Graph.traverses_iff_links hg hnodup, hlinks]
  constructor
  · rintro ⟨w, v, rfl, hroute, hlast⟩
    exact (hframed w).mp ((afterStart_stops hh.filed hclean).mp ⟨v, hroute, hlast⟩)
  · rintro ⟨u, hu, rfl⟩
    obtain ⟨v, hroute, hlast⟩ :=
      (afterStart_stops hh.filed hclean).mpr ((hframed _).mpr ⟨u, hu, rfl⟩)
    exact ⟨_, v, rfl, hroute, hlast⟩

end

namespace Sample

/-- A switch with an empty case and a case that forks and terminates, before a loop that has run
and a dynamic fork with one child. -/
def tasks : List Task :=
  [.ofRef "s" (.switch .switch
      { Switch.empty [.ofRef "d" (.worker .simple)] with
        cases := [("none", []), ("some",
          [.ofRef "f" (.fork [[.ofRef "x" (.worker .simple)], [.ofRef "t" .terminate], []]),
            .ofRef "j" (.join [])])] }),
    .ofRef "l" (.loop none [.ofRef "y" (.worker .simple)]),
    .ofRef "m" (.dynamicFork none none)]

def attempts : List Attempt :=
  [.bare none "s" .switch .completed, .bare none "l" .doWhile .completed,
    .bare none "y__1" .simple .completed, .bare none "m" .forkJoinDynamic .completed,
    { Attempt.bare none "c" .simple .completed with parent := some "m" }]

def history : History := (History.ofAttempts .running attempts).toOption.getD .empty

def graph : Graph := (Graph.ofTasks .standard history tasks).toOption.getD .empty

end Sample

theorem Graph.traverses_iff_of_run :
    Sample.history.Bound ∧ Graph.ofTasks .standard Sample.history Sample.tasks = .ok Sample.graph ∧
      (Plan.ofTasks .standard Sample.history Sample.tasks).references.Nodup ∧
      ∀ path, Sample.graph.Traverses path ↔
        ∃ w ∈ sequenceWords .standard Sample.history Sample.tasks, path = w.framed := by
  have hbind : History.ofAttempts .running Sample.attempts = .ok Sample.history :=
    Outcome.eq_ok_of_isOk (by decide +kernel) _
  have hg : Graph.ofTasks .standard Sample.history Sample.tasks = .ok Sample.graph :=
    Outcome.eq_ok_of_isOk (by decide +kernel) _
  have hh : Sample.history.Bound := Or.inr ⟨_, _, hbind⟩
  have hnodup : (Plan.ofTasks .standard Sample.history Sample.tasks).references.Nodup := by
    decide +kernel
  exact ⟨hh, hg, hnodup, Graph.traverses_iff hh hg hnodup⟩

end Flowchart

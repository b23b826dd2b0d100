import Flowchart.Proofs.Drawable
import Flowchart.Proofs.Routes
import Flowchart.Proofs.Walks

/-!
# The order of a diagram

The vertices of a diagram are listed in the order of a walk over the tree, and each edge leads
forward in that list. So no route through a diagram returns to where it began.
-/

namespace Flowchart

variable {settings : Settings} {history : History} {tasks : List Task}

/-- Whether the final bubble is shown or not, the rest stays in order. -/
theorem Plan.shown_inOrder
    (horder : Placement.InOrder [] (Plan.ofTasks settings history tasks).placements)
    (hnodup : (Plan.ofTasks settings history tasks).references.Nodup) :
    Placement.InOrder [] (Plan.ofTasks settings history tasks).shown := by
  obtain ⟨front, final, -, hplacements, hfinal⟩ := Graph.exists_front settings history tasks
  rw [shown_eq hplacements hfinal hnodup]
  rw [hplacements] at horder
  split
  · rw [List.append_nil]
    exact (Placement.inOrder_append.mp horder).1
  · exact horder

namespace Graph

variable {g : Graph} {ps : List Placement} {u v : String}

/-- Both vertices are listed, `u` before `v`. -/
def Precedes (g : Graph) (u v : String) : Prop :=
  v ∈ g.references ∧ g.references.idxOf u < g.references.idxOf v

/-- In a graph that shows placements in order, edges lead forward. -/
theorem Shows.precedes (hg : g.Shows history ps) (hnodup : (ps.map Placement.reference).Nodup)
    (horder : Placement.InOrder [] ps) (h : g.Joins u v) : g.Precedes u v := by
  obtain ⟨p, hp, hu, rfl⟩ := hg.joins_iff.mp h
  obtain ⟨front, back, rfl⟩ := List.append_of_mem hp
  obtain ⟨q, hq, rfl, -⟩ := (Placement.inOrder_append.mp horder).2.1 u hu
  rw [List.nil_append] at hq
  have hsource : q.reference ∈ front.map Placement.reference := List.mem_map_of_mem hq
  rw [List.map_append, List.map_cons] at hnodup
  have hfresh : p.reference ∉ front.map Placement.reference := fun hmem =>
    List.disjoint_of_nodup_append hnodup hmem List.mem_cons_self
  rw [Precedes, hg.references_eq, List.map_append, List.map_cons]
  refine ⟨List.mem_append_right _ List.mem_cons_self, ?_⟩
  calc (front.map Placement.reference ++ p.reference :: back.map Placement.reference).idxOf
        q.reference
    _ = (front.map Placement.reference).idxOf q.reference := List.idxOf_append_of_mem hsource
    _ < (front.map Placement.reference).length := List.idxOf_lt_length_of_mem hsource
    _ = (front.map Placement.reference ++ p.reference :: back.map Placement.reference).idxOf
        p.reference := by
      rw [List.idxOf_append_of_notMem hfresh, List.idxOf_cons_self, Nat.add_zero]

theorem eq_nil_of_route {w : List String} (hforward : ∀ u v, g.Joins u v → g.Precedes u v)
    (h : Route g.Joins u w u) : w = [] := by
  have hrank := Route.rank_le (fun r => g.references.idxOf r) h fun a b hab => (hforward a b hab).2
  exact List.eq_nil_of_length_eq_zero (by omega)

/-- Where no reference is drawn twice, each edge leads forward. -/
theorem joins_precedes (hfiled : history.Filed)
    (hg : Graph.ofTasks settings history tasks = .ok g)
    (hnodup : (Plan.ofTasks settings history tasks).references.Nodup) (h : g.Joins u v) :
    g.Precedes u v := by
  have horder := Plan.ofTasks_inOrder hfiled (ofTasks_completes hg)
  exact (ofTasks_shows hg hnodup).precedes (Plan.nodup_shown hnodup)
    (Plan.shown_inOrder horder hnodup) h

/-- Apart from the generated vertices, the diagram of a definition is the listing of its tree. -/
theorem tasks_of_definition (hg : Graph.ofTasks settings .empty tasks = .ok g)
    (hnodup : (Plan.ofTasks settings .empty tasks).references.Nodup) :
    (g.vertices.filter fun v => v.reference ∉ (generated tasks).map (·.reference)).map (·.task) =
      listing tasks := by
  let own : Task → Bool := fun t => t.reference ∉ (generated tasks).map (·.reference)
  have hgenerated : ∀ t ∈ generated tasks, own t = false := fun t ht =>
    decide_eq_false (not_not_intro (List.mem_map_of_mem ht))
  have hstart : own Task.start = false := hgenerated _ List.mem_cons_self
  have hfinal : own Task.final = false :=
    hgenerated _ (List.mem_cons_of_mem _ List.mem_cons_self)
  have hdistinct := (Plan.references_perm settings tasks).nodup_iff.mp hnodup
  rw [List.map_append] at hdistinct
  have hapart := List.disjoint_of_nodup_append hdistinct
  have hlisting : (walk tasks).filter own = listing tasks := by
    refine filter_walk fun t ht => ⟨decide_eq_true (hapart (List.mem_map_of_mem ht)), ?_⟩
    intro u hu
    exact hgenerated u (List.mem_cons_of_mem _ (List.mem_cons_of_mem _
      (List.mem_flatMap_of_mem ht hu)))
  -- the final bubble is not among these, so it does not matter whether it is shown
  have hshown : (Plan.ofTasks settings .empty tasks).shown.filter (own ∘ (·.task)) =
      (Plan.ofTasks settings .empty tasks).placements.filter (own ∘ (·.task)) := by
    rw [Plan.shown, List.filter_filter]
    refine List.filter_congr fun p _ => ?_
    by_cases hp : p.reference = finalBubble
    · have hbubble : (own ∘ (·.task)) p = false := by
        rw [← hfinal]
        exact congrArg (fun r => decide (r ∉ (generated tasks).map (·.reference))) hp
      rw [hbubble, Bool.false_and]
    · rw [decide_eq_true (Or.inl hp), Bool.and_true]
  calc (g.vertices.filter (own ∘ (·.task))).map (·.task)
    _ = (g.vertices.map (·.task)).filter own := List.filter_map.symm
    _ = ((Plan.ofTasks settings .empty tasks).shown.map (·.task)).filter own := by
      rw [(ofTasks_shows hg hnodup).vertices, List.map_map]
      rfl
    _ = ((Plan.ofTasks settings .empty tasks).placements.map (·.task)).filter own := by
      rw [List.filter_map, hshown, List.filter_map]
    _ = (Task.start :: walk tasks ++ [Task.final]).filter own := by
      rw [(Plan.ofTasks_draws_walk settings tasks).tasks]
    _ = (walk tasks).filter own := by
      rw [List.filter_append, List.filter_cons, List.filter_cons, hstart, hfinal]
      exact List.append_nil _
    _ = listing tasks := hlisting

/-- **The walk order.** If no two things in a diagram have one reference, then each edge leads
forward in the list of the vertices, so that no route returns. Without an execution that list is,
apart from the generated vertices, the depth-first listing of the tree. -/
theorem ofTasks_walkOrder (hh : history.Bound)
    (hg : Graph.ofTasks settings history tasks = .ok g)
    (hnodup : (diagramRefs settings history tasks).Nodup) :
    g.references.Nodup ∧ (∀ e ∈ g.edges, g.Precedes e.source e.target) ∧
      (∀ u w, Route g.Joins u w u → w = []) ∧
      (history = .empty →
        (g.vertices.filter fun v => v.reference ∉ (generated tasks).map (·.reference)).map (·.task) =
          listing tasks) := by
  rw [diagramRefs, ← Plan.references_eq_drawnRefs hh.filed (ofTasks_completes hg)] at hnodup
  have hforward : ∀ u v, g.Joins u v → g.Precedes u v := fun u v huv =>
    joins_precedes hh.filed hg hnodup huv
  refine ⟨?_, fun e he => hforward _ _ ⟨e, he, rfl, rfl⟩, ?_, ?_⟩
  · rw [(ofTasks_shows hg hnodup).references_eq]
    exact Plan.nodup_shown hnodup
  · exact fun u w hroute => eq_nil_of_route hforward hroute
  · rintro rfl
    exact tasks_of_definition hg hnodup

/-- A run, and the definition of it. -/
theorem ofTasks_walkOrder_of_sample :
    ((diagramRefs .standard Sample.history Sample.tasks).Nodup ∧ Sample.graph.references.Nodup ∧
      (∀ e ∈ Sample.graph.edges, Sample.graph.Precedes e.source e.target) ∧
      ∀ u w, Route Sample.graph.Joins u w u → w = []) ∧
    (diagramRefs .standard .empty Sample.tasks).Nodup ∧
      ∃ g, Graph.ofTasks .standard .empty Sample.tasks = .ok g ∧
        (g.vertices.filter fun v =>
          v.reference ∉ (generated Sample.tasks).map (·.reference)).map (·.task) =
            listing Sample.tasks := by
  have hbind : History.ofAttempts .running Sample.attempts = .ok Sample.history :=
    Outcome.eq_ok_of_isOk (by decide +kernel) _
  have hg : Graph.ofTasks .standard Sample.history Sample.tasks = .ok Sample.graph :=
    Outcome.eq_ok_of_isOk (by decide +kernel) _
  have hnodup : (diagramRefs .standard Sample.history Sample.tasks).Nodup := by decide +kernel
  obtain ⟨hreferences, hforward, hroutes, -⟩ := ofTasks_walkOrder (Or.inr ⟨_, _, hbind⟩) hg hnodup
  have hblank : Graph.ofTasks .standard .empty Sample.tasks = .ok _ :=
    Outcome.eq_ok_of_isOk (by decide +kernel) .empty
  have hnodup' : (diagramRefs .standard .empty Sample.tasks).Nodup := by decide +kernel
  obtain ⟨-, -, -, hlisting⟩ := ofTasks_walkOrder (Or.inl rfl) hblank hnodup'
  exact ⟨⟨hnodup, hreferences, hforward, hroutes⟩, hnodup', _, hblank, hlisting rfl⟩

end Graph

end Flowchart

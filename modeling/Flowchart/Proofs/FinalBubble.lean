import Flowchart.Proofs.WalkOrder

/-!
# When the final bubble is drawn

The final bubble is drawn after the ends of the last task, and left out if that task has none. An
end need not be met on a way from the start bubble: what stands behind a task that always
terminates is drawn all the same, and the bar of a loop is an end even if every way through the
body terminates. So a diagram has a final bubble if some way leads there, from the start bubble or
from another vertex that nothing leads to.
-/

namespace Flowchart

namespace Task

/-- Whether some way into a task comes out behind it. A loop that has run is passed, whatever is in
it. -/
def passable (history : History) : Task → Bool :=
  fold fun t kind =>
    match kind with
    | .terminate => false
    | .fork branches => branches.isEmpty || branches.any (·.all id)
    | .switch _ s => s.sequences.any (·.all id)
    | .loop _ body => (history.latest? t.reference).isSome || body.all id
    | .worker _ | .join _ | .exclusiveJoin _ | .subWorkflow _ | .event _ | .dynamicFork _ _
    | .loopEnd _ | .marker _ => true

/-- Whether a task has an end that what comes next is drawn after. A sequence has one if its last
task does, or if it is empty. -/
def hasEnd : Task → Bool :=
  fold fun _ kind =>
    match kind with
    | .terminate => false
    | .fork branches => branches.isEmpty || branches.any fun s => s.getLast?.getD true
    | .switch _ s => s.sequences.any fun s => s.getLast?.getD true
    | .worker _ | .join _ | .exclusiveJoin _ | .subWorkflow _ | .event _ | .dynamicFork _ _
    | .loop _ _ | .loopEnd _ | .marker _ => true

end Task

/-- Whether there is something that what comes after a sequence is drawn after, if there was
before it. -/
def endsOpen (tasks : List Task) : Bool := (tasks.getLast?.map Task.hasEnd).getD true

namespace Task

theorem passable_eq (t : Task) (history : History) : t.passable history =
    match t.kind with
    | .terminate => false
    | .fork branches => branches.isEmpty || branches.any (·.all (passable history))
    | .switch _ s => s.sequences.any (·.all (passable history))
    | .loop _ body => (history.latest? t.reference).isSome || body.all (passable history)
    | _ => true := by
  rw [passable, fold_eq]
  cases t.kind with
  | fork branches =>
    simp only [Kind.map, List.isEmpty_map, List.any_map, List.all_map, Function.comp_def, id]
  | switch form s =>
    simp only [Kind.map, Switch.sequences_map, List.any_map, List.all_map, Function.comp_def, id]
  | loop condition body =>
    simp only [Kind.map, List.all_map, Function.comp_def, id]
  | _ => rfl

theorem hasEnd_eq (t : Task) : t.hasEnd =
    match t.kind with
    | .terminate => false
    | .fork branches => branches.isEmpty || branches.any endsOpen
    | .switch _ s => s.sequences.any endsOpen
    | _ => true := by
  rw [hasEnd, fold_eq]
  cases t.kind with
  | fork branches =>
    simp only [Kind.map, List.isEmpty_map, List.any_map, List.getLast?_map, Function.comp_def]
    rfl
  | switch form s =>
    simp only [Kind.map, Switch.sequences_map, List.any_map, List.getLast?_map, Function.comp_def]
    rfl
  | _ => rfl

end Task

namespace Word

/-- Some word of the language has not ended. -/
def Passes (L : Set Word) : Prop := ∃ w, ⟨w, false⟩ ∈ L

theorem passes_one (reference : String) : Passes (one reference) := ⟨[reference], rfl⟩

theorem not_passes_final (reference : String) : ¬ Passes (final reference) := by
  rintro ⟨w, hw⟩
  exact Bool.false_ne_true (Word.mk.inj hw).2

theorem passes_andThen {L M : Set Word} : Passes (andThen L M) ↔ Passes L ∧ Passes M := by
  constructor
  · rintro ⟨w, hw⟩
    obtain ⟨u, v, -, hu, hv⟩ := mem_andThen_open.mp hw
    exact ⟨⟨u, hu⟩, v, hv⟩
  · rintro ⟨⟨u, hu⟩, v, hv⟩
    exact ⟨u ++ v, mem_andThen_open.mpr ⟨u, v, rfl, hu, hv⟩⟩

theorem passes_oneOf {Ls : List (Set Word)} : Passes (oneOf Ls) ↔ ∃ L ∈ Ls, Passes L := by
  constructor
  · rintro ⟨w, L, hL, hw⟩
    exact ⟨L, hL, w, hw⟩
  · rintro ⟨L, hL, w, hw⟩
    exact ⟨w, L, hL, hw⟩

theorem passes_inTurn {Ls : List (Set Word)} : Passes (inTurn Ls) ↔ ∀ L ∈ Ls, Passes L := by
  induction Ls with
  | nil => exact iff_of_true ⟨[], rfl⟩ fun _ hL => absurd hL List.not_mem_nil
  | cons L rest ih =>
    rw [List.forall_mem_cons, ← ih]
    exact passes_andThen

end Word

section

variable {settings : Settings} {history : History} {path : TreePath} {position : Nat}
  {sources : List String} {tasks : List Task}

theorem passes_sequenceWords : Word.Passes (sequenceWords settings history tasks) ↔
    ∀ t ∈ tasks, Word.Passes (t.words settings history) :=
  Word.passes_inTurn.trans List.forall_mem_map

theorem forkedRefs_ne_nil (reference : String) : forkedRefs settings history reference ≠ [] := by
  rw [forkedRefs]
  split
  · next hfew =>
    intro hnil
    rw [hnil] at hfew
    exact Bool.false_ne_true hfew
  · exact List.cons_ne_nil _ _

theorem passes_oneOf_map {α : Type} {f : α → Set Word} {p : α → Bool} {as : List α}
    (h : ∀ a ∈ as, (Word.Passes (f a) ↔ p a = true)) :
    Word.Passes (Word.oneOf (as.map f)) ↔ as.any p = true := by
  rw [Word.passes_oneOf, List.any_eq_true]
  constructor
  · rintro ⟨_, hmem, hpasses⟩
    obtain ⟨a, ha, rfl⟩ := List.mem_map.mp hmem
    exact ⟨a, ha, (h a ha).mp hpasses⟩
  · rintro ⟨a, ha, hp⟩
    exact ⟨f a, List.mem_map_of_mem ha, (h a ha).mpr hp⟩

/-- There is a way through a task if some word of it does not end there. -/
theorem Task.passes_words (t : Task) :
    Word.Passes (t.words settings history) ↔ t.passable history = true := by
  induction t using Task.induction with
  | step t ih =>
    have hsequence : ∀ s ∈ t.kind.sequences,
        (Word.Passes (sequenceWords settings history s) ↔ s.all (passable history) = true) := by
      intro s hs
      rw [passes_sequenceWords, List.all_eq_true]
      exact forall₂_congr (ih s hs)
    have hself := Word.passes_one t.reference
    rw [words_eq, passable_eq]
    cases hk : t.kind with
    | terminate => exact iff_of_false (Word.not_passes_final _) Bool.false_ne_true
    | fork branches =>
      rw [hk] at hsequence
      cases branches with
      | nil => exact iff_of_true hself rfl
      | cons branch rest =>
        dsimp only
        rw [Word.passes_andThen, and_iff_right hself]
        exact passes_oneOf_map hsequence
    | switch form s =>
      rw [hk] at hsequence
      dsimp only
      rw [Word.passes_andThen, and_iff_right hself]
      exact passes_oneOf_map hsequence
    | dynamicFork tasksParam inputParam =>
      have hne : forkedRefs settings history t.reference ≠ [] := forkedRefs_ne_nil t.reference
      obtain ⟨r, hr⟩ := List.exists_mem_of_ne_nil _ hne
      have hforked := Word.passes_oneOf.mpr ⟨_, List.mem_map_of_mem hr, Word.passes_one r⟩
      exact iff_of_true (Word.passes_andThen.mpr ⟨hself, hforked⟩) rfl
    | loop condition body =>
      dsimp only
      rw [Word.passes_andThen, and_iff_right hself, Word.passes_andThen,
        and_iff_left (Word.passes_one _)]
      cases (history.latest? t.reference).isSome with
      | true => exact iff_of_true (Word.passes_one _) rfl
      | false => exact hsequence body (Kind.mem_sequences_of_loop hk)
    | worker | join | exclusiveJoin | subWorkflow | event | loopEnd | marker =>
      exact iff_of_true hself rfl

/-! ### Frontiers

Something leads to the final bubble if the frontier behind all tasks is not empty. This is read off
the tree alone, whatever has run: a task that terminates has no end, and one with branches ends
where they do.
-/

theorem planTasks_frontier (htasks : ∀ t ∈ tasks, ∀ position sources,
      (t.plan settings history path position sources).Completes →
        ((t.plan settings history path position sources).frontier ≠ [] ↔ t.hasEnd = true))
    (hsources : tasks = [] → sources ≠ [])
    (hcompletes : (planTasks settings history path position tasks sources).Completes) :
    (planTasks settings history path position tasks sources).frontier ≠ [] ↔
      endsOpen tasks = true := by
  induction tasks generalizing position sources with
  | nil => exact iff_of_true (hsources rfl) rfl
  | cons t rest ih =>
    rw [planTasks_cons] at hcompletes ⊢
    rw [Plan.completes_andThen] at hcompletes
    rw [Plan.frontier_andThen]
    obtain ⟨ht, hrest⟩ := List.forall_mem_cons.mp htasks
    cases rest with
    | nil => exact ht position sources hcompletes.1
    | cons next rest => exact ih hrest (fun h => absurd h (List.cons_ne_nil _ _)) hcompletes.2

theorem Task.hasEnd_of_single {t : Task} (h : t.kind.isSingle = true) : t.hasEnd = true := by
  rw [hasEnd_eq]
  revert h
  cases t.kind with
  | fork branches =>
    intro h
    change (branches.isEmpty || branches.any endsOpen) = true
    rw [show branches.isEmpty = true from h, Bool.true_or]
  | terminate | switch | dynamicFork | loop => exact fun h => absurd h Bool.false_ne_true
  | worker | join | exclusiveJoin | subWorkflow | event | loopEnd | marker => exact fun _ => rfl

theorem Task.hasEnd_of_branches {t : Task} (h : t.kind.branches ≠ []) :
    t.hasEnd = t.kind.branches.any fun branch => endsOpen branch.2 := by
  have hsequences : (t.kind.branches.any fun branch => endsOpen branch.2) =
      t.kind.sequences.any endsOpen := by
    rw [Kind.sequences_eq_branches h, List.any_map]
    rfl
  rw [hasEnd_eq, hsequences]
  revert h
  cases t.kind with
  | fork branches =>
    intro h
    cases branches with
    | nil => exact absurd rfl h
    | cons branch rest => rfl
  | switch form s => exact fun _ => rfl
  | _ => exact fun h => absurd rfl h

theorem Plan.frontier_beside_ne_nil {ps : List Plan} :
    (beside ps).frontier ≠ [] ↔ ∃ p ∈ ps, p.frontier ≠ [] := by
  rw [beside, ne_eq, List.flatMap_eq_nil_iff]
  push Not
  rfl

theorem Task.planForked_frontier {reference : String}
    (hcompletes : (planForked settings history reference path).Completes) :
    (planForked settings history reference path).frontier ≠ [] := by
  rcases planForked_cases hcompletes with ⟨hfew, heq⟩ | ⟨-, aggregate, -, heq⟩
  · rw [heq] at hcompletes ⊢
    rw [Plan.completes_beside] at hcompletes
    obtain ⟨child, hchild⟩ : ∃ child, child ∈ (history.spawned? reference).getD [] := by
      refine List.exists_mem_of_ne_nil _ fun hnil => ?_
      rw [hnil] at hfew
      exact Bool.false_ne_true hfew
    have hmem := List.mem_map_of_mem (f := planChild history reference path) hchild
    obtain ⟨a, -, hplan⟩ := planChild_cases (hcompletes _ hmem)
    refine Plan.frontier_beside_ne_nil.mpr ⟨_, hmem, ?_⟩
    rw [hplan]
    exact List.cons_ne_nil _ _
  · rw [heq]
    exact List.cons_ne_nil _ _

/-- The frontier behind a task is empty just if the task has no end. -/
theorem Task.plan_frontier (t : Task) : ∀ path position sources,
    (t.plan settings history path position sources).Completes →
      ((t.plan settings history path position sources).frontier ≠ [] ↔ t.hasEnd = true) := by
  induction t using Task.induction with
  | step t ih =>
    intro path position sources hcompletes
    have hplanned := t.planned hcompletes
    generalize t.plan settings history path position sources = plan at hcompletes hplanned ⊢
    cases hplanned with
    | single hsingle _ => exact iff_of_true (List.cons_ne_nil _ _) (hasEnd_of_single hsingle)
    | final hk =>
      refine iff_of_false (fun h => h rfl) ?_
      rw [hasEnd_eq, hk]
      exact Bool.false_ne_true
    | branches hne =>
      rw [Plan.completes_andThen, Plan.completes_beside] at hcompletes
      have hbranch : ∀ branch ∈ t.kind.branches,
          ((planTasks settings history (path.child position branch.1) 0 branch.2
            [t.reference]).frontier ≠ [] ↔ endsOpen branch.2 = true) := by
        intro branch hmem
        refine planTasks_frontier (fun u hu => ih branch.2 (Kind.mem_sequences_of_branches hmem) u
          hu _) (fun _ => List.cons_ne_nil _ _) (hcompletes.2 _ ?_)
        exact List.mem_map_of_mem (f := fun branch => planTasks settings history
          (path.child position branch.1) 0 branch.2 [t.reference]) hmem
      rw [Plan.frontier_andThen, hasEnd_of_branches hne, List.any_eq_true,
        Plan.frontier_beside_ne_nil]
      constructor
      · rintro ⟨_, hplan, hopen⟩
        obtain ⟨branch, hmem, rfl⟩ := List.mem_map.mp hplan
        exact ⟨branch, hmem, (hbranch branch hmem).mp hopen⟩
      · rintro ⟨branch, hmem, hopen⟩
        exact ⟨_, List.mem_map_of_mem hmem, (hbranch branch hmem).mpr hopen⟩
    | forked hk =>
      rw [Plan.completes_andThen] at hcompletes
      rw [Plan.frontier_andThen, hasEnd_eq, hk]
      exact iff_of_true (planForked_frontier hcompletes.2) rfl
    | body hk _ =>
      rw [Plan.frontier_andThen, Plan.frontier_andThen, hasEnd_eq, hk]
      exact iff_of_true (List.cons_ne_nil _ _) rfl
    | iterations hk _ =>
      rw [Plan.completes_andThen] at hcompletes
      obtain ⟨aggregate, -, heq⟩ := planIterations_cases hcompletes.2
      rw [Plan.frontier_andThen, heq, Plan.frontier_andThen, hasEnd_eq, hk]
      exact iff_of_true (List.cons_ne_nil _ _) rfl

end

namespace Graph

/-- Some route leads from one vertex to the other. -/
def Reaches (g : Graph) (u v : String) : Prop :=
  ∃ w, Route (fun a b => b ∈ g.successors a) u w v

variable {settings : Settings} {history : History} {tasks : List Task} {g : Graph}

/-- Something leads to the final bubble whenever it is shown. -/
theorem Shows.final_predecessors (hg : g.Shows history (Plan.ofTasks settings history tasks).shown)
    (hfinal : finalBubble ∈ g.references) : g.predecessors finalBubble ≠ [] := by
  rw [hg.references_eq] at hfinal
  obtain ⟨p, hp, href⟩ := List.mem_map.mp hfinal
  obtain ⟨-, hsources⟩ := List.mem_filter.mp hp
  have hne : p.sources ≠ [] := (of_decide_eq_true hsources).resolve_left (not_not_intro href)
  obtain ⟨s, hs⟩ := List.exists_mem_of_ne_nil _ hne
  obtain ⟨e, he, rfl, htarget⟩ := hg.joins p hp s hs
  have hjoins : e.joins e.source finalBubble = true :=
    Edge.joins_iff.mpr ⟨rfl, htarget.trans href⟩
  exact List.ne_nil_of_mem (List.mem_filter.mpr
    ⟨(hg.edge_mem he).1, List.any_eq_true.mpr ⟨e, he, hjoins⟩⟩)

/-- Behind each vertex, some vertex that nothing leads to comes first. -/
theorem exists_first (hforward : ∀ u v, g.Joins u v → g.Precedes u v) {v : String}
    (hv : v ∈ g.references) : ∃ r ∈ g.references, g.predecessors r = [] ∧ g.Reaches r v := by
  induction hrank : g.references.idxOf v using Nat.strong_induction_on generalizing v with
  | h rank ih =>
    subst hrank
    cases hfirst : g.predecessors v with
    | nil => exact ⟨v, hv, hfirst, [], .stay v⟩
    | cons u rest =>
      have hu : u ∈ g.predecessors v := hfirst ▸ List.mem_cons_self
      obtain ⟨hmem, hany⟩ := List.mem_filter.mp hu
      obtain ⟨e, he, hjoins⟩ := List.any_eq_true.mp hany
      have hlt := (hforward u v ⟨e, he, Edge.joins_iff.mp hjoins⟩).2
      obtain ⟨r, hr, hnone, w, hroute⟩ := ih _ hlt hmem rfl
      have hnext : v ∈ g.successors u :=
        List.mem_filter.mpr ⟨hv, List.any_eq_true.mpr ⟨e, he, hjoins⟩⟩
      exact ⟨r, hr, hnone, w ++ [v], hroute.append (Route.single hnext)⟩

theorem mem_references_of_reaches {u v : String} (hne : u ≠ v) (h : g.Reaches u v) :
    v ∈ g.references := by
  obtain ⟨w, hroute⟩ := h
  have hsuccessors : ∀ a b, b ∈ g.successors a → b ∈ {r | r ∈ g.references} :=
    fun a b hb => (List.mem_filter.mp hb).1
  rcases hroute.target_mem hsuccessors with ⟨-, heq⟩ | ⟨-, hmem⟩
  · exact absurd heq hne
  · exact hmem

/-- The final bubble is drawn if the tasks leave something to draw it after. -/
theorem finalBubble_mem_iff_endsOpen (hg : Graph.ofTasks settings history tasks = .ok g)
    (hnodup : (Plan.ofTasks settings history tasks).references.Nodup) :
    finalBubble ∈ g.references ↔ endsOpen tasks = true := by
  have hcompletes := ofTasks_completes hg
  rw [Plan.ofTasks_eq, Plan.completes_andThen, Plan.completes_andThen] at hcompletes
  rw [← planTasks_frontier (fun t _ position sources => t.plan_frontier .root position sources)
    (fun _ => List.cons_ne_nil _ _) hcompletes.2.1, (ofTasks_shows hg hnodup).references_eq,
    List.mem_map]
  have hplaced : ⟨.plain "final" finalBubble (.marker .terminal), .root, none, none,
      (planTasks settings history .root 0 tasks [startBubble]).frontier⟩ ∈
        (Plan.ofTasks settings history tasks).placements := by
    rw [Plan.ofTasks_eq, Plan.placements_andThen, Plan.placements_andThen]
    exact List.mem_append_right _ (List.mem_append_right _ (List.mem_singleton_self _))
  constructor
  · rintro ⟨p, hp, href⟩
    obtain ⟨hp, hsources⟩ := List.mem_filter.mp hp
    have hsame := List.inj_on_of_nodup_map hnodup hp hplaced href
    rw [hsame] at hsources
    exact (of_decide_eq_true hsources).resolve_left (fun h => h rfl)
  · intro hsources
    exact ⟨_, List.mem_filter.mpr ⟨hplaced, decide_eq_true (Or.inr hsources)⟩, rfl⟩

/-- The start bubble reaches the final bubble if there is a way through each task. -/
theorem reaches_final_iff (hh : history.Bound) (hg : Graph.ofTasks settings history tasks = .ok g)
    (hnodup : (Plan.ofTasks settings history tasks).references.Nodup) :
    g.Reaches startBubble finalBubble ↔ ∀ t ∈ tasks, t.passable history = true := by
  have hwords : Word.Passes (sequenceWords settings history tasks) ↔
      ∀ t ∈ tasks, t.passable history = true :=
    passes_sequenceWords.trans (forall₂_congr fun t _ => t.passes_words)
  rw [← hwords]
  constructor
  · rintro ⟨w, hroute⟩
    obtain ⟨u, -, hu⟩ := (route_final_iff hh hg hnodup).mp hroute
    exact ⟨u, hu⟩
  · rintro ⟨u, hu⟩
    exact ⟨u ++ [finalBubble], (route_final_iff hh hg hnodup).mpr ⟨u, rfl, hu⟩⟩

/-- **The final bubble.** A diagram contains the final bubble if and only if some way leads there:
from the start bubble, or else from another vertex that nothing leads to. It is left out exactly
when the last task has no end. From the start bubble a way leads there exactly when there is one
through each task of the root sequence. -/
theorem finalBubble_mem_iff (hh : history.Bound)
    (hg : Graph.ofTasks settings history tasks = .ok g)
    (hnodup : (Plan.ofTasks settings history tasks).references.Nodup) :
    (finalBubble ∈ g.references ↔ g.Reaches startBubble finalBubble ∨
      ∃ r ∈ g.references, r ≠ startBubble ∧ r ≠ finalBubble ∧ g.predecessors r = [] ∧
        g.Reaches r finalBubble) ∧
    (finalBubble ∈ g.references ↔ endsOpen tasks = true) ∧
    (g.Reaches startBubble finalBubble ↔ ∀ t ∈ tasks, t.passable history = true) := by
  have hshows := ofTasks_shows hg hnodup
  have hforward : ∀ u v, g.Joins u v → g.Precedes u v := fun u v huv =>
    joins_precedes hh.filed hg hnodup huv
  refine ⟨⟨fun hfinal => ?_, ?_⟩, finalBubble_mem_iff_endsOpen hg hnodup,
    reaches_final_iff hh hg hnodup⟩
  · obtain ⟨r, hr, hnone, hreaches⟩ := exists_first hforward hfinal
    by_cases hstart : r = startBubble
    · exact Or.inl (hstart ▸ hreaches)
    · refine Or.inr ⟨r, hr, hstart, ?_, hnone, hreaches⟩
      rintro rfl
      exact hshows.final_predecessors hfinal hnone
  · rintro (hreaches | ⟨r, -, -, hne, -, hreaches⟩)
    · exact mem_references_of_reaches (by decide) hreaches
    · exact mem_references_of_reaches hne hreaches

end Graph

namespace Sample

/-- A task behind one that terminates. -/
def strandedTasks : List Task := [.ofRef "t" .terminate, .ofRef "a" (.worker .simple)]

def strandedGraph : Graph := (Graph.ofTasks .standard .empty strandedTasks).toOption.getD .empty

end Sample

/-- The task behind the terminate task is where the way to the final bubble begins. -/
theorem Graph.finalBubble_mem_iff_of_stranded :
    Graph.ofTasks .standard .empty Sample.strandedTasks = .ok Sample.strandedGraph ∧
      finalBubble ∈ Sample.strandedGraph.references ∧
      ∃ r ∈ Sample.strandedGraph.references, r ≠ startBubble ∧ r ≠ finalBubble ∧
        Sample.strandedGraph.predecessors r = [] ∧ Sample.strandedGraph.Reaches r finalBubble := by
  have hg : Graph.ofTasks .standard .empty Sample.strandedTasks = .ok Sample.strandedGraph :=
    Outcome.eq_ok_of_isOk (by decide +kernel) _
  obtain ⟨hmem, hopen, hstart⟩ := Graph.finalBubble_mem_iff (Or.inl rfl) hg (by decide +kernel)
  have hfinal := hopen.mpr (by decide +kernel)
  have hnot : ¬ Sample.strandedGraph.Reaches startBubble finalBubble := by
    rw [hstart]
    decide +kernel
  exact ⟨hg, hfinal, (hmem.mp hfinal).resolve_left hnot⟩

/-- A final bubble may be drawn although the start bubble does not reach it. -/
theorem Graph.finalBubble_beyond_reach :
    Graph.ofTasks .standard .empty Sample.strandedTasks = .ok Sample.strandedGraph ∧
      (Plan.ofTasks .standard .empty Sample.strandedTasks).references.Nodup ∧
      finalBubble ∈ Sample.strandedGraph.references ∧
      ¬ Sample.strandedGraph.Reaches startBubble finalBubble := by
  have hg : Graph.ofTasks .standard .empty Sample.strandedTasks = .ok Sample.strandedGraph :=
    Outcome.eq_ok_of_isOk (by decide +kernel) _
  have hnodup : (Plan.ofTasks .standard .empty Sample.strandedTasks).references.Nodup := by
    decide +kernel
  refine ⟨hg, hnodup, by decide +kernel, ?_⟩
  rw [Graph.reaches_final_iff (Or.inl rfl) hg hnodup]
  decide +kernel

end Flowchart

import Flowchart.Definition.Validation
import Flowchart.Proofs.Reachable
import Flowchart.Proofs.WalkOrder

/-!
# Diagrams of valid definitions

A definition that passes the rules has distinct references and no tasks of generated types. So far
as no task takes the name of a generated vertex, its diagram draws each task and each generated
vertex once. The rules do not ask for that: the names of generated vertices are made from references
by suffixes, and a task may have such a name itself.
-/

namespace Flowchart

theorem Task.offence?_eq_none {t : Task} {joined : Bool} {seen : List String}
    (h : t.offence? joined seen = none) : t.reference ∉ seen ∧ t.type.isGenerated = false := by
  unfold offence? at h
  by_cases hseen : t.reference ∈ seen
  · rw [if_pos hseen] at h
    cases h
  · rw [if_neg hseen] at h
    by_cases htype : t.type.isGenerated = true
    · rw [if_pos htype] at h
      cases h
    · exact ⟨hseen, Bool.eq_false_iff.mpr htype⟩

namespace Checker

/-- These tasks were met after `seen`, each reference for the first time, and none of them has a
generated type. -/
structure Passed (seen seen' : List String) (tasks : List Task) : Prop where
  seen_eq : seen' = (tasks.map (·.reference)).reverse ++ seen
  nodup : seen.Nodup → seen'.Nodup
  own : ∀ t ∈ tasks, t.type.isGenerated = false

variable {seen seen' between : List String} {tasks later : List Task}

theorem Passed.nothing (seen : List String) : Passed seen seen [] :=
  ⟨rfl, id, fun _ ht => absurd ht List.not_mem_nil⟩

theorem Passed.cons {t : Task} (hseen : t.reference ∉ seen) (htype : t.type.isGenerated = false)
    (h : Passed (t.reference :: seen) seen' tasks) : Passed seen seen' (t :: tasks) where
  seen_eq := by
    rw [h.seen_eq, List.map_cons, List.reverse_cons, List.append_assoc]
    rfl
  nodup := fun hnodup => h.nodup (List.nodup_cons.mpr ⟨hseen, hnodup⟩)
  own := List.forall_mem_cons.mpr ⟨htype, h.own⟩

theorem Passed.append (h : Passed seen between tasks) (h' : Passed between seen' later) :
    Passed seen seen' (tasks ++ later) where
  seen_eq := by
    rw [h'.seen_eq, h.seen_eq, List.map_append, List.reverse_append, List.append_assoc]
  nodup := fun hnodup => h'.nodup (h.nodup hnodup)
  own := fun t ht => (List.mem_append.mp ht).elim (h.own t) (h'.own t)

theorem sequence_passed
    (htasks : ∀ t ∈ tasks, ∀ joined seen seen', (ofTask t).run joined seen = .ok seen' →
      Passed seen seen' t.family)
    (h : sequence (tasks.map ofTask) seen = .ok seen') : Passed seen seen' (listing tasks) := by
  induction tasks generalizing seen with
  | nil =>
    obtain rfl := Outcome.pure_eq_ok.mp h
    exact Passed.nothing seen
  | cons t rest ih =>
    obtain ⟨between, hfirst, hrest⟩ := Outcome.bind_eq_ok.mp h
    obtain ⟨ht, htasks⟩ := List.forall_mem_cons.mp htasks
    rw [listing, List.flatMap_cons]
    exact (ht _ _ _ hfirst).append (ih htasks hrest)

theorem sequences_passed {groups : List (List Task)}
    (htasks : ∀ s ∈ groups, ∀ t ∈ s, ∀ joined seen seen', (ofTask t).run joined seen = .ok seen' →
      Passed seen seen' t.family)
    (h : sequences (groups.map (List.map ofTask)) seen = .ok seen') :
    Passed seen seen' (listing groups.flatten) := by
  induction groups generalizing seen with
  | nil =>
    obtain rfl := Outcome.pure_eq_ok.mp h
    exact Passed.nothing seen
  | cons s rest ih =>
    obtain ⟨between, hfirst, hrest⟩ := Outcome.bind_eq_ok.mp h
    obtain ⟨hs, htasks⟩ := List.forall_mem_cons.mp htasks
    rw [List.flatten_cons, listing, List.flatMap_append]
    exact (sequence_passed hs hfirst).append (ih htasks hrest)

/-- A task passes if it breaks no rule by itself and what is in it passes behind it. -/
theorem ofTask_run_ok {t : Task} {joined : Bool} (h : (ofTask t).run joined seen = .ok seen') :
    t.offence? joined seen = none ∧
      sequences (t.kind.sequences.map (List.map ofTask)) (t.reference :: seen) = .ok seen' := by
  rw [ofTask, Task.fold_eq] at h
  dsimp only at h
  cases hoffence : t.offence? joined seen with
  | some offence =>
    rw [hoffence] at h
    cases h
  | none =>
    rw [hoffence, Kind.sequences_map] at h
    exact ⟨rfl, h⟩

theorem ofTask_passed (t : Task) : ∀ joined seen seen',
    (ofTask t).run joined seen = .ok seen' → Passed seen seen' t.family := by
  induction t using Task.induction with
  | step t ih =>
    intro joined seen seen' h
    obtain ⟨hoffence, hinner⟩ := ofTask_run_ok h
    obtain ⟨hseen, htype⟩ := Task.offence?_eq_none hoffence
    rw [Task.family_eq_listing]
    exact Passed.cons hseen htype (sequences_passed ih hinner)

end Checker

/-- References are distinct in a definition that passes the rules, and no type is generated. -/
theorem Definition.validate_ok {d : Definition} (h : d.validate = .ok ()) :
    ((listing d.tasks).map (·.reference)).Nodup ∧
      ∀ t ∈ listing d.tasks, t.type.isGenerated = false := by
  obtain ⟨seen, hseen, -⟩ := Outcome.bind_eq_ok.mp h
  have hpassed := Checker.sequence_passed (fun t _ => Checker.ofTask_passed t) hseen
  refine ⟨?_, hpassed.own⟩
  have hnodup := hpassed.nodup List.nodup_nil
  rw [hpassed.seen_eq, List.append_nil, List.nodup_reverse] at hnodup
  exact hnodup

section

variable {t u t' u' : Task} {tasks : List Task}

theorem Task.mem_attendants (h : u ∈ t.attendants) :
    u.type.isGenerated = true ∧
      (u.reference = loopEndRef t.reference ∨ u.reference = dynamicForkChildrenRef t.reference) := by
  unfold attendants at h
  split at h
  · obtain rfl := List.mem_singleton.mp h
    exact ⟨rfl, Or.inr rfl⟩
  · obtain rfl := List.mem_singleton.mp h
    exact ⟨rfl, Or.inl rfl⟩
  · cases h

theorem Task.eq_of_attendants (hu : u ∈ t.attendants) (hu' : u' ∈ t'.attendants)
    (h : u.reference = u'.reference) : t.reference = t'.reference := by
  rcases (mem_attendants hu).2 with hr | hr <;> rcases (mem_attendants hu').2 with hr' | hr' <;>
    rw [hr, hr'] at h
  · exact loopEndRef_injective h
  · exact absurd h loopEndRef_ne_dynamicForkChildrenRef
  · exact absurd h.symm loopEndRef_ne_dynamicForkChildrenRef
  · exact dynamicForkChildrenRef_injective h

theorem Task.attendants_ne_bubble (hu : u ∈ t.attendants) :
    u.reference ≠ startBubble ∧ u.reference ≠ finalBubble := by
  have hlast : u.reference.toList.getLast? = some 'D' ∨ u.reference.toList.getLast? = some 'R' := by
    rcases (mem_attendants hu).2 with hr | hr <;> rw [hr]
    · exact Or.inl (getLast?_loopEndRef _)
    · exact Or.inr (getLast?_dynamicForkChildrenRef _)
  constructor <;> intro heq <;> rw [heq] at hlast <;> exact absurd hlast (by decide)

theorem isGenerated_of_mem_generated (h : u ∈ generated tasks) : u.type.isGenerated = true := by
  rcases List.mem_cons.mp h with rfl | h
  · rfl
  rcases List.mem_cons.mp h with rfl | h
  · rfl
  obtain ⟨t, -, hu⟩ := List.mem_flatMap.mp h
  exact (Task.mem_attendants hu).1

theorem Task.nodup_attendants (t : Task) : (t.attendants.map (·.reference)).Nodup := by
  unfold attendants
  split <;> simp

/-- Distinct references give distinct names to what is generated for them. -/
theorem nodup_generated (hnodup : ((listing tasks).map (·.reference)).Nodup) :
    ((generated tasks).map (·.reference)).Nodup := by
  have hattendants : ∀ r, r ∈ ((listing tasks).flatMap Task.attendants).map (·.reference) →
      r ≠ startBubble ∧ r ≠ finalBubble := by
    intro r hr
    obtain ⟨u, hu, rfl⟩ := List.mem_map.mp hr
    obtain ⟨t, -, hu⟩ := List.mem_flatMap.mp hu
    exact Task.attendants_ne_bubble hu
  rw [generated, List.map_cons, List.map_cons, List.nodup_cons, List.nodup_cons, List.mem_cons,
    not_or]
  refine ⟨⟨by decide, fun hmem => (hattendants _ hmem).1 rfl⟩,
    fun hmem => (hattendants _ hmem).2 rfl, ?_⟩
  rw [List.map_flatMap, List.nodup_flatMap]
  refine ⟨fun t _ => t.nodup_attendants, ?_⟩
  refine (List.pairwise_map.mp hnodup).imp fun hne => ?_
  intro r hr hr'
  obtain ⟨u, hu, rfl⟩ := List.mem_map.mp hr
  obtain ⟨u', hu', heq⟩ := List.mem_map.mp hr'
  exact hne (Task.eq_of_attendants hu hu' heq.symm)

end

namespace Graph

variable {settings : Settings} {tasks : List Task} {g : Graph} {t : Task}

/-- Each task of the tree has a vertex of its own, and so has each generated task, up to a final
bubble that nothing leads to. No edge leads back to where it begins. -/
structure DrawsEach (g : Graph) (tasks : List Task) : Prop where
  own : ∀ t ∈ listing tasks, (g.vertex? t.reference).map (·.task) = some t
  generated : ∀ t ∈ generated tasks, (g.vertex? t.reference).map (·.task) = some t ∨
    t = Task.final ∧ t.reference ∉ g.references
  loopless : ∀ r, ¬ g.Joins r r

/-- In the diagram of a definition, the task that is drawn under a reference is the one that has
it. -/
theorem vertex?_of_definition (hg : Graph.ofTasks settings .empty tasks = .ok g)
    (hnodup : ((listing tasks ++ generated tasks).map (·.reference)).Nodup)
    (ht : t ∈ listing tasks ++ generated tasks) (hdrawn : t.reference ∈ g.references) :
    (g.vertex? t.reference).map (·.task) = some t := by
  obtain ⟨v, hvertex⟩ := exists_vertex? hdrawn
  obtain ⟨hvertices, href⟩ := vertex?_ok hvertex
  obtain ⟨p, hp, rfl⟩ := mem_vertices_ofTasks hg hvertices
  have hmem : p.task ∈ listing tasks ++ generated tasks := by
    rw [← (framed_walk_perm tasks).mem_iff, ← (Plan.ofTasks_draws_walk settings tasks).tasks]
    exact List.mem_map_of_mem hp
  rw [hvertex, Option.map_some]
  exact congrArg some (List.inj_on_of_nodup_map hnodup hmem ht href)

theorem exists_drawsEach (hlisting : ((listing tasks).map (·.reference)).Nodup)
    (hapart : ∀ t ∈ listing tasks, t.reference ∉ (generated tasks).map (·.reference)) :
    ∃ g, Graph.ofTasks settings .empty tasks = .ok g ∧ g.DrawsEach tasks := by
  have hnodup : ((listing tasks ++ generated tasks).map (·.reference)).Nodup := by
    rw [List.map_append, List.nodup_append']
    refine ⟨hlisting, nodup_generated hlisting, fun r hr => ?_⟩
    obtain ⟨t, ht, rfl⟩ := List.mem_map.mp hr
    exact hapart t ht
  have hperm := Plan.references_perm settings tasks
  have hplan : (Plan.ofTasks settings .empty tasks).references.Nodup := hperm.nodup_iff.mpr hnodup
  obtain ⟨g, hg⟩ := exists_of_completes History.Filed.empty
    (Plan.ofTasks_draws_walk settings tasks).completes hplan
  have hvertex : ∀ t ∈ listing tasks ++ generated tasks, t.reference ≠ finalBubble →
      (g.vertex? t.reference).map (·.task) = some t := by
    intro t ht hne
    have hplanned := hperm.mem_iff.mpr (List.mem_map_of_mem ht)
    exact vertex?_of_definition hg hnodup ht (mem_references_ofTasks hg hplanned hne)
  refine ⟨g, hg, fun t ht => ?_, fun t ht => ?_, fun r hjoins => ?_⟩
  · refine hvertex t (List.mem_append_left _ ht) fun heq => hapart t ht ?_
    rw [heq]
    exact List.mem_map_of_mem (List.mem_cons_of_mem Task.start List.mem_cons_self)
  · have ht' := List.mem_append_right (listing tasks) ht
    by_cases hdrawn : t.reference ∈ g.references
    · exact Or.inl (vertex?_of_definition hg hnodup ht' hdrawn)
    · by_cases hne : t.reference = finalBubble
      · refine Or.inr ⟨?_, hdrawn⟩
        have hfinal : Task.final ∈ listing tasks ++ generated tasks :=
          List.mem_append_right _ (List.mem_cons_of_mem _ List.mem_cons_self)
        exact List.inj_on_of_nodup_map hnodup ht' hfinal hne
      · exact Or.inl (hvertex t ht' hne)
  · exact absurd (joins_precedes History.Filed.empty hg hplan hjoins).2 (lt_irrefl _)

end Graph

namespace Diagram

variable {d : Definition} {settings : Settings}

/-- **Drawing valid definitions.** A definition that passes the rules has a diagram with a vertex
for each task exactly if no task has the name of a generated vertex. Otherwise two tasks share one
vertex, or nothing is drawn at all. -/
theorem drawsEach_iff (hvalid : d.validate = .ok ()) :
    (∃ diagram, Diagram.ofDefinition d settings = .ok diagram ∧
        diagram.graph.DrawsEach d.tasks) ↔
      ∀ t ∈ listing d.tasks, t.reference ∉ (generated d.tasks).map (·.reference) := by
  obtain ⟨hnodup, hown⟩ := Definition.validate_ok hvalid
  constructor
  · rintro ⟨diagram, -, hdraws⟩ t ht hmem
    obtain ⟨u, hu, href⟩ := List.mem_map.mp hmem
    have hvertex := hdraws.own t ht
    have heq : t = u := by
      rcases hdraws.generated u hu with hgenerated | ⟨-, hdrawn⟩
      · rw [href, hvertex] at hgenerated
        exact Option.some.inj hgenerated
      · obtain ⟨v, hv, -⟩ := Option.map_eq_some_iff.mp hvertex
        have hreference := List.find?_some hv
        refine absurd ?_ hdrawn
        rw [href, ← beq_iff_eq.mp hreference]
        exact List.mem_map_of_mem (List.mem_of_find?_eq_some hv)
    have htype := hown t ht
    rw [heq, isGenerated_of_mem_generated hu] at htype
    cases htype
  · intro hapart
    obtain ⟨g, hg, hdraws⟩ := Graph.exists_drawsEach hnodup hapart
    exact ⟨⟨d, none, .empty, settings, g⟩, Outcome.bind_eq_ok.mpr ⟨g, hg, rfl⟩, hdraws⟩

/-- A task that is named like the final bubble behind another one. -/
def shadowed : Definition :=
  .ofTasks "w" [.ofRef "a" (.worker .simple), .ofRef finalBubble (.worker .simple)]

theorem drawsEach_iff_of_shadowed : shadowed.validate = .ok () ∧
    ¬ ∃ diagram, Diagram.ofDefinition shadowed .standard = .ok diagram ∧
      diagram.graph.DrawsEach shadowed.tasks := by
  have hvalid : shadowed.validate = .ok () := by decide +kernel
  refine ⟨hvalid, fun hdrawn => ?_⟩
  have hapart := (drawsEach_iff hvalid).mp hdrawn
  revert hapart
  decide +kernel

end Diagram

end Flowchart

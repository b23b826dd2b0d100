import Flowchart.Proofs.DrawnTasks
import Flowchart.Proofs.Entries
import Flowchart.Proofs.Reachable

/-!
# References after an insertion

An insertion puts a template in, under a reference that is not drawn. Two references can be given
away twice even so: that of a task which is not drawn because it lies in a loop that has run, and
that of the join which comes with a fork and is never looked for.
-/

namespace Flowchart

/-- The type whose template an edit puts in. -/
def Edit.inserted? : Edit → Option TaskType
  | insert _ type | addBranch _ type | addCase _ type | setDefault _ type | setBody _ type =>
    some type
  | delete _ | replace _ _ => none

namespace Diagram

/-- The tasks that an insertion takes the place of: the default or the body that is set anew. -/
def displaced (d : Diagram) : Edit → List Task
  | .setDefault reference _ => branchAt reference .default
  | .setBody reference _ => branchAt reference .loopBody
  | _ => []
where
  branchAt (reference : String) (branch : Branch) : List Task :=
    match d.locate reference with
    | .ok (_, _, t) => (t.kind.get? branch).getD []
    | .error _ => []

variable {d : Diagram} {e : Edit} {type : TaskType} {tasks : List Task}

theorem branchAt_eq {reference : String} {branch : Branch} {place : Place} {s : List Task}
    {t : Task} (hlocate : d.locate reference = .ok (place, s, t)) :
    displaced.branchAt d reference branch = (t.kind.get? branch).getD [] := by
  rw [displaced.branchAt, hlocate]

/-- An insertion puts a template in behind a task, or else through the kind of a task, in the place
of what it displaces. -/
theorem editedTasks_entry (he : e.inserted? = some type) :
    (∃ target, e = .insert target type) ∨ ∃ host expected enter branch, Kind.Entry enter branch ∧
      (∀ k, branch k = .loopBody → e = .setBody host type) ∧ ∀ d : Diagram,
        d.editedTasks e = (d.freshTasks type >>= fun inserted =>
          d.changeKind host expected (enter inserted)) ∧
        ∀ place s t, d.locate host = .ok (place, s, t) →
          d.displaced e = (t.kind.get? (branch t.kind)).getD [] := by
  cases e with
  | delete target => cases he
  | replace target task => cases he
  | insert target type =>
    obtain rfl := Option.some.inj he
    exact Or.inl ⟨target, rfl⟩
  | addBranch host type =>
    obtain rfl := Option.some.inj he
    refine Or.inr ⟨host, _, _, _, .addBranch, nofun, fun d => ⟨rfl, fun place s t _ => ?_⟩⟩
    rw [Kind.get?_nextBranch]
    rfl
  | addCase host type =>
    obtain rfl := Option.some.inj he
    refine Or.inr ⟨host, _, _, _, .addCase, nofun, fun d => ⟨rfl, fun place s t _ => ?_⟩⟩
    rw [Kind.get?_nextCase]
    rfl
  | setDefault host type =>
    obtain rfl := Option.some.inj he
    exact Or.inr ⟨host, _, _, _, .setDefault, nofun, fun d =>
      ⟨rfl, fun place s t hlocate => branchAt_eq hlocate⟩⟩
  | setBody host type =>
    obtain rfl := Option.some.inj he
    exact Or.inr ⟨host, _, _, _, .setBody, fun _ _ => rfl, fun d =>
      ⟨rfl, fun place s t hlocate => branchAt_eq hlocate⟩⟩

/-- An insertion puts the references of a template in the place of those that are displaced. -/
theorem editedTasks_swaps (he : e.inserted? = some type) (h : d.editedTasks e = .ok tasks) :
    ∃ inserted, d.freshTasks type = .ok inserted ∧ Swaps (treeRefs (d.displaced e))
      (treeRefs inserted) (treeRefs d.tasks) (treeRefs tasks) := by
  rcases editedTasks_entry he with ⟨target, rfl⟩ | ⟨host, expected, enter, branch, hentry, -, heq⟩
  · rw [editedTasks, Outcome.bind_eq_ok] at h
    obtain ⟨inserted, hinserted, h⟩ := h
    rw [Outcome.bind_eq_ok] at h
    obtain ⟨place, -, h⟩ := h
    obtain ⟨s, -, hswaps⟩ := treeRefs_change? (spliceAt_ok h)
    refine ⟨inserted, hinserted, hswaps.trans
      ⟨treeRefs (s.take place.index), treeRefs (s.drop place.index), ?_, ?_⟩⟩
    · change _ = _ ++ [] ++ _
      rw [List.append_nil, ← treeRefs_append, List.take_append_drop]
    · rw [treeRefs_append, treeRefs_append]
  · obtain ⟨heq, hdisplaced⟩ := heq d
    rw [heq, Outcome.bind_eq_ok] at h
    obtain ⟨inserted, hinserted, h⟩ := h
    obtain ⟨place, s, t, kind, hlocate, hkind, hmodify⟩ := changeKind_ok h
    obtain ⟨-, -, -, -, hs, ht, -⟩ := locate_ok hlocate
    rw [hdisplaced place s t hlocate]
    exact ⟨inserted, hinserted,
      (treeRefs_modify? hs ht rfl hmodify).trans (hentry.swaps hkind treeRefs_nil)⟩

end Diagram

/-- The references of a template: a fork comes with one for its join. -/
theorem Task.treeRefs_template {type : TaskType} {reference : String} {inserted : List Task}
    (h : Task.template type reference = .ok inserted) :
    treeRefs inserted = if type = .forkJoin ∨ type = .forkJoinDynamic
      then [reference, pairedJoinRef reference] else [reference] := by
  rcases Task.template_ok h with ⟨t, rfl, rfl, -, hempty, hfork, hdynamic⟩ |
    ⟨t, rfl, rfl, -, hempty, hfork⟩
  · have hinner : t.kind.treeRefs = [] := by
      rw [Kind.treeRefs, List.flatMap_eq_nil_iff]
      intro s hs
      rw [List.flatten_eq_nil_iff.mp hempty s hs, treeRefs_nil]
    rw [if_neg (not_or.mpr ⟨hfork, hdynamic⟩), treeRefs_cons, hinner]
    rfl
  · rw [if_pos hfork, treeRefs_cons, Kind.treeRefs, hempty]
    rfl

theorem append_suffix_ne {suffix : String} (r : String) (h : suffix.length ≠ 0) :
    r ++ suffix ≠ r := by
  intro heq
  have hlength := congrArg String.length heq
  rw [String.length_append] at hlength
  omega

theorem Task.pairedJoinRef_ne (reference : String) : Task.pairedJoinRef reference ≠ reference :=
  append_suffix_ne reference (by decide)

theorem Task.mem_treeRefs_template {type : TaskType} {reference r : String} {inserted : List Task}
    (h : Task.template type reference = .ok inserted) :
    r ∈ treeRefs inserted ↔ r = reference ∨
      (type = .forkJoin ∨ type = .forkJoinDynamic) ∧ r = Task.pairedJoinRef reference := by
  rw [Task.treeRefs_template h]
  split
  · next hfork => simp [hfork]
  · next hplain => simp [hplain]

theorem Task.nodup_treeRefs_template {type : TaskType} {reference : String} {inserted : List Task}
    (h : Task.template type reference = .ok inserted) : (treeRefs inserted).Nodup := by
  rw [Task.treeRefs_template h]
  split
  · apply List.nodup_cons.mpr
    refine ⟨fun hjoin => ?_, List.nodup_singleton _⟩
    exact Task.pairedJoinRef_ne _ (List.mem_singleton.mp hjoin).symm
  · exact List.nodup_singleton _

namespace Diagram

/-- The new reference is not drawn, so a task that has it already is one that is not drawn. -/
theorem Reachable.hiddenIn_of_freshRef {d : Diagram} {type : TaskType} {inserted : List Task}
    (hd : d.Reachable) (hinserted : d.freshTasks type = .ok inserted) {u : Task}
    (hu : u ∈ listing d.tasks) (heq : u.reference = d.freshRef type.stem) :
    HiddenIn d.history d.tasks u := by
  obtain ⟨n, hn, hunused, -⟩ := d.freshRef_spec type.stem
  rcases Graph.draws_of_mem_listing hd.graph_eq hu with hdrawn | hfinal | hhidden
  · exact absurd (hn ▸ heq ▸ hdrawn) hunused
  · exact absurd (heq.symm.trans hfinal) (freshRef_ne_finalBubble hinserted)
  · exact hhidden

/-- **References after an insertion.** Distinct references stay distinct exactly if no task that is
left has one of the new ones, and that can only be a task in a loop that has run, or one with the
reference of the join that comes with a fork. -/
theorem Reachable.treeRefs_nodup_iff {d after : Diagram} {e : Edit} {type : TaskType}
    (hd : d.Reachable) (hnodup : (treeRefs d.tasks).Nodup) (he : e.inserted? = some type)
    (hedit : d.edit e = .ok after) :
    (treeRefs after.tasks).Nodup ↔
      ∀ u ∈ listing d.tasks, u.reference ∉ treeRefs (d.displaced e) →
        (HiddenIn d.history d.tasks u → u.reference ≠ d.freshRef type.stem) ∧
          (type = .forkJoin ∨ type = .forkJoinDynamic →
            u.reference ≠ Task.pairedJoinRef (d.freshRef type.stem)) := by
  obtain ⟨inserted, hinserted, hswaps⟩ := editedTasks_swaps he (edit_ok hedit).1
  rw [hswaps.nodup_iff hnodup (Task.nodup_treeRefs_template hinserted)]
  constructor
  · intro hleft u hu hkept
    have hnot : u.reference ∉ treeRefs inserted :=
      fun hr => hkept (hleft _ hr (List.mem_map_of_mem hu))
    rw [Task.mem_treeRefs_template hinserted, not_or, not_and] at hnot
    exact ⟨fun _ => hnot.1, hnot.2⟩
  · intro hleft r hr hold
    by_contra hkept
    obtain ⟨u, hu, rfl⟩ := List.mem_map.mp hold
    obtain ⟨hhidden, hjoin⟩ := hleft u hu hkept
    rcases (Task.mem_treeRefs_template hinserted).mp hr with heq | ⟨hfork, heq⟩
    · exact hhidden (hd.hiddenIn_of_freshRef hinserted hu heq) heq
    · exact hjoin hfork heq

end Diagram

namespace Sample

/-- One task, with the reference that the join of the next fork gets. -/
def claimed : Definition :=
  .ofTasks "w" [.ofRef "fork_join_0_join" (.worker .simple)]

def claimedDiagram : Diagram :=
  (Diagram.ofDefinition claimed .standard).toOption.getD ⟨claimed, none, .empty, .standard, .empty⟩

def forkAtStart : Edit := .insert startBubble .forkJoin

def forkedDiagram : Diagram := (claimedDiagram.edit forkAtStart).toOption.getD claimedDiagram

end Sample

/-- The join that comes with a new fork gets the reference of a task that is there. -/
theorem Diagram.treeRefs_nodup_iff_of_claimed :
    Sample.claimedDiagram.Reachable ∧ (treeRefs Sample.claimedDiagram.tasks).Nodup ∧
      Sample.claimedDiagram.edit Sample.forkAtStart = .ok Sample.forkedDiagram ∧
        ¬ (treeRefs Sample.forkedDiagram.tasks).Nodup := by
  have hdraw : Diagram.ofDefinition Sample.claimed .standard = .ok Sample.claimedDiagram :=
    Outcome.eq_ok_of_isOk (by decide +kernel) _
  have hnodup : (treeRefs Sample.claimedDiagram.tasks).Nodup := by decide +kernel
  have hedit : Sample.claimedDiagram.edit Sample.forkAtStart = .ok Sample.forkedDiagram :=
    Outcome.eq_ok_of_isOk (by decide +kernel) _
  refine ⟨.ofDefinition hdraw, hnodup, hedit, ?_⟩
  rw [Diagram.Reachable.treeRefs_nodup_iff (.ofDefinition hdraw) hnodup rfl hedit]
  intro hall
  have htask : Task.ofRef "fork_join_0_join" (.worker .simple) ∈
      listing Sample.claimedDiagram.tasks := by
    decide +kernel
  exact (hall _ htask (by decide +kernel)).2 (Or.inl rfl) (by decide +kernel)

end Flowchart

import Flowchart.Proofs.Holes
import Flowchart.Proofs.FreshNames
import Flowchart.Proofs.UndoneInsertions

/-!
# What insertions and deletions change

An edit goes to the slot of a vertex: the place of its task in the sequence at a hole. A task takes
up its slot by itself, or as a fork together with its join. A template goes in right behind what is
taken up, and a deletion takes that out. Both change the sequence at the hole and nothing around it,
but for the branch that a deletion leaves empty.
-/

namespace Flowchart

/-- What a task takes up in its sequence. -/
def Task.TakesUp (t : Task) (block : List Task) : Prop :=
  t.kind.isFork = false ∧ block = [t] ∨
    t.kind.isFork = true ∧ ∃ join, join.kind.isJoin = true ∧ block = [t, join]

theorem Paired.append {s s' : List Task} (h : Paired s) (h' : Paired s') : Paired (s ++ s') := by
  induction s with
  | nil => exact h'
  | cons t rest ih =>
    refine ⟨fun hfork => ?_, ih h.2⟩
    have hjoin := h.1 hfork
    cases rest with
    | nil => cases hjoin
    | cons u rest => exact hjoin

theorem Paired.left {s s' : List Task} (h : Paired (s ++ s'))
    (hlast : ∀ t ∈ s.getLast?, t.kind.isFork = false) : Paired s := by
  have hnothing : Paired (s ++ s' ++ []) := by rwa [List.append_nil]
  have hleft := (paired_append_iff hnothing).mpr fun t ht hfork => by
    rw [hlast t ht] at hfork
    cases hfork
  rwa [List.append_nil] at hleft

theorem Task.TakesUp.getLast?_isFork {t : Task} {block : List Task} (h : t.TakesUp block)
    (before : List Task) : ∀ u ∈ (before ++ block).getLast?, u.kind.isFork = false := by
  intro u hu
  rcases h with ⟨hplain, rfl⟩ | ⟨-, join, hjoin, rfl⟩
  · rw [List.getLast?_concat] at hu
    obtain rfl := Option.some.inj hu
    exact hplain
  · rw [List.append_cons, List.getLast?_concat] at hu
    obtain rfl := Option.some.inj hu
    by_contra hfork
    rw [Kind.isJoin_of_isFork (Bool.eq_true_of_not_eq_false hfork)] at hjoin
    cases hjoin

theorem forksPaired_nil : ForksPaired [] :=
  forksPaired_iff.mpr ⟨trivial, fun _ ht => absurd ht List.not_mem_nil⟩

theorem ForksPaired.append {s s' : List Task} (h : ForksPaired s) (h' : ForksPaired s') :
    ForksPaired (s ++ s') := by
  rw [forksPaired_iff] at h h' ⊢
  exact ⟨h.1.append h'.1, List.forall_mem_append.mpr ⟨h.2, h'.2⟩⟩

theorem ForksPaired.insert {front back inserted : List Task} (h : ForksPaired (front ++ back))
    (hlast : ∀ t ∈ front.getLast?, t.kind.isFork = false) (hinserted : ForksPaired inserted) :
    ForksPaired (front ++ inserted ++ back) := by
  have hfront : ForksPaired front :=
    (h.iff_paired fun _ => List.mem_append_left back).mpr (h.1.left hlast)
  have hback : ForksPaired back := (h.iff_paired fun _ => List.mem_append_right front).mpr h.1.right
  exact (hfront.append hinserted).append hback

/-- A template is paired by itself: a fork comes with its join. -/
theorem Task.forksPaired_template {type : TaskType} {reference : String} {inserted : List Task}
    (h : Task.template type reference = .ok inserted) : ForksPaired inserted := by
  have hempty : ∀ t : Task, t.kind.sequences.flatten = [] →
      ∀ s ∈ t.kind.sequences, ForksPaired s := by
    intro t ht s hs
    rw [List.flatten_eq_nil_iff.mp ht s hs]
    exact forksPaired_nil
  rw [forksPaired_iff]
  rcases Task.template_ok h with ⟨t, rfl, -, hplain, hnone, -⟩ | ⟨t, rfl, -, -, hnone, -⟩
  · refine ⟨⟨fun hfork => ?_, trivial⟩, fun u hu => ?_⟩
    · rw [hplain] at hfork
      cases hfork
    · rw [List.mem_singleton.mp hu]
      exact hempty t hnone
  · refine ⟨⟨fun _ => rfl, nofun, trivial⟩, ?_⟩
    rw [List.forall_mem_cons, List.forall_mem_singleton]
    exact ⟨hempty t (by rw [hnone, List.flatten_nil]), fun s hs => absurd hs List.not_mem_nil⟩

namespace Diagram

variable {d after : Diagram} {reference : String} {type : TaskType}

/-- The vertex is drawn for `t`, and tells that `t` stands behind `before` in the sequence at the
hole. -/
def HasSlot (d : Diagram) (reference : String) (hole : Hole) (before : List Task) (t : Task) :
    Prop :=
  ∃ v, d.graph.vertex? reference = some v ∧ v.parent = hole.path ∧
    v.position = some before.length ∧ t.DrawnAs v.task

/-- An edit leaves all but the tasks and the graph as it is. -/
theorem edit_eq {e : Edit} (h : d.edit e = .ok after) :
    after = { d.withTasks after.tasks with graph := after.graph } := by
  obtain ⟨tasks, -, hredraw⟩ := Outcome.bind_eq_ok.mp h
  obtain ⟨graph, -, rfl⟩ := draw_ok hredraw
  rfl

/-- What is located is the slot of a vertex, in a hole of the tree. -/
theorem Reachable.slot_of_locate (hd : d.Reachable) (hkeyed : Throughout Kind.Keyed d.tasks)
    {place : Place} {s : List Task} {t : Task} (h : d.locate reference = .ok (place, s, t)) :
    ∃ hole before rest, d.HasSlot reference hole before t ∧
      place = ⟨hole.path, before.length⟩ ∧ s = before ++ t :: rest ∧ d.tasks = hole.plug s := by
  obtain ⟨v, hv, hpath, hi, hs, ht, -⟩ := locate_ok h
  obtain ⟨s', u, hleads, hu, hdrawn⟩ :=
    Graph.recorded hd.graph_eq hkeyed (List.mem_of_find?_eq_some hv) hi
  rw [hpath] at hleads
  obtain rfl : s' = s := Option.some.inj (hleads.follow?.symm.trans hs)
  obtain rfl : u = t := Option.some.inj (hu.symm.trans ht)
  obtain ⟨hole, hhole, hplug⟩ := Hole.exists_plug hkeyed hs
  obtain ⟨before, rest, heq, hindex, -⟩ := split_of_getElem? ht
  obtain ⟨path, index⟩ := place
  subst hhole hindex
  exact ⟨hole, before, rest, ⟨v, hv, hpath, hi, hdrawn⟩, rfl, heq, hplug.symm⟩

theorem takesUp_of_extent {before rest : List Task} {t : Task} {count : Nat}
    (h : extent reference (before ++ t :: rest) before.length t = .ok count) :
    ∃ block back, t.TakesUp block ∧ t :: rest = block ++ back ∧ count = block.length := by
  rcases extent_ok h with ⟨hplain, rfl⟩ | ⟨hfork, rfl, join, hnext, hjoin⟩
  · exact ⟨[t], rest, Or.inl ⟨hplain, rfl⟩, rfl, rfl⟩
  · rw [List.getElem?_append_right (Nat.le_add_right _ _), Nat.add_sub_cancel_left,
      List.getElem?_cons_succ] at hnext
    cases rest with
    | nil => cases hnext
    | cons u back =>
      obtain rfl := Option.some.inj hnext
      exact ⟨[t, u], back, Or.inr ⟨hfork, u, hjoin, rfl⟩, rfl, rfl⟩

/-- **Insertions.** A template goes in as one block: at the front of the root, or right behind what
the task of the target takes up. The tree around it, and the rest of the definition, stay as they
are. If each fork stood right before a join, each fork still does. -/
theorem Reachable.insert_frame (hd : d.Reachable) (hkeyed : Throughout Kind.Keyed d.tasks)
    (h : d.edit (.insert reference type) = .ok after) :
    ∃ inserted, Task.template type (d.freshRef type.stem) = .ok inserted ∧
      (reference = startBubble ∧ after.tasks = inserted ++ d.tasks ∨
        reference ≠ startBubble ∧ ∃ hole before t block back,
          d.HasSlot reference hole before t ∧ t.TakesUp block ∧
          d.tasks = hole.plug (before ++ block ++ back) ∧
          after.tasks = hole.plug (before ++ block ++ inserted ++ back)) ∧
      after = { d.withTasks after.tasks with graph := after.graph } ∧
      (ForksPaired d.tasks → ForksPaired after.tasks) := by
  obtain ⟨inserted, hinserted, htasks⟩ := Outcome.bind_eq_ok.mp (edit_ok h).1
  obtain ⟨place, hplace, htasks⟩ := Outcome.bind_eq_ok.mp htasks
  have hsplice := spliceAt_ok htasks
  have htemplate := Task.forksPaired_template hinserted
  refine ⟨inserted, hinserted, ?_⟩
  unfold insertionPlace at hplace
  by_cases hstart : reference = startBubble
  · rw [if_pos hstart, Outcome.pure_eq_ok] at hplace
    subst hplace
    have hafter : after.tasks = inserted ++ d.tasks := (Option.some.inj hsplice).symm
    refine ⟨Or.inl ⟨hstart, hafter⟩, edit_eq h, fun hpaired => ?_⟩
    rw [hafter]
    exact htemplate.append hpaired
  · rw [if_neg hstart] at hplace
    obtain ⟨⟨located, s, t⟩, hlocate, hplace⟩ := Outcome.bind_eq_ok.mp hplace
    obtain ⟨count, hcount, hplace⟩ := Outcome.bind_eq_ok.mp hplace
    rw [Outcome.pure_eq_ok] at hplace
    obtain ⟨hole, before, rest, hslot, rfl, rfl, hbefore⟩ := hd.slot_of_locate hkeyed hlocate
    obtain ⟨block, back, hblock, hrest, rfl⟩ := takesUp_of_extent hcount
    rw [hrest, ← List.append_assoc] at hbefore
    have hafter : after.tasks = hole.plug (before ++ block ++ inserted ++ back) := by
      subst hplace
      rw [hbefore, hole.modify?_plug, ← List.length_append, List.take_left, List.drop_left]
        at hsplice
      exact (Option.some.inj hsplice).symm
    refine ⟨Or.inr ⟨hstart, hole, before, t, block, back, hslot, hblock, hbefore, hafter⟩,
      edit_eq h, fun hpaired => ?_⟩
    rw [hbefore] at hpaired
    obtain ⟨hsequence, hplug⟩ := Hole.forksPaired_plug hpaired
    rw [hafter, hplug]
    exact hsequence.insert (hblock.getLast?_isFork before) htemplate

end Diagram

namespace Sample

def extendedDiagram : Diagram :=
  (loopedDiagram.edit (.insert (loopEndRef "l") .forkJoin)).toOption.getD loopedDiagram

end Sample

/-- Behind the bar of a loop that has run is behind the loop. -/
theorem Diagram.Reachable.insert_frame_of_bar :
    Sample.loopedDiagram.edit (.insert (loopEndRef "l") .forkJoin) = .ok Sample.extendedDiagram ∧
      (∃ hole before t block back,
        Sample.loopedDiagram.HasSlot (loopEndRef "l") hole before t ∧ t.TakesUp block ∧
        Sample.loopedDiagram.tasks = hole.plug (before ++ block ++ back) ∧
        Sample.extendedDiagram.tasks = hole.plug (before ++ block ++
          [.ofRef "fork_join_0" (.fork []), Task.pairedJoin "fork_join_0"] ++ back)) ∧
      ForksPaired Sample.extendedDiagram.tasks := by
  have hd : Diagram.ofRun Sample.loopedRun .standard = .ok Sample.loopedDiagram :=
    Outcome.eq_ok_of_isOk (by decide +kernel) _
  have hedit : Sample.loopedDiagram.edit (.insert (loopEndRef "l") .forkJoin) =
      .ok Sample.extendedDiagram :=
    Outcome.eq_ok_of_isOk (by decide +kernel) _
  have htemplate : Sample.loopedDiagram.freshTasks .forkJoin = .ok [.ofRef "fork_join_0"
      (.fork []), Task.pairedJoin "fork_join_0"] := by
    decide +kernel
  obtain ⟨inserted, hinserted, hplace, -, hpaired⟩ :=
    Diagram.Reachable.insert_frame (.ofRun hd) (by decide +kernel) hedit
  obtain rfl := Except.ok.inj (hinserted.symm.trans htemplate)
  refine ⟨hedit, ?_, hpaired (by decide +kernel)⟩
  rcases hplace with ⟨hstart, -⟩ | ⟨-, hslot⟩
  · exact absurd hstart (by decide)
  · exact hslot

namespace Diagram

variable {d after : Diagram} {reference : String}

/-- **Deletions.** A task goes out with all that is in it, and a fork with its join. Only if nothing
else was in the sequence does the branch of that sequence go as well, which the root, a default and
a body do not. The tree around it, and the rest of the definition, stay as they are. -/
theorem Reachable.delete_frame (hd : d.Reachable) (hkeyed : Throughout Kind.Keyed d.tasks)
    (h : d.edit (.delete reference) = .ok after) :
    ∃ hole before t block back, d.HasSlot reference hole before t ∧ t.TakesUp block ∧
      d.tasks = hole.plug (before ++ block ++ back) ∧
      after.tasks = (if before ++ back = [] then hole.close else hole.plug (before ++ back)) ∧
      after = { d.withTasks after.tasks with graph := after.graph } := by
  obtain ⟨place, s, t, count, shortened, hlocate, hcount, hmodify, htasks⟩ :=
    remove_ok (edit_ok h).1
  obtain ⟨hole, before, rest, hslot, rfl, rfl, hbefore⟩ := hd.slot_of_locate hkeyed hlocate
  obtain ⟨block, back, hblock, hrest, rfl⟩ := takesUp_of_extent hcount
  rw [hrest, ← List.append_assoc] at hbefore
  have hcut : (before ++ t :: rest).take before.length ++
      (before ++ t :: rest).drop (before.length + block.length) = before ++ back := by
    rw [List.take_left, hrest, ← List.append_assoc, ← List.length_append, List.drop_left]
  dsimp only at hmodify htasks
  rw [hcut] at hmodify htasks
  rw [hbefore, hole.modify?_plug] at hmodify
  obtain rfl := Option.some.inj hmodify
  refine ⟨hole, before, t, block, back, hslot, hblock, hbefore, ?_, edit_eq h⟩
  rw [htasks]
  by_cases hempty : before ++ back = []
  · rw [if_pos hempty, hempty, List.isEmpty_nil, if_pos rfl, Hole.prune_plug]
  · rw [if_neg hempty, if_neg (mt List.isEmpty_iff.mp hempty)]

end Diagram

namespace Sample

def clearedDiagram : Diagram := (loopedDiagram.edit (.delete "a")).toOption.getD loopedDiagram

end Sample

/-- The only task of a branch goes with the branch, and the fork stays without any. -/
theorem Diagram.Reachable.delete_frame_of_branch :
    Sample.loopedDiagram.edit (.delete "a") = .ok Sample.clearedDiagram ∧
      ∃ hole t, Sample.loopedDiagram.HasSlot "a" hole [] t ∧
        Sample.loopedDiagram.tasks = hole.plug [t] ∧
        Sample.clearedDiagram.tasks = hole.close := by
  have hd : Diagram.ofRun Sample.loopedRun .standard = .ok Sample.loopedDiagram :=
    Outcome.eq_ok_of_isOk (by decide +kernel) _
  have hedit : Sample.loopedDiagram.edit (.delete "a") = .ok Sample.clearedDiagram :=
    Outcome.eq_ok_of_isOk (by decide +kernel) _
  obtain ⟨hole, before, t, block, back, hslot, hblock, hbefore, hafter, -⟩ :=
    Diagram.Reachable.delete_frame (.ofRun hd) (by decide +kernel) hedit
  -- the branch holds one task, so nothing is left beside it
  obtain ⟨v, hv, hpath, -, -⟩ := id hslot
  have hparent : (Sample.loopedDiagram.graph.vertex? "a").map
      (fun v => (v.parent.get? Sample.loopedDiagram.tasks).map List.length) = some (some 1) := by
    decide +kernel
  rw [hv, Option.map_some, hpath, hbefore, Hole.get?_plug] at hparent
  have hlength : (before ++ block ++ back).length = 1 :=
    Option.some.inj (Option.some.inj hparent)
  rw [List.length_append, List.length_append] at hlength
  rcases hblock with ⟨-, rfl⟩ | ⟨-, join, -, rfl⟩ <;> rw [List.length_cons] at hlength
  · obtain rfl : before = [] := List.eq_nil_of_length_eq_zero (by omega)
    obtain rfl : back = [] := List.eq_nil_of_length_eq_zero (by omega)
    exact ⟨hedit, hole, t, hslot, hbefore, hafter⟩
  · rw [List.length_singleton] at hlength
    omega

end Flowchart

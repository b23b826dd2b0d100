import Flowchart.Proofs.DrawnReferences
import Flowchart.Proofs.Insertions

/-!
# Insertions that are undone

What was put in under a fresh reference is drawn under it, and nothing else is. So a deletion of
that reference finds it, and takes it out again with the branch that was made for it.
-/

namespace Flowchart

/-- A template in a tree, at a place that is drawn, with the tree that it came into: cutting it out
gives that tree back. -/
structure Graft (history : History) (inserted tasks tasks' : List Task) where
  path : TreePath
  before : List Task
  after : List Task
  shortened : List Task
  leads : TreePath.Leads history path.segments tasks' (before ++ inserted ++ after)
  cut : path.modify? (fun _ => before ++ after) tasks' = some shortened
  undo : (if (before ++ after).isEmpty then path.prune shortened else shortened) = tasks
  swaps : ∀ settings, Swaps [] (drawnRefs settings history inserted)
    (drawnRefs settings history tasks) (drawnRefs settings history tasks')

section

variable {history : History} {inserted tasks tasks' s : List Task}

theorem Graft.of_splice {path : TreePath} {i : Nat}
    (hleads : TreePath.Leads history path.segments tasks s) (hs : s = [] → path = .root)
    (h : path.modify? (fun s => s.take i ++ inserted ++ s.drop i) tasks = some tasks') :
    Nonempty (Graft history inserted tasks tasks') := by
  obtain ⟨plug, rfl, hplug⟩ := TreePath.exists_hole hleads.follow?
  have htasks' : tasks' = plug (s.take i ++ inserted ++ s.drop i) :=
    (Option.some.inj (((hplug s).2 _).symm.trans h)).symm
  refine ⟨{
    path := path
    before := s.take i
    after := s.drop i
    shortened := plug s
    leads := hleads.change? h
    cut := ?_
    undo := ?_
    swaps := fun settings => (drawnRefs_change? hleads h).trans
      ⟨drawnRefs settings history (s.take i), drawnRefs settings history (s.drop i), ?_, ?_⟩ }⟩
  · rw [List.take_append_drop, htasks']
    exact (hplug _).2 _
  · rw [List.take_append_drop]
    split
    · next hempty => rw [hs (List.isEmpty_iff.mp hempty), TreePath.prune_root]
    · rfl
  · rw [List.append_nil, ← drawnRefs_append, List.take_append_drop]
  · rw [drawnRefs_append, drawnRefs_append]

theorem Graft.of_entry {enter : List Task → Kind (List Task) → Option (Kind (List Task))}
    {branch : Kind (List Task) → Branch} {place : Place} {t : Task} {kind : Kind (List Task)}
    (hentry : Kind.Entry enter branch) (hkind : enter inserted t.kind = some kind)
    (hvacant : (t.kind.get? (branch t.kind)).getD [] = [])
    (hleads : TreePath.Leads history place.path.segments tasks s) (ht : s[place.index]? = some t)
    (hopen : t.isRunLoop history = false)
    (h : place.modify? (fun t => { t with kind := kind }) tasks = some tasks') :
    Nonempty (Graft history inserted tasks tasks') := by
  rw [Place.modify?_eq hleads.follow? ht] at h
  obtain ⟨plug, hwhole, hplug⟩ := TreePath.exists_hole hleads.follow?
  obtain ⟨hindex, hself⟩ := List.getElem?_eq_some_iff.mp ht
  have hget := hentry.get?_eq hkind
  have htype := hentry.type_eq hkind
  have htasks' : tasks' = plug (s.set place.index { t with kind := kind }) := by
    rw [← hwhole] at h
    exact (Option.some.inj (((hplug s).2 _).symm.trans h)).symm
  have hleads' := hleads.change? h
  have hput : ∀ t' : Task, (s.set place.index t')[place.index]? = some t' :=
    fun t' => List.getElem?_set_self hindex
  refine ⟨{
    path := place.path.child place.index (branch t.kind)
    before := []
    after := []
    shortened := plug (s.set place.index { t with kind := kind.set (branch t.kind) [] })
    leads := ?_
    cut := ?_
    undo := ?_
    swaps := fun settings => (drawnRefs_change? hleads h).trans (drawnRefs_set ht hopen htype ?_) }⟩
  · rw [List.nil_append, List.append_nil]
    refine hleads'.append (.step (hput _) ?_ hget (.here inserted))
    rw [Task.isRunLoop_with_kind history htype, hopen]
  · rw [htasks', TreePath.modify?_child (hplug _).1 (hput _) hget, List.set_set]
    exact (hplug _).2 _
  · -- pruning the emptied branch gives the kind as it was, and so the task
    have hundo := hentry.undo hkind hvacant
    rw [List.append_nil, List.isEmpty_nil, if_pos rfl, TreePath.prune_child,
      Place.modify?_eq (hplug _).1 (hput _)]
    change (TreePath.change? _ _ _).getD _ = _
    rw [(hplug _).2, Option.getD_some, List.set_set, ← hwhole]
    dsimp only
    rw [Task.with_kind_eq hundo, ← hself, List.set_getElem_self]
  · have hswaps := hentry.swaps hkind (drawnRefs_nil settings history)
    rw [hvacant] at hswaps
    exact hswaps

end

theorem Task.reference_of_template {type : TaskType} {reference : String} {first : Task}
    {rest : List Task} (h : Task.template type reference = .ok (first :: rest)) :
    first.reference = reference := by
  rcases Task.template_ok h with ⟨t, heq, href, -⟩ | ⟨t, heq, href, -⟩
  · cases heq
    exact href
  · cases heq
    exact href

section

variable {settings : Settings} {history : History} {t : Task}

theorem Task.isRunLoop_of_idle (hidle : history.attempts t.reference = []) :
    t.isRunLoop history = false := by
  rw [isRunLoop, History.latest?, hidle, List.getLast?_nil, Option.isSome_none, Bool.and_false]

theorem Task.reference_not_mem_trailingRefs (hidle : history.attempts t.reference = []) :
    t.reference ∉ t.trailingRefs settings history := by
  unfold trailingRefs
  split
  · -- a fork that has not run has spawned nothing
    have hspawned : history.spawned? t.reference = none := by
      rw [History.spawned?, History.latest?, hidle]
      rfl
    rw [forkedRefs, hspawned]
    change t.reference ∉ [dynamicForkChildrenRef t.reference]
    rw [List.mem_singleton.not]
    exact (append_suffix_ne _ (by decide)).symm
  · rw [List.mem_singleton.not]
    exact (append_suffix_ne _ (by decide)).symm
  · exact List.not_mem_nil

theorem Task.drawnRefs_of_idle (hidle : history.attempts t.reference = [])
    (hempty : t.kind.sequences.flatten = []) : t.drawnRefs settings history =
      t.reference :: t.trailingRefs settings history := by
  have hinner : t.kind.sequences.flatMap (Flowchart.drawnRefs settings history) = [] := by
    refine List.flatMap_eq_nil_iff.mpr fun s hs => ?_
    rw [List.flatten_eq_nil_iff.mp hempty s hs, drawnRefs_nil]
  rw [drawnRefs_eq, isRunLoop_of_idle hidle, hinner]
  rfl

/-- A template that has not run is drawn under its reference first, and under that only once. -/
theorem drawnRefs_template (settings : Settings) {type : TaskType} {reference : String}
    {inserted : List Task} (h : Task.template type reference = .ok inserted)
    (hidle : ∀ r ∈ treeRefs inserted, history.attempts r = []) :
    ∃ others, drawnRefs settings history inserted = reference :: others ∧
      reference ∉ others := by
  have hown := hidle reference ((Task.mem_treeRefs_template h).mpr (Or.inl rfl))
  rcases Task.template_ok h with ⟨t, rfl, rfl, -, hempty, -⟩ | ⟨t, rfl, rfl, -, hnone, hfork⟩
  · refine ⟨t.trailingRefs settings history, ?_, Task.reference_not_mem_trailingRefs hown⟩
    rw [drawnRefs_cons, Task.drawnRefs_of_idle hown hempty, drawnRefs_nil, List.append_nil]
  · have hempty : t.kind.sequences.flatten = [] := by rw [hnone, List.flatten_nil]
    have hjoin := hidle (Task.pairedJoinRef t.reference)
      ((Task.mem_treeRefs_template h).mpr (Or.inr ⟨hfork, rfl⟩))
    refine ⟨t.trailingRefs settings history ++ [Task.pairedJoinRef t.reference], ?_, ?_⟩
    · rw [drawnRefs_cons, drawnRefs_cons, Task.drawnRefs_of_idle hown hempty,
        Task.drawnRefs_of_idle hjoin rfl]
      rfl
    · rw [List.mem_append, not_or, List.mem_singleton.not]
      exact ⟨Task.reference_not_mem_trailingRefs hown, (Task.pairedJoinRef_ne _).symm⟩

end

namespace Diagram

variable {d after : Diagram} {e : Edit} {type : TaskType} {inserted tasks : List Task}

/-- What an edit puts in takes the place of nothing, and is not put into a loop that has run. -/
structure Vacant (d : Diagram) (e : Edit) : Prop where
  displaced : d.displaced e = []
  loop : ∀ host type, e = .setBody host type → ∀ place s t, d.locate host = .ok (place, s, t) →
    d.history.attempts t.reference = []

/-- What is located is drawn, so no loop that has run is on the way. -/
theorem Reachable.leads_of_locate (hd : d.Reachable) (hkeyed : Throughout Kind.Keyed d.tasks)
    {reference : String} {place : Place} {s : List Task} {t : Task}
    (hlocate : d.locate reference = .ok (place, s, t)) :
    TreePath.Leads d.history place.path.segments d.tasks s := by
  obtain ⟨v, hv, hpath, hi, hs, -, -⟩ := locate_ok hlocate
  obtain ⟨s', u, hleads, -, -⟩ :=
    Graph.recorded hd.graph_eq hkeyed (List.mem_of_find?_eq_some hv) hi
  rw [hpath] at hleads
  obtain rfl : s' = s := Option.some.inj (hleads.follow?.symm.trans hs)
  exact hleads

theorem insertionPlace_ok {reference : String} {place : Place}
    (h : d.insertionPlace reference = .ok place) : place.path = .root ∨
      ∃ located s t, d.locate reference = .ok (located, s, t) ∧ place.path = located.path := by
  unfold insertionPlace at h
  split at h
  · rw [Outcome.pure_eq_ok] at h
    subst h
    exact Or.inl rfl
  · obtain ⟨⟨located, s, t⟩, hlocate, h⟩ := Outcome.bind_eq_ok.mp h
    obtain ⟨count, -, h⟩ := Outcome.bind_eq_ok.mp h
    rw [Outcome.pure_eq_ok] at h
    subst h
    exact Or.inr ⟨located, s, t, hlocate, rfl⟩

theorem Reachable.graft (hd : d.Reachable) (hkeyed : Throughout Kind.Keyed d.tasks)
    (he : e.inserted? = some type) (hinserted : d.freshTasks type = .ok inserted)
    (hvacant : d.Vacant e) (htasks : d.editedTasks e = .ok tasks) :
    Nonempty (Graft d.history inserted d.tasks tasks) := by
  rcases editedTasks_entry he with ⟨target, rfl⟩ |
    ⟨host, expected, enter, branch, hentry, hbody, heq⟩
  · obtain ⟨inserted', hinserted', htasks⟩ := Outcome.bind_eq_ok.mp htasks
    obtain rfl : inserted' = inserted := by
      rw [hinserted] at hinserted'
      exact (Except.ok.inj hinserted').symm
    obtain ⟨place, hplace, htasks⟩ := Outcome.bind_eq_ok.mp htasks
    have hsplice := spliceAt_ok htasks
    rcases insertionPlace_ok hplace with hroot | ⟨located, s, t, hlocate, hpath⟩
    · rw [hroot] at hsplice
      exact Graft.of_splice (.here d.tasks) (fun _ => rfl) hsplice
    · rw [hpath] at hsplice
      refine Graft.of_splice (hd.leads_of_locate hkeyed hlocate) (fun hnone => ?_) hsplice
      obtain ⟨-, -, -, -, -, ht, -⟩ := locate_ok hlocate
      rw [hnone] at ht
      cases ht
  · obtain ⟨heq, hdisplaced⟩ := heq d
    rw [heq] at htasks
    obtain ⟨inserted', hinserted', htasks⟩ := Outcome.bind_eq_ok.mp htasks
    obtain rfl : inserted' = inserted := by
      rw [hinserted] at hinserted'
      exact (Except.ok.inj hinserted').symm
    obtain ⟨place, s, t, kind, hlocate, hkind, hmodify⟩ := changeKind_ok htasks
    obtain ⟨-, -, -, -, -, ht, -⟩ := locate_ok hlocate
    have hnothing := hvacant.displaced
    rw [hdisplaced place s t hlocate] at hnothing
    have hopen : t.isRunLoop d.history = false := by
      by_cases htype : t.type = .doWhile
      · have he := hbody _ (hentry.eq_loopBody hkind htype)
        exact Task.isRunLoop_of_idle (hvacant.loop host type he place s t hlocate)
      · exact Task.isRunLoop_of_type htype
    exact Graft.of_entry hentry hkind hnothing (hd.leads_of_locate hkeyed hlocate) ht hopen hmodify

/-- A definition that is not run has no attempts. -/
theorem Reachable.attempts_eq_nil (hd : d.Reachable) (h : d.execution = none) (r : String) :
    d.history.attempts r = [] := by
  rw [hd.history_eq_empty h]
  rfl

theorem Reachable.freshRef_not_mem_plan (hd : d.Reachable)
    (hinserted : d.freshTasks type = .ok inserted) : d.freshRef type.stem ∉ d.plan.references := by
  intro hmem
  obtain ⟨n, hn, hunused, -⟩ := d.freshRef_spec type.stem
  exact hunused (hn ▸ Graph.mem_references_ofTasks hd.graph_eq hmem
    (freshRef_ne_finalBubble hinserted))

/-- The fresh reference is drawn with the template, and with nothing else. -/
theorem Reachable.references_inserted (hd : d.Reachable) {first : Task} {rest : List Task}
    (hinserted : d.freshTasks type = .ok (first :: rest))
    (hidle : ∀ r ∈ treeRefs (first :: rest), d.history.attempts r = [])
    (graft : Graft d.history (first :: rest) d.tasks tasks)
    (hcompletes : (Plan.ofTasks d.settings d.history tasks).Completes) :
    ∃ left right, (Plan.ofTasks d.settings d.history tasks).references =
        left ++ first.reference :: right ∧
      first.reference ∉ left ∧ first.reference ∉ right ∧ first.reference ≠ finalBubble := by
  have hfresh := Task.reference_of_template hinserted
  obtain ⟨others, hdrawn, hothers⟩ := drawnRefs_template d.settings hinserted hidle
  obtain ⟨left, right, hold, hnew⟩ := graft.swaps d.settings
  have hfiled := hd.bound.filed
  have hunused := hd.freshRef_not_mem_plan hinserted
  rw [plan, Plan.references_eq_drawnRefs hfiled (Graph.ofTasks_completes hd.graph_eq), hold,
    ← hfresh] at hunused
  simp only [List.append_nil, List.cons_append, List.mem_cons, List.mem_append, List.not_mem_nil,
    or_false, not_or] at hunused
  obtain ⟨hstart, ⟨hleft, hright⟩, hfinal⟩ := hunused
  rw [← hfresh] at hdrawn hothers
  refine ⟨startBubble :: left, others ++ right ++ [finalBubble], ?_, ?_, ?_, hfinal⟩
  · rw [Plan.references_eq_drawnRefs hfiled hcompletes, hnew, hdrawn]
    simp only [List.cons_append, List.append_assoc]
  · rw [List.mem_cons, not_or]
    exact ⟨hstart, hleft⟩
  · rw [List.mem_append, List.mem_append, not_or, not_or, List.mem_singleton]
    exact ⟨⟨hothers, hright⟩, hfinal⟩

/-- The task that was put in is found where it was put. -/
theorem Reachable.locate_inserted (hd : d.Reachable) {first : Task} {rest : List Task}
    (hinserted : d.freshTasks type = .ok (first :: rest))
    (hidle : ∀ r ∈ treeRefs (first :: rest), d.history.attempts r = [])
    (hedit : d.edit e = .ok after) (graft : Graft d.history (first :: rest) d.tasks after.tasks) :
    after.locate first.reference = .ok (⟨graft.path, graft.before.length⟩,
      graft.before ++ (first :: rest) ++ graft.after, first) := by
  obtain ⟨-, hhistory, hsettings, hgraph⟩ := edit_ok hedit
  rw [hhistory, hsettings] at hgraph
  have hcompletes := Graph.ofTasks_completes hgraph
  have hfirst : (graft.before ++ (first :: rest) ++ graft.after)[graft.before.length]? =
      some first := by
    rw [List.append_assoc, List.getElem?_append_right (Nat.le_refl _), Nat.sub_self]
    rfl
  obtain ⟨left, right, href, hleft, hright, hfinal⟩ :=
    hd.references_inserted hinserted hidle graft hcompletes
  obtain ⟨sources, hmem⟩ := Plan.placement_of_leads hcompletes graft.leads hfirst
  have hvertex := Graph.vertex?_of_once hgraph hmem href hleft hright hfinal
  refine locate_of_vertex hvertex rfl rfl graft.leads.follow? hfirst ?_
  have hkind := Kind.isNotLoopEnd_kept.template hinserted first List.mem_cons_self
  exact (Task.DrawnAs.reportRef_eq (Or.inl rfl) hkind).symm

theorem extent_template {reference : String} {first : Task} {rest before behind : List Task}
    (h : Task.template type reference = .ok (first :: rest)) :
    extent first.reference (before ++ (first :: rest) ++ behind) before.length first =
      .ok (first :: rest).length := by
  unfold extent
  rcases Task.template_ok h with ⟨t, heq, -, hplain, -⟩ | ⟨t, heq, -, hfork, -⟩
  · cases heq
    rw [if_neg (Bool.eq_false_iff.mp hplain)]
    rfl
  · cases heq
    have hjoin : (before ++ [first, Task.pairedJoin reference] ++ behind)[before.length + 1]? =
        some (Task.pairedJoin reference) := by
      rw [List.append_assoc, List.getElem?_append_right (Nat.le_add_right _ _),
        Nat.add_sub_cancel_left]
      rfl
    rw [if_pos hfork, hjoin]
    rfl

theorem remove_inserted {history : History} {first : Task} {rest : List Task} {reference : String}
    (h : Task.template type reference = .ok (first :: rest))
    (graft : Graft history (first :: rest) tasks d.tasks)
    (hlocate : d.locate first.reference = .ok (⟨graft.path, graft.before.length⟩,
      graft.before ++ (first :: rest) ++ graft.after, first)) :
    d.remove first.reference = .ok tasks := by
  have hrest : (graft.before ++ (first :: rest) ++ graft.after).take graft.before.length ++
      (graft.before ++ (first :: rest) ++ graft.after).drop
        (graft.before.length + (first :: rest).length) = graft.before ++ graft.after := by
    rw [← List.length_append, List.drop_left, List.append_assoc, List.take_left]
  have hcut := graft.cut
  rw [← hrest] at hcut
  rw [remove_of_locate hlocate (extent_template h) hcut]
  dsimp only
  rw [hrest, graft.undo]

/-- **Insertions are undone.** Deleting the task that an insertion has put in gives back the diagram
as it was, if nothing was displaced, and if what was put in has not run. -/
theorem Reachable.edit_undone (hd : d.Reachable) (hkeyed : Throughout Kind.Keyed d.tasks)
    (he : e.inserted? = some type) (hinserted : d.freshTasks type = .ok inserted)
    (hidle : d.execution = none ∨ ∀ r ∈ treeRefs inserted, d.history.attempts r = [])
    (hvacant : d.Vacant e) (hedit : d.edit e = .ok after) :
    ∃ first, inserted.head? = some first ∧ after.edit (.delete first.reference) = .ok d := by
  have hattempts : ∀ r ∈ treeRefs inserted, d.history.attempts r = [] := by
    rcases hidle with hnone | hidle
    · exact fun r _ => hd.attempts_eq_nil hnone r
    · exact hidle
  obtain ⟨htasks, -⟩ := edit_ok hedit
  obtain ⟨graft⟩ := hd.graft hkeyed he hinserted hvacant htasks
  cases inserted with
  | nil =>
    rcases Task.template_ok hinserted with ⟨t, hnone, -⟩ | ⟨t, hnone, -⟩ <;> cases hnone
  | cons first rest =>
    obtain ⟨tasks, -, hredraw⟩ := Outcome.bind_eq_ok.mp hedit
    obtain ⟨-, hsame⟩ := redraw_of_redraw hredraw d.tasks
    have hlocate := hd.locate_inserted hinserted hattempts hedit graft
    have hremove := remove_inserted hinserted graft hlocate
    exact ⟨first, rfl, Outcome.bind_eq_ok.mpr ⟨d.tasks, hremove, hsame.trans hd.redraw_tasks⟩⟩

end Diagram

namespace Sample

/-- A branch of the fork that has run gets a fork and its join. -/
def furtherBranch : Edit := .addBranch "f" .forkJoin

def widenedDiagram : Diagram := (loopedDiagram.edit furtherBranch).toOption.getD loopedDiagram

end Sample

/-- A fork comes in with its join, and both are gone again. -/
theorem Diagram.Reachable.edit_undone_of_run :
    Sample.loopedDiagram.edit Sample.furtherBranch = .ok Sample.widenedDiagram ∧
      Sample.widenedDiagram ≠ Sample.loopedDiagram ∧
      Sample.widenedDiagram.edit (.delete "fork_join_0") = .ok Sample.loopedDiagram := by
  have hd : Diagram.ofRun Sample.loopedRun .standard = .ok Sample.loopedDiagram :=
    Outcome.eq_ok_of_isOk (by decide +kernel) _
  have hedit : Sample.loopedDiagram.edit Sample.furtherBranch = .ok Sample.widenedDiagram :=
    Outcome.eq_ok_of_isOk (by decide +kernel) _
  have hinserted : Sample.loopedDiagram.freshTasks .forkJoin = .ok [.ofRef "fork_join_0"
      (.fork []), Task.pairedJoin "fork_join_0"] := by
    decide +kernel
  have hvacant : Sample.loopedDiagram.Vacant Sample.furtherBranch :=
    ⟨rfl, fun host type h => by cases h⟩
  obtain ⟨first, hfirst, hdelete⟩ := Diagram.Reachable.edit_undone (.ofRun hd) (by decide +kernel)
    rfl hinserted (Or.inr (by decide +kernel)) hvacant hedit
  cases hfirst
  exact ⟨hedit, by decide +kernel, hdelete⟩

end Flowchart

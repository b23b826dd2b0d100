import Flowchart.Proofs.BehindTasks
import Flowchart.Proofs.Refusals
import Flowchart.Proofs.VisibleTasks

/-!
# Where insertions land

In a definition, all tasks of the tree are drawn, each at its place. So an insertion lands right
behind one task: the target itself, the loop whose bar the target is, or the join of a fork. Behind
the start bubble it lands in front of the root.
-/

namespace Flowchart

/-- Behind `r` an insertion lands at a place, and behind the task that is given last. -/
inductive Lands (tasks : List Task) : String → Place → Option Task → Prop where
  | start : Lands tasks startBubble ⟨.root, 0⟩ none
  | own {path : TreePath} {before back : List Task} {t : Task} :
      path.get? tasks = some (before ++ t :: back) → t.kind.isFork = false →
      Lands tasks t.reference ⟨path, before.length + 1⟩ (some t)
  | bar {path : TreePath} {before back body : List Task} {t : Task} {condition : Option String} :
      path.get? tasks = some (before ++ t :: back) → t.kind = .loop condition body →
      Lands tasks (loopEndRef t.reference) ⟨path, before.length + 1⟩ (some t)
  | join {path : TreePath} {before back : List Task} {fork join : Task} :
      path.get? tasks = some (before ++ fork :: join :: back) → fork.kind.isFork = true →
      join.kind.isJoin = true →
      Lands tasks fork.reference ⟨path, before.length + 2⟩ (some join)

/-- The tree with `x` behind a task, or in front of all. -/
def insertAfter (host : Option Task) (x : Task) (tasks : List Task) : List Task :=
  match host with
  | none => x :: tasks
  | some t => insertBehind t.reference x tasks

section

variable {tasks : List Task} {r : String} {place : Place} {host t x : Task}

theorem Lands.exists_slot (h : Lands tasks r place (some host)) : ∃ front back,
    place.path.get? tasks = some (front ++ host :: back) ∧ place.index = front.length + 1 := by
  cases h with
  | own hs _ | bar hs _ => exact ⟨_, _, hs, rfl⟩
  | @join path before back fork _ hs _ _ =>
    exact ⟨before ++ [fork], back, by rw [hs, List.append_cons], by rw [List.length_append]; rfl⟩

/-- Nothing is put between a fork and its join. -/
theorem Lands.isFork_host (h : Lands tasks r place (some host)) : host.kind.isFork = false := by
  cases h with
  | own _ hfork => exact hfork
  | bar _ hk =>
    rw [hk]
    rfl
  | join _ _ hjoin =>
    by_contra hfork
    rw [Kind.isJoin_of_isFork (Bool.eq_true_of_not_eq_false hfork)] at hjoin
    cases hjoin

/-- Without attempts, no loop has run. -/
theorem TreePath.leads_of_follow? {segments : List Segment} {tasks s : List Task}
    (h : follow? segments tasks = some s) : Leads .empty segments tasks s :=
  leads_iff.mpr ⟨h, fun _ _ _ _ _ _ _ _ => Task.isRunLoop_of_idle rfl⟩

/-- Where no loop has run, a walk comes to all that a path leads to. -/
theorem TreePath.mem_visible_of_follow? {segments : List Segment} {tasks s : List Task}
    (h : follow? segments tasks = some s) (ht : t ∈ s) : t ∈ visibleTasks .empty tasks := by
  induction segments generalizing tasks with
  | nil =>
    obtain rfl := Option.some.inj h
    exact List.mem_flatMap_of_mem ht t.mem_visible_self
  | cons segment rest ih =>
    obtain ⟨u, q, hu, hq, hs⟩ := follow?_cons_eq_some.mp h
    refine List.mem_flatMap_of_mem (List.mem_of_getElem? hu) ?_
    exact Task.mem_visible_of_sequence (Task.isRunLoop_of_idle rfl)
      (Kind.mem_sequences_of_get? hq) (ih hs)

theorem Lands.mem_visible (h : Lands tasks r place (some host)) :
    host ∈ visibleTasks .empty tasks := by
  obtain ⟨front, back, hs, -⟩ := h.exists_slot
  exact TreePath.mem_visible_of_follow? hs (List.mem_append_right _ List.mem_cons_self)

theorem insertBehind_slot {front back : List Task}
    (hnodup : (treeRefs (front ++ t :: back)).Nodup) :
    insertBehind t.reference x (front ++ t :: back) = front ++ t :: x :: back := by
  rw [treeRefs_append, treeRefs_cons, List.cons_append] at hnodup
  obtain ⟨-, htail, hapart⟩ := List.nodup_append.mp hnodup
  obtain ⟨hself, -⟩ := List.nodup_cons.mp htail
  rw [List.mem_append, not_or] at hself
  have hfront : t.reference ∉ treeRefs front := fun hmem =>
    hapart _ hmem _ List.mem_cons_self rfl
  have hhosting : t.hosting t.reference x = t := by
    refine Task.with_kind_eq (Kind.map_eq_self fun s hs => insertBehind_eq_self fun hmem => ?_)
    exact hself.1 (List.mem_flatMap_of_mem hs hmem)
  rw [insertBehind_append, insertBehind_cons, insertBehind_eq_self hfront,
    insertBehind_eq_self hself.2, Task.expand_eq, hhosting, if_pos rfl]
  rfl

theorem Lands.modify? {landing : Option Task} (h : Lands tasks r place landing)
    (hnodup : (treeRefs tasks).Nodup) :
    place.path.modify? (fun s => s.take place.index ++ [x] ++ s.drop place.index) tasks =
      some (insertAfter landing x tasks) := by
  cases landing with
  | none =>
    cases h
    rfl
  | some host =>
    obtain ⟨front, back, hs, hindex⟩ := h.exists_slot
    have hsequence : (treeRefs (front ++ host :: back)).Nodup := by
      obtain ⟨left, right, heq⟩ := TreePath.treeRefs_follow? hs
      rw [heq] at hnodup
      exact hnodup.of_append_left.of_append_right
    refine TreePath.change?_insertBehind hnodup hs ?_ ?_
    · rw [treeRefs_append, treeRefs_cons, List.cons_append]
      exact List.mem_append_right _ List.mem_cons_self
    · rw [insertBehind_slot hsequence, hindex, List.append_cons front host back,
        ← List.length_singleton (a := host), ← List.length_append, List.take_left, List.drop_left]
      simp only [List.append_assoc, List.cons_append, List.nil_append]

/-- What is drawn of the new tree is what was drawn of the old one, and what is drawn of the new
task. -/
theorem Lands.swaps {landing : Option Task} (h : Lands tasks r place landing)
    (hnodup : (treeRefs tasks).Nodup) (settings : Settings) :
    Swaps [] (drawnRefs settings .empty [x]) (drawnRefs settings .empty tasks)
      (drawnRefs settings .empty (insertAfter landing x tasks)) := by
  have hmodify := h.modify? (x := x) hnodup
  obtain ⟨s, hs⟩ := TreePath.follow?_of_change? hmodify
  refine (drawnRefs_change? (TreePath.leads_of_follow? hs) hmodify).trans
    ⟨drawnRefs settings .empty (s.take place.index), drawnRefs settings .empty (s.drop place.index),
      ?_, ?_⟩
  · rw [List.append_nil, ← drawnRefs_append, List.take_append_drop]
  · rw [drawnRefs_append, drawnRefs_append]

/-- The same of whole plans. -/
theorem Lands.references_swaps {landing : Option Task} (h : Lands tasks r place landing)
    (hnodup : (treeRefs tasks).Nodup) (settings : Settings) :
    Swaps [] (drawnRefs settings .empty [x]) (Plan.ofTasks settings .empty tasks).references
      (Plan.ofTasks settings .empty (insertAfter landing x tasks)).references := by
  have hreferences : ∀ tasks, (Plan.ofTasks settings .empty tasks).references =
      [startBubble] ++ drawnRefs settings .empty tasks ++ [finalBubble] := fun tasks =>
    Plan.references_eq_drawnRefs History.Filed.empty
      (Plan.ofTasks_draws_walk settings tasks).completes
  exact Swaps.trans ⟨_, _, hreferences _, hreferences _⟩ (h.swaps hnodup settings)

end

/-- A loop that has not run is drawn with its bar at its place. -/
theorem Task.plan_bar {settings : Settings} {history : History} {t : Task}
    {condition : Option String} {body : List Task} {path : TreePath} {position : Nat}
    {sources : List String} (hk : t.kind = .loop condition body)
    (hopen : t.isRunLoop history = false)
    (hcompletes : (t.plan settings history path position sources).Completes) :
    ∃ sources', ⟨t.loopEnd, path, some position, none, sources'⟩ ∈
      (t.plan settings history path position sources).placements := by
  rw [plan_eq, hk] at hcompletes ⊢
  obtain ⟨latest, hlatest, heq⟩ := hcompletes.of_attempt
  dsimp only
  rw [heq]
  cases latest with
  | none =>
    dsimp only
    rw [Plan.placements_andThen, Plan.placements_andThen]
    exact ⟨_, List.mem_append_right _ (List.mem_append_right _ (List.mem_singleton_self _))⟩
  | some a =>
    rw [isRunLoop_of_loop hk, History.latest?_eq_of_latestOfTask hlatest] at hopen
    cases hopen

namespace Diagram

variable {d : Diagram} {r : String} {place : Place} {host : Option Task} {type : TaskType}
  {x : Task}

/-- The place that an insertion is given is one where it lands. -/
theorem Reachable.exists_lands (hd : d.Reachable) (hkeyed : Throughout Kind.Keyed d.tasks)
    (h : d.insertionPlace r = .ok place) : ∃ host, Lands d.tasks r place host := by
  unfold insertionPlace at h
  split at h
  · next hstart =>
    rw [Outcome.pure_eq_ok] at h
    subst hstart h
    exact ⟨none, .start⟩
  · obtain ⟨⟨located, s, t⟩, hlocate, h⟩ := Outcome.bind_eq_ok.mp h
    obtain ⟨count, hcount, hplace⟩ := Outcome.bind_eq_ok.mp h
    rw [Outcome.pure_eq_ok] at hplace
    obtain ⟨hole, before, rest, hslot, rfl, rfl, htasks⟩ := hd.slot_of_locate hkeyed hlocate
    obtain ⟨v, hv, -, -, hdrawn⟩ := hslot
    obtain ⟨-, href⟩ := Graph.vertex?_ok hv
    have hs : hole.path.get? d.tasks = some (before ++ t :: rest) := by
      rw [htasks]
      exact hole.get?_plug _
    subst hplace href
    obtain ⟨block, back, hblock, hrest, rfl⟩ := takesUp_of_extent hcount
    rw [hrest] at hs
    rw [Vertex.reference]
    rcases hblock with ⟨hfork, rfl⟩ | ⟨hfork, join, hjoin, rfl⟩ <;>
      rcases hdrawn with heq | ⟨⟨condition, body, hk⟩, heq⟩ <;> rw [heq]
    · exact ⟨_, .own hs hfork⟩
    · exact ⟨_, .bar hs hk⟩
    · exact ⟨_, .join hs hfork hjoin⟩
    · rw [hk] at hfork
      cases hfork

/-- In a definition, tasks are drawn under different references if they have different ones. -/
theorem Reachable.nodup_treeRefs (hd : d.Reachable) (hdefinition : d.execution = none)
    (hnodup : d.plan.references.Nodup) : (treeRefs d.tasks).Nodup := by
  rw [plan, hd.history_eq_empty hdefinition] at hnodup
  have hall := (Plan.references_perm d.settings d.tasks).nodup_iff.mp hnodup
  rw [List.map_append] at hall
  exact hall.of_append_left

/-- Each task of a definition is located at its place, and so is a loop by its bar. -/
theorem Reachable.locate_of_get? (hd : d.Reachable) (hdefinition : d.execution = none)
    (hends : Throughout (·.type ≠ .doWhileEnd) d.tasks) (hnodup : d.plan.references.Nodup)
    {path : TreePath} {s : List Task} {i : Nat} {t : Task} (hs : path.get? d.tasks = some s)
    (ht : s[i]? = some t)
    (hr : r = t.reference ∨ (∃ condition body, t.kind = .loop condition body) ∧
      r = loopEndRef t.reference) :
    r ≠ startBubble ∧ d.locate r = .ok (⟨path, i⟩, s, t) := by
  have hempty := hd.history_eq_empty hdefinition
  have hleads := TreePath.leads_of_follow? hs
  rw [← hempty] at hleads
  have hgraph := hd.graph_eq
  obtain ⟨sources, hplan, hmem⟩ := Plan.plan_of_leads (Graph.ofTasks_completes hgraph) hleads ht
  obtain ⟨p, hp, hparent, hposition, hdrawn, rfl⟩ : ∃ p ∈ d.plan.placements, p.parent = path ∧
      p.position = some i ∧ t.DrawnAs p.task ∧ p.reference = r := by
    rcases hr with rfl | ⟨⟨condition, body, hk⟩, rfl⟩
    · exact ⟨_, hmem _ (t.plan_self hplan), rfl, rfl, Or.inl rfl, rfl⟩
    · have hopen : t.isRunLoop d.history = false :=
        Task.isRunLoop_of_idle (hd.attempts_eq_nil hdefinition _)
      obtain ⟨sources', hbar⟩ := Task.plan_bar hk hopen hplan
      exact ⟨_, hmem _ hbar, rfl, rfl, Or.inr ⟨⟨_, _, hk⟩, rfl⟩, rfl⟩
  have hplaced : p.position ≠ none := by
    rw [hposition]
    nofun
  have hvertex := (Graph.ofTasks_shows hgraph hnodup).vertex?_eq (Plan.nodup_shown hnodup)
    (Plan.mem_shown_of_position hnodup hp hplaced)
  refine ⟨(Plan.ne_bubble_of_position hnodup hp hplaced).1,
    locate_of_vertex hvertex hposition hparent hs ht ?_⟩
  exact (hdrawn.reportRef_eq (hends.of_leads hleads ht)).symm

/-- An insertion is given the place where it lands. -/
theorem Reachable.insertionPlace_of_lands (hd : d.Reachable) (hdefinition : d.execution = none)
    (hends : Throughout (·.type ≠ .doWhileEnd) d.tasks) (hnodup : d.plan.references.Nodup)
    (h : Lands d.tasks r place host) : d.insertionPlace r = .ok place := by
  have hplaced : ∀ {path : TreePath} {before rest : List Task} {t : Task} {count : Nat},
      path.get? d.tasks = some (before ++ t :: rest) →
      (r = t.reference ∨ (∃ condition body, t.kind = .loop condition body) ∧
        r = loopEndRef t.reference) →
      extent r (before ++ t :: rest) before.length t = .ok count →
      d.insertionPlace r = .ok ⟨path, before.length + count⟩ := by
    intro path before rest t count hs hr hcount
    obtain ⟨hstart, hlocate⟩ :=
      hd.locate_of_get? hdefinition hends hnodup hs (getElem?_middle before rest t) hr
    rw [insertionPlace, if_neg hstart]
    exact (Outcome.bind_of_ok hlocate).trans (Outcome.bind_of_ok hcount)
  cases h with
  | start => exact if_pos rfl
  | @own path before back t hs hfork =>
    refine hplaced hs (Or.inl rfl) ?_
    rw [extent_eq, hfork]
    rfl
  | @bar path before back body t condition hs hk =>
    refine hplaced hs (Or.inr ⟨⟨_, _, hk⟩, rfl⟩) ?_
    rw [extent_eq, hk]
    rfl
  | @join path before back fork join hs hfork hjoin =>
    refine hplaced hs (Or.inl rfl) ?_
    rw [extent_eq, hfork]
    exact if_pos fun _ => hjoin

/-- The tree that an insertion makes where it lands. -/
theorem Reachable.editedTasks_of_lands (hd : d.Reachable) (hdefinition : d.execution = none)
    (hends : Throughout (·.type ≠ .doWhileEnd) d.tasks) (hnodup : d.plan.references.Nodup)
    (h : Lands d.tasks r place host) (hinserted : d.freshTasks type = .ok [x]) :
    d.editedTasks (.insert r type) = .ok (insertAfter host x d.tasks) := by
  have hplace := hd.insertionPlace_of_lands hdefinition hends hnodup h
  have hmodify := h.modify? (x := x) (hd.nodup_treeRefs hdefinition hnodup)
  rw [editedTasks, Outcome.bind_of_ok hinserted, Outcome.bind_of_ok hplace, spliceAt, hmodify]
  rfl

/-- An insertion goes through where it lands, if nothing is drawn twice of the tree that it makes. -/
theorem Reachable.insert_of_lands (hd : d.Reachable) (hdefinition : d.execution = none)
    (hends : Throughout (·.type ≠ .doWhileEnd) d.tasks) (hnodup : d.plan.references.Nodup)
    (h : Lands d.tasks r place host) (hinserted : d.freshTasks type = .ok [x])
    (hnodup' : (Plan.ofTasks d.settings d.history
      (insertAfter host x d.tasks)).references.Nodup) :
    ∃ after, d.edit (.insert r type) = .ok after ∧
      d.redraw (insertAfter host x d.tasks) = .ok after := by
  have htasks := hd.editedTasks_of_lands hdefinition hends hnodup h hinserted
  obtain ⟨after, hredraw⟩ := hd.exists_redraw hdefinition hnodup'
  exact ⟨after, (Outcome.bind_of_ok htasks).trans hredraw, hredraw⟩

end Diagram

end Flowchart

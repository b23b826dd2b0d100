import Flowchart.Proofs.BehindTasks
import Flowchart.Proofs.Exits
import Flowchart.Proofs.Insertions
import Flowchart.Proofs.Lockstep
import Flowchart.Proofs.Walks

/-!
# Plans with one more vertex

A task that is put in behind one that is left by a single vertex comes after that vertex, and what
came after that vertex comes after the new task. The plans of both trees are walked side by side,
and differ in nothing else. What comes next may be many levels up, and so the frontiers are compared
as well.
-/

namespace Flowchart

/-- What came after `e` comes after `n`. -/
def detour (e n u : String) : String := if u = e then n else u

theorem detour_self (e n : String) : detour e n e = n := if_pos rfl

theorem detour_of_ne {e n u : String} (h : u ≠ e) : detour e n u = u := if_neg h

/-- The case of an edge from a task to `v`, if the task is a switch and the edge has one. -/
def Task.caseTowards? (t : Task) (v : String) : Option String :=
  t.kind.switch?.bind (·.caseValue? v)

/-- A vertex of the first plan, and the same vertex where `n` is put in behind `e`. -/
structure Placement.Follows (e n : String) (q q' : Placement) : Prop where
  reference : q.reference = q'.reference
  cases : ∀ v, q.task.caseTowards? v = q'.task.caseTowards? v
  sources : Covers (detour e n) q.sources q'.sources

/-- The second plan draws what the first does, and nothing more than `x` behind `e`. -/
structure Plan.Splits (e : String) (x : Task) (p p' : Plan) : Prop where
  forth : ∀ q ∈ p.placements, ∃ q' ∈ p'.placements, q.Follows e x.reference q'
  back : ∀ q' ∈ p'.placements, q'.task = x ∧ q'.sources = [e] ∨
    ∃ q ∈ p.placements, q.Follows e x.reference q'
  frontier : Covers (detour e x.reference) p.frontier p'.frontier

namespace Plan

variable {e : String} {x : Task} {p p' : Plan} {next next' : List String → Plan}

theorem andThen_assoc (p : Plan) (next next' : List String → Plan) :
    (p.andThen next).andThen next' = p.andThen fun sources => (next sources).andThen next' := by
  simp [andThen]

theorem splits_nothing {sources sources' : List String}
    (h : Covers (detour e x.reference) sources sources') :
    Splits e x ⟨[], sources⟩ ⟨[], sources'⟩ :=
  ⟨fun _ hq => absurd hq List.not_mem_nil, fun _ hq => absurd hq List.not_mem_nil, h⟩

theorem splits_vertex {q q' : Placement} (h : q.Follows e x.reference q')
    (hne : q.reference ≠ e) : Splits e x (vertex q) (vertex q') := by
  refine ⟨fun r hr => ?_, fun r' hr' => Or.inr ?_, ?_⟩
  · rw [List.mem_singleton.mp hr]
    exact ⟨q', List.mem_cons_self, h⟩
  · rw [List.mem_singleton.mp hr']
    exact ⟨q, List.mem_cons_self, h⟩
  · exact covers_singleton ((detour_of_ne hne).trans h.reference)

/-- The new vertex right behind the one that it is put in behind. -/
theorem splits_behind {q q' : Placement} (h : q.Follows e x.reference q') (he : q.reference = e)
    (path : TreePath) (position : Option Nat) :
    Splits e x (vertex q)
      ((vertex q').andThen fun sources => vertex ⟨x, path, position, none, sources⟩) := by
  have hplacements : ((vertex q').andThen fun sources =>
      vertex ⟨x, path, position, none, sources⟩).placements =
        [q', ⟨x, path, position, none, [e]⟩] := by
    rw [placements_andThen, frontier_vertex, ← h.reference, he]
    rfl
  refine ⟨fun r hr => ?_, fun r' hr' => ?_, ?_⟩
  · rw [List.mem_singleton.mp hr, hplacements]
    exact ⟨q', List.mem_cons_self, h⟩
  · rw [hplacements, List.mem_cons, List.mem_singleton] at hr'
    rcases hr' with rfl | rfl
    · exact Or.inr ⟨q, List.mem_cons_self, h⟩
    · exact Or.inl ⟨rfl, rfl⟩
  · rw [frontier_vertex, he]
    exact covers_singleton (detour_self e x.reference)

theorem Splits.andThen (h : Splits e x p p')
    (hnext : Splits e x (next p.frontier) (next' p'.frontier)) :
    Splits e x (p.andThen next) (p'.andThen next') := by
  refine ⟨fun q hq => ?_, fun q' hq' => ?_, hnext.frontier⟩
  · rw [placements_andThen] at hq ⊢
    rcases List.mem_append.mp hq with hq | hq
    · obtain ⟨q', hq', hfollows⟩ := h.forth q hq
      exact ⟨q', List.mem_append_left _ hq', hfollows⟩
    · obtain ⟨q', hq', hfollows⟩ := hnext.forth q hq
      exact ⟨q', List.mem_append_right _ hq', hfollows⟩
  · rw [placements_andThen] at hq' ⊢
    rcases List.mem_append.mp hq' with hq' | hq'
    · refine (h.back q' hq').imp_right fun ⟨q, hq, hfollows⟩ => ?_
      exact ⟨q, List.mem_append_left _ hq, hfollows⟩
    · refine (hnext.back q' hq').imp_right fun ⟨q, hq, hfollows⟩ => ?_
      exact ⟨q, List.mem_append_right _ hq, hfollows⟩

theorem splits_beside {α : Type} {as : List α} {f f' : α → Plan}
    (h : ∀ a ∈ as, Splits e x (f a) (f' a)) :
    Splits e x (beside (as.map f)) (beside (as.map f')) := by
  refine ⟨fun q hq => ?_, fun q' hq' => ?_, fun u' => ?_⟩
  · rw [placements_beside, List.flatMap_map, List.mem_flatMap] at hq
    obtain ⟨a, ha, hq⟩ := hq
    obtain ⟨q', hq', hfollows⟩ := (h a ha).forth q hq
    rw [placements_beside, List.flatMap_map]
    exact ⟨q', List.mem_flatMap_of_mem ha hq', hfollows⟩
  · rw [placements_beside, List.flatMap_map, List.mem_flatMap] at hq'
    obtain ⟨a, ha, hq'⟩ := hq'
    refine ((h a ha).back q' hq').imp_right fun ⟨q, hq, hfollows⟩ => ?_
    rw [placements_beside, List.flatMap_map]
    exact ⟨q, List.mem_flatMap_of_mem ha hq, hfollows⟩
  · simp only [mem_frontier_beside, List.mem_map, exists_exists_and_eq_and]
    constructor
    · rintro ⟨a, ha, hu'⟩
      obtain ⟨u, hu, heq⟩ := ((h a ha).frontier u').mp hu'
      exact ⟨u, ⟨a, ha, hu⟩, heq⟩
    · rintro ⟨u, ⟨a, ha, hu⟩, heq⟩
      exact ⟨a, ha, ((h a ha).frontier u').mpr ⟨u, hu, heq⟩⟩

end Plan

theorem Switch.caseValue?_map {f : List Task → List Task} (hf : ∀ s, head? (f s) = head? s)
    (s : Switch (List Task)) (v : String) : (s.map f).caseValue? v = s.caseValue? v := by
  have hempty : ∀ s, (f s).isEmpty = s.isEmpty := by
    intro s
    rw [Bool.eq_iff_iff, List.isEmpty_iff, List.isEmpty_iff, ← head?_eq_none, hf, head?_eq_none]
  simp only [caseValue?, opensDefault, caseOpenedBy?, map, List.find?_map, Option.map_map,
    Function.comp_def, hf, hempty]
  rfl

namespace Task

variable {r : String} {x : Task}

theorem caseTowards?_hosting (t : Task) (v : String) :
    (t.hosting r x).caseTowards? v = t.caseTowards? v := by
  unfold caseTowards? hosting
  cases t.kind with
  | switch form s => exact Switch.caseValue?_map head?_insertBehind s v
  | _ => rfl

theorem isSingle_hosting (t : Task) : (t.hosting r x).kind.isSingle = t.kind.isSingle := by
  unfold hosting
  cases t.kind with
  | fork branches => exact List.isEmpty_map
  | _ => rfl

theorem branches_hosting (t : Task) : (t.hosting r x).kind.branches =
    t.kind.branches.map fun branch => (branch.1, insertBehind r x branch.2) := by
  unfold hosting
  cases t.kind with
  | fork branches =>
    refine List.ext_getElem? fun i => ?_
    simp [Kind.map, Kind.branches, Function.comp_def]
  | switch form s => simp [Kind.map, Kind.branches, Switch.map]
  | _ => rfl

/-- What is put in behind `r` comes after `e` and nothing else: a task with the reference `r` is
left by `e` alone, and nothing that is drawn of another task is called `e`. -/
structure IsLeftBy (r e : String) (t : Task) : Prop where
  host : t.reference = r → t.exit? = some e
  other : t.reference ≠ r → ∀ u ∈ t :: t.attendants, u.reference ≠ e

end Task

/-! ### Walking side by side

The task may be put in deep inside the tree, and what stands behind it moves by one place. Paths and
positions therefore differ between the plans, and nothing below relates them.
-/

section

variable {settings : Settings} {r e : String} {x : Task} {path path' : TreePath}
  {position position' : Nat} {sources sources' : List String} {tasks : List Task}

theorem planTasks_append (history : History) (s s' : List Task) :
    planTasks settings history path position (s ++ s') sources =
      (planTasks settings history path position s sources).andThen
        (planTasks settings history path (position + s.length) s') := by
  induction s generalizing position sources with
  | nil => rfl
  | cons t rest ih =>
    rw [List.cons_append, planTasks_cons, planTasks_cons, Plan.andThen_assoc]
    refine congrArg _ (funext fun sources => ?_)
    rw [ih, List.length_cons, Nat.add_right_comm, Nat.add_assoc]

theorem planTasks_singleton (history : History) (t : Task) :
    planTasks settings history path position [t] sources =
      t.plan settings history path position sources := by
  rw [planTasks_cons]
  simp [Plan.andThen]

theorem planTasks_splits (htasks : ∀ t ∈ tasks, ∀ position position' sources sources',
      Covers (detour e x.reference) sources sources' →
        (t.plan settings .empty path position sources).Splits e x
          (planTasks settings .empty path' position' (t.expand r x) sources'))
    (hsources : Covers (detour e x.reference) sources sources') :
    (planTasks settings .empty path position tasks sources).Splits e x
      (planTasks settings .empty path' position' (insertBehind r x tasks) sources') := by
  induction tasks generalizing position position' sources sources' with
  | nil => exact Plan.splits_nothing hsources
  | cons t rest ih =>
    obtain ⟨ht, hrest⟩ := List.forall_mem_cons.mp htasks
    have hfirst := ht position position' sources sources' hsources
    rw [planTasks_cons, insertBehind_cons, planTasks_append]
    exact hfirst.andThen (ih hrest hfirst.frontier)

namespace Task

variable {t : Task}

theorem follows_hosting (t : Task) (path path' : TreePath) (position position' : Nat)
    (hsources : Covers (detour e x.reference) sources sources') :
    Placement.Follows e x.reference ⟨t, path, some position, none, sources⟩
      ⟨t.hosting r x, path', some position', none, sources'⟩ :=
  ⟨rfl, fun v => (caseTowards?_hosting t v).symm, hsources⟩

variable
  (hsequence : ∀ s ∈ t.kind.sequences, ∀ path path' sources sources',
    Covers (detour e x.reference) sources sources' →
      (planTasks settings .empty path 0 s sources).Splits e x
        (planTasks settings .empty path' 0 (insertBehind r x s) sources'))
  (hsources : Covers (detour e x.reference) sources sources')

include hsequence hsources

/-- The task that the new one is put in behind. -/
theorem plan_splits_host (hx : x.kind.isSingle = true) (he : t.exit? = some e) :
    (t.plan settings .empty path position sources).Splits e x
      (planTasks settings .empty path' position' [t.hosting r x, x] sources') := by
  have hbehind : planTasks settings .empty path' position' [t.hosting r x, x] sources' =
      ((t.hosting r x).plan settings .empty path' position' sources').andThen fun sources =>
        .vertex ⟨x, path', some (position' + 1), none, sources⟩ := by
    rw [planTasks_cons]
    refine congrArg _ (funext fun sources => ?_)
    rw [planTasks_singleton, plan_of_single hx]
  have hfollows := follows_hosting (r := r) t path path' position position' hsources
  rw [hbehind]
  rcases exit?_cases he with ⟨hsingle, rfl⟩ | ⟨condition, body, hk, rfl⟩
  · rw [plan_of_single hsingle, plan_of_single ((isSingle_hosting t).trans hsingle)]
    exact Plan.splits_behind hfollows rfl _ _
  · have hself : t.reference ≠ loopEndRef t.reference := (append_suffix_ne _ (by decide)).symm
    have hopening := Plan.splits_vertex hfollows hself
    have hbody := hsequence body (Kind.mem_sequences_of_loop hk)
      (path.child position .loopBody) (path'.child position' .loopBody) _ _ hopening.frontier
    rw [plan_of_idle_loop hk, plan_of_idle_loop (kind_hosting_of_loop hk), Plan.andThen_assoc]
    simp only [Plan.andThen_assoc]
    have hbar : Placement.Follows (loopEndRef t.reference) x.reference
        ⟨t.loopEnd, path, some position, none, _⟩ ⟨t.loopEnd, path', some position', none, _⟩ :=
      ⟨rfl, fun _ => rfl, hbody.frontier⟩
    exact hopening.andThen (hbody.andThen (Plan.splits_behind hbar rfl _ _))

/-- Any other task. -/
theorem plan_splits_other (hother : ∀ u ∈ t :: t.attendants, u.reference ≠ e) :
    (t.plan settings .empty path position sources).Splits e x
      ((t.hosting r x).plan settings .empty path' position' sources') := by
  obtain ⟨hself, hattendants⟩ := List.forall_mem_cons.mp hother
  have hfollows := follows_hosting (r := r) t path path' position position' hsources
  have hopening := Plan.splits_vertex hfollows hself
  cases t.kind.form with
  | single hsingle _ =>
    rw [plan_of_single hsingle, plan_of_single ((isSingle_hosting t).trans hsingle)]
    exact hopening
  | final hk =>
    have hk' : (t.hosting r x).kind = .terminate := by
      rw [hosting, hk]
      rfl
    rw [plan_eq, plan_eq, hk, hk']
    exact ⟨hopening.forth, hopening.back, covers_nil⟩
  | branches hne =>
    have hne' : (t.hosting r x).kind.branches ≠ [] := by
      rw [branches_hosting]
      exact mt List.map_eq_nil_iff.mp hne
    rw [plan_of_branches hne, plan_of_branches hne', branches_hosting]
    simp only [List.map_map]
    refine hopening.andThen (Plan.splits_beside fun branch hmem => ?_)
    exact hsequence _ (Kind.mem_sequences_of_branches hmem) _ _ _ _ hopening.frontier
  | @forked tasksParam inputParam hk =>
    have hk' : (t.hosting r x).kind = .dynamicFork tasksParam inputParam := by
      rw [hosting, hk]
      rfl
    have hstack : (forkedStack t.reference).reference ≠ e :=
      hattendants _ (attendants_of_fork hk ▸ List.mem_singleton_self _)
    rw [plan_of_idle_fork hk, plan_of_idle_fork hk']
    refine hopening.andThen (Plan.splits_vertex ?_ hstack)
    exact ⟨rfl, fun _ => rfl, hopening.frontier⟩
  | @loop condition body hk =>
    have hbar : t.loopEnd.reference ≠ e :=
      hattendants _ (attendants_of_loop hk ▸ List.mem_singleton_self _)
    have hbody := hsequence body (Kind.mem_sequences_of_loop hk)
      (path.child position .loopBody) (path'.child position' .loopBody) _ _ hopening.frontier
    rw [plan_of_idle_loop hk, plan_of_idle_loop (kind_hosting_of_loop hk)]
    refine hopening.andThen (hbody.andThen (Plan.splits_vertex ?_ hbar))
    exact ⟨rfl, fun _ => rfl, hbody.frontier⟩

end Task

/-- The plan of a task is split where it is left by `e`, by induction on the tree. -/
theorem Task.plan_splits (hx : x.kind.isSingle = true) (t : Task) :
    (∀ u ∈ t.family, u.IsLeftBy r e) → ∀ path path' position position' sources sources',
      Covers (detour e x.reference) sources sources' →
        (t.plan settings .empty path position sources).Splits e x
          (planTasks settings .empty path' position' (t.expand r x) sources') := by
  induction t using Task.induction with
  | step t ih =>
    intro hleft path path' position position' sources sources' hsources
    have hself := hleft t (mem_family.mpr (Or.inl rfl))
    have hsequence : ∀ s ∈ t.kind.sequences, ∀ path path' sources sources',
        Covers (detour e x.reference) sources sources' →
          (planTasks settings .empty path 0 s sources).Splits e x
            (planTasks settings .empty path' 0 (insertBehind r x s) sources') := by
      intro s hs path path' sources sources' hsources
      refine planTasks_splits (fun u hu position position' sources sources' => ?_) hsources
      refine ih s hs u hu (fun v hv => hleft v ?_) path path' position position' sources sources'
      exact mem_family.mpr (Or.inr ⟨s, hs, mem_listing.mpr ⟨u, hu, hv⟩⟩)
    rw [expand_eq]
    by_cases hr : t.reference = r
    · rw [if_pos hr]
      exact plan_splits_host hsequence hsources hx (hself.host hr)
    · rw [if_neg hr, planTasks_singleton]
      exact plan_splits_other hsequence hsources (hself.other hr)

theorem planTasks_splits_of_leftBy (hx : x.kind.isSingle = true)
    (hleft : ∀ u ∈ listing tasks, u.IsLeftBy r e)
    (hsources : Covers (detour e x.reference) sources sources') :
    (planTasks settings .empty path position tasks sources).Splits e x
      (planTasks settings .empty path' position' (insertBehind r x tasks) sources') :=
  planTasks_splits (fun t ht position position' sources sources' =>
    Task.plan_splits hx t (fun u hu => hleft u (mem_listing.mpr ⟨t, ht, hu⟩)) path path' position
      position' sources sources') hsources

namespace Plan

/-- The root sequence between a beginning and the final bubble. -/
theorem splits_framed {opening opening' : Plan} {s s' : List Task} (hfinal : finalBubble ≠ e)
    (hopening : opening.Splits e x opening')
    (htasks : (planTasks settings .empty .root position s opening.frontier).Splits e x
      (planTasks settings .empty .root position' s' opening'.frontier)) :
    (opening.andThen fun sources =>
      (planTasks settings .empty .root position s sources).andThen fun sources =>
        .vertex ⟨.final, .root, none, none, sources⟩).Splits
      e x (opening'.andThen fun sources =>
        (planTasks settings .empty .root position' s' sources).andThen fun sources =>
          .vertex ⟨.final, .root, none, none, sources⟩) :=
  hopening.andThen (htasks.andThen (splits_vertex ⟨rfl, fun _ => rfl, htasks.frontier⟩ hfinal))

theorem ofTasks_splits (hx : x.kind.isSingle = true) (hleft : ∀ u ∈ listing tasks, u.IsLeftBy r e)
    (hstart : startBubble ≠ e) (hfinal : finalBubble ≠ e) :
    (Plan.ofTasks settings .empty tasks).Splits e x
      (Plan.ofTasks settings .empty (insertBehind r x tasks)) := by
  have hopening : Splits e x
      (vertex ⟨.start, .root, none, none, []⟩) (vertex ⟨.start, .root, none, none, []⟩) :=
    splits_vertex ⟨rfl, fun _ => rfl, covers_nil⟩ hstart
  rw [ofTasks_eq, ofTasks_eq]
  exact splits_framed hfinal hopening (planTasks_splits_of_leftBy hx hleft hopening.frontier)

/-- In front of all, the new task comes after the start bubble. -/
theorem ofTasks_splits_start (hx : x.kind.isSingle = true)
    (hapart : ∀ u ∈ listing tasks, startBubble ∉ u.ownRefs) :
    (Plan.ofTasks settings .empty tasks).Splits startBubble x
      (Plan.ofTasks settings .empty (x :: tasks)) := by
  have hother : ∀ u ∈ listing tasks, ∀ v ∈ u :: u.attendants, v.reference ≠ startBubble :=
    fun u hu v hv heq => hapart u hu (heq ▸ List.mem_map_of_mem hv)
  have hleft : ∀ u ∈ listing tasks, u.IsLeftBy startBubble startBubble := fun u hu =>
    ⟨fun heq => absurd heq (hother u hu u List.mem_cons_self), fun _ => hother u hu⟩
  have hself : insertBehind startBubble x tasks = tasks := by
    refine insertBehind_eq_self fun hmem => ?_
    obtain ⟨u, hu, heq⟩ := List.mem_map.mp hmem
    exact hother u hu u List.mem_cons_self heq
  let start : Placement := ⟨.start, .root, none, none, []⟩
  have hfollows : start.Follows startBubble x.reference start :=
    ⟨rfl, fun _ => rfl, covers_nil⟩
  have hopening := Plan.splits_behind hfollows rfl .root (some 0)
  have hnew : Plan.ofTasks settings .empty (x :: tasks) =
      ((vertex start).andThen fun sources => .vertex ⟨x, .root, some 0, none, sources⟩).andThen
        fun sources => (planTasks settings .empty .root 1 tasks sources).andThen fun sources =>
          .vertex ⟨.final, .root, none, none, sources⟩ := by
    rw [ofTasks_eq, andThen_assoc]
    refine congrArg _ (funext fun sources => ?_)
    rw [planTasks_cons, Task.plan_of_single hx, andThen_assoc]
    rfl
  have htasks : (planTasks settings .empty .root 0 tasks [startBubble]).Splits startBubble x
      (planTasks settings .empty .root 1 tasks [x.reference]) := by
    have hsplits : (planTasks settings .empty .root 0 tasks [startBubble]).Splits startBubble x
        (planTasks settings .empty .root 1 (insertBehind startBubble x tasks) [x.reference]) :=
      planTasks_splits_of_leftBy hx hleft hopening.frontier
    rwa [hself] at hsplits
  rw [hnew, ofTasks_eq]
  exact splits_framed (by decide) hopening htasks

end Plan

end

end Flowchart

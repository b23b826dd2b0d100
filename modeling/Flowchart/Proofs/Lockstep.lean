import Flowchart.Proofs.ExecutedEdges
import Flowchart.Proofs.VisibleTasks

/-!
# Plans in lockstep

Two histories, or two settings, may give two plans of one tree that differ in a few vertices only.
The plans are walked side by side. Wherever they differ, each reference of the first has one of the
second that stands for it, and so what comes next comes after the same vertices in both. Then the
same holds of the graphs that are drawn of them.
-/

namespace Flowchart

/-- The second references are those that stand for the first ones. -/
def Covers (rep : String → String) (us us' : List String) : Prop :=
  ∀ u', u' ∈ us' ↔ ∃ u ∈ us, rep u = u'

section

variable {rep : String → String} {K : Placement → Placement → Prop}

theorem covers_singleton {u u' : String} (h : rep u = u') : Covers rep [u] [u'] := by
  intro v
  simp [h, eq_comm]

theorem covers_nil : Covers rep [] [] := fun v => by simp

theorem covers_self {us : List String} (h : ∀ u ∈ us, rep u = u) : Covers rep us us := by
  intro u'
  constructor
  · exact fun hu => ⟨u', hu, h u' hu⟩
  · rintro ⟨u, hu, rfl⟩
    rwa [h u hu]

theorem Covers.eq_nil_iff {us us' : List String} (h : Covers rep us us') :
    us = [] ↔ us' = [] := by
  simp only [List.eq_nil_iff_forall_not_mem, h _, not_exists, not_and]
  constructor
  · intro hnone u' u hu _
    exact hnone u hu
  · intro hnone u hu
    exact hnone (rep u) u hu rfl

/-- A vertex of the first plan and one that is drawn in its place. -/
structure Placement.Matches (rep : String → String) (K : Placement → Placement → Prop)
    (q q' : Placement) : Prop where
  kept : K q q'
  reference : rep q.reference = q'.reference
  sources : Covers rep q.sources q'.sources

/-- Each vertex of either plan has one in the other, and both end at the same references. -/
structure Plan.Mirrors (rep : String → String) (K : Placement → Placement → Prop)
    (p p' : Plan) : Prop where
  forth : ∀ q ∈ p.placements, ∃ q' ∈ p'.placements, q.Matches rep K q'
  back : ∀ q' ∈ p'.placements, ∃ q ∈ p.placements, q.Matches rep K q'
  frontier : Covers rep p.frontier p'.frontier

namespace Plan

variable {p p' : Plan}

theorem mirrors_nothing {sources sources' : List String} (h : Covers rep sources sources') :
    Mirrors rep K ⟨[], sources⟩ ⟨[], sources'⟩ :=
  ⟨fun _ hq => absurd hq List.not_mem_nil, fun _ hq => absurd hq List.not_mem_nil, h⟩

theorem mirrors_vertex {q q' : Placement} (h : q.Matches rep K q') :
    Mirrors rep K (vertex q) (vertex q') := by
  refine ⟨fun r hr => ?_, fun r' hr' => ?_, covers_singleton h.reference⟩
  · rw [List.mem_singleton.mp hr]
    exact ⟨q', List.mem_cons_self, h⟩
  · rw [List.mem_singleton.mp hr']
    exact ⟨q, List.mem_cons_self, h⟩

/-- A plan mirrors itself if all that it names stands for itself. -/
theorem mirrors_self (hplaced : ∀ q ∈ p.placements, K q q ∧ rep q.reference = q.reference ∧
    ∀ u ∈ q.sources, rep u = u) (hfrontier : ∀ u ∈ p.frontier, rep u = u) :
    Mirrors rep K p p := by
  have hself : ∀ q ∈ p.placements, q.Matches rep K q := by
    intro q hq
    obtain ⟨hkept, hreference, hsources⟩ := hplaced q hq
    exact ⟨hkept, hreference, covers_self hsources⟩
  exact ⟨fun q hq => ⟨q, hq, hself q hq⟩, fun q hq => ⟨q, hq, hself q hq⟩, covers_self hfrontier⟩

theorem Mirrors.andThen {next next' : List String → Plan} (h : Mirrors rep K p p')
    (hnext : Mirrors rep K (next p.frontier) (next' p'.frontier)) :
    Mirrors rep K (p.andThen next) (p'.andThen next') := by
  refine ⟨fun q hq => ?_, fun q' hq' => ?_, hnext.frontier⟩
  · rw [placements_andThen] at hq ⊢
    rcases List.mem_append.mp hq with hq | hq
    · obtain ⟨q', hq', hmatches⟩ := h.forth q hq
      exact ⟨q', List.mem_append_left _ hq', hmatches⟩
    · obtain ⟨q', hq', hmatches⟩ := hnext.forth q hq
      exact ⟨q', List.mem_append_right _ hq', hmatches⟩
  · rw [placements_andThen] at hq' ⊢
    rcases List.mem_append.mp hq' with hq' | hq'
    · obtain ⟨q, hq, hmatches⟩ := h.back q' hq'
      exact ⟨q, List.mem_append_left _ hq, hmatches⟩
    · obtain ⟨q, hq, hmatches⟩ := hnext.back q' hq'
      exact ⟨q, List.mem_append_right _ hq, hmatches⟩

theorem beside_singleton (p : Plan) : beside [p] = p := by
  obtain ⟨steps, frontier⟩ := p
  simp [beside]

theorem mirrors_beside {ps ps' : List Plan} (forth : ∀ p ∈ ps, ∃ p' ∈ ps', Mirrors rep K p p')
    (back : ∀ p' ∈ ps', ∃ p ∈ ps, Mirrors rep K p p') :
    Mirrors rep K (beside ps) (beside ps') := by
  refine ⟨fun q hq => ?_, fun q' hq' => ?_, fun u' => ?_⟩
  · rw [placements_beside, List.mem_flatMap] at hq
    obtain ⟨p, hp, hq⟩ := hq
    obtain ⟨p', hp', hmirrors⟩ := forth p hp
    obtain ⟨q', hq', hmatches⟩ := hmirrors.forth q hq
    rw [placements_beside]
    exact ⟨q', List.mem_flatMap_of_mem hp' hq', hmatches⟩
  · rw [placements_beside, List.mem_flatMap] at hq'
    obtain ⟨p', hp', hq'⟩ := hq'
    obtain ⟨p, hp, hmirrors⟩ := back p' hp'
    obtain ⟨q, hq, hmatches⟩ := hmirrors.back q' hq'
    rw [placements_beside]
    exact ⟨q, List.mem_flatMap_of_mem hp hq, hmatches⟩
  · simp only [mem_frontier_beside]
    constructor
    · rintro ⟨p', hp', hu'⟩
      obtain ⟨p, hp, hmirrors⟩ := back p' hp'
      obtain ⟨u, hu, heq⟩ := (hmirrors.frontier u').mp hu'
      exact ⟨u, ⟨p, hp, hu⟩, heq⟩
    · rintro ⟨u, ⟨p, hp, hu⟩, heq⟩
      obtain ⟨p', hp', hmirrors⟩ := forth p hp
      exact ⟨p', hp', (hmirrors.frontier u').mpr ⟨u, hu, heq⟩⟩

theorem mirrors_beside_map {α : Type} {as : List α} {f f' : α → Plan}
    (h : ∀ a ∈ as, Mirrors rep K (f a) (f' a)) :
    Mirrors rep K (beside (as.map f)) (beside (as.map f')) := by
  refine mirrors_beside ?_ ?_ <;> rw [List.forall_mem_map] <;> intro a ha <;>
    exact ⟨_, List.mem_map_of_mem ha, h a ha⟩

end Plan

end

section

variable (rep : String → String) (K : Placement → Placement → Prop)
  (settings settings' : Settings) (history history' : History)

/-- What is drawn of a task alone agrees in both plans. -/
structure Task.InStep (t : Task) : Prop where
  reference : rep t.reference = t.reference
  loopEnd : ∀ condition body, t.kind = .loop condition body →
    rep (loopEndRef t.reference) = loopEndRef t.reference
  latest : (history.latest? t.reference).isSome = (history'.latest? t.reference).isSome
  forked : t.type = .forkJoinDynamic → ∀ path,
    (planForked settings history t.reference path).Completes →
      (planForked settings' history' t.reference path).Completes →
        (planForked settings history t.reference path).Mirrors rep K
          (planForked settings' history' t.reference path)
  iterations : t.isRunLoop history = true → ∀ path position,
    (planIterations history t t.loopEnd path position).Completes →
      (planIterations history' t t.loopEnd path position).Completes →
        (planIterations history t t.loopEnd path position).Mirrors rep K
          (planIterations history' t t.loopEnd path position)

variable {rep K settings settings' history history'} {path : TreePath} {position : Nat}
  {sources sources' : List String} {tasks : List Task}

theorem planTasks_mirrors (htasks : ∀ t ∈ tasks, ∀ position sources sources',
      Covers rep sources sources' → (t.plan settings history path position sources).Completes →
        (t.plan settings' history' path position sources').Completes →
          (t.plan settings history path position sources).Mirrors rep K
            (t.plan settings' history' path position sources'))
    (hsources : Covers rep sources sources')
    (hcompletes : (planTasks settings history path position tasks sources).Completes)
    (hcompletes' : (planTasks settings' history' path position tasks sources').Completes) :
    (planTasks settings history path position tasks sources).Mirrors rep K
      (planTasks settings' history' path position tasks sources') := by
  induction tasks generalizing position sources sources' with
  | nil => exact Plan.mirrors_nothing hsources
  | cons t rest ih =>
    rw [planTasks_cons] at hcompletes hcompletes' ⊢
    rw [Plan.completes_andThen] at hcompletes hcompletes'
    obtain ⟨ht, hrest⟩ := List.forall_mem_cons.mp htasks
    have hfirst := ht position sources sources' hsources hcompletes.1 hcompletes'.1
    exact hfirst.andThen (ih hrest hfirst.frontier hcompletes.2 hcompletes'.2)

/-! Each form of a task is in step if its sequences are. -/

namespace Task.InStep

variable {t : Task} (hK : ∀ q sources, q.aggregate = none → K q { q with sources := sources })
  (ht : t.InStep rep K settings settings' history history') (hsources : Covers rep sources sources')

include hK ht hsources

theorem self (path : TreePath) (position : Nat) :
    Plan.Mirrors rep K (.vertex ⟨t, path, some position, none, sources⟩)
      (.vertex ⟨t, path, some position, none, sources'⟩) :=
  Plan.mirrors_vertex ⟨hK _ _ rfl, ht.reference, hsources⟩

variable (hsequence : t.isRunLoop history = false → ∀ s ∈ t.kind.sequences, ∀ path,
    (planTasks settings history path 0 s [t.reference]).Completes →
      (planTasks settings' history' path 0 s [t.reference]).Completes →
        (planTasks settings history path 0 s [t.reference]).Mirrors rep K
          (planTasks settings' history' path 0 s [t.reference]))
  (hcompletes : (t.plan settings history path position sources).Completes)
  (hcompletes' : (t.plan settings' history' path position sources').Completes)

include hcompletes hcompletes'

theorem dynamicFork (htype : t.type = .forkJoinDynamic) :
    (t.plan settings history path position sources).Mirrors rep K
      (t.plan settings' history' path position sources') := by
  rw [plan_of_dynamicFork htype, Plan.completes_andThen] at hcompletes hcompletes'
  rw [plan_of_dynamicFork htype, plan_of_dynamicFork htype]
  exact (ht.self hK hsources path position).andThen
    (ht.forked htype path hcompletes.2 hcompletes'.2)

include hsequence

theorem branches (hne : t.kind.branches ≠ []) :
    (t.plan settings history path position sources).Mirrors rep K
      (t.plan settings' history' path position sources') := by
  have hopen : t.isRunLoop history = false := Task.isRunLoop_of_type (Kind.type_of_branches hne).1
  rw [plan_of_branches hne, Plan.completes_andThen, Plan.completes_beside,
    List.forall_mem_map] at hcompletes hcompletes'
  rw [plan_of_branches hne, plan_of_branches hne]
  refine (ht.self hK hsources path position).andThen (Plan.mirrors_beside_map fun branch hmem => ?_)
  exact hsequence hopen branch.2 (Kind.mem_sequences_of_branches hmem) _
    (hcompletes.2 branch hmem) (hcompletes'.2 branch hmem)

/-- Both plans walk the body of a loop, or both draw its iterations. -/
theorem loop {condition : Option String} {body : List Task} (hk : t.kind = .loop condition body) :
    (t.plan settings history path position sources).Mirrors rep K
      (t.plan settings' history' path position sources') := by
  have hself := ht.self hK hsources path position
  rw [plan_eq, hk] at hcompletes hcompletes' ⊢
  rw [plan_eq, hk]
  dsimp only at hcompletes hcompletes' ⊢
  obtain ⟨latest, hlatest, heq⟩ := hcompletes.of_attempt
  obtain ⟨latest', hlatest', heq'⟩ := hcompletes'.of_attempt
  rw [heq] at hcompletes ⊢
  rw [heq'] at hcompletes' ⊢
  have hsame := ht.latest
  have hrun : t.isRunLoop history = latest.isSome := by
    rw [isRunLoop_of_loop hk, History.latest?_eq_of_latestOfTask hlatest]
  rw [History.latest?_eq_of_latestOfTask hlatest,
    History.latest?_eq_of_latestOfTask hlatest'] at hsame
  cases latest with
  | none =>
    obtain rfl := Option.isNone_iff_eq_none.mp (Option.isSome_eq_false_iff.mp hsame.symm)
    dsimp only at hcompletes hcompletes' ⊢
    rw [Plan.completes_andThen, Plan.completes_andThen] at hcompletes hcompletes'
    have hbody := hsequence hrun _ (Kind.mem_sequences_of_loop hk) _ hcompletes.2.1 hcompletes'.2.1
    exact hself.andThen (hbody.andThen
      (Plan.mirrors_vertex ⟨hK _ _ rfl, ht.loopEnd _ _ hk, hbody.frontier⟩))
  | some a =>
    obtain ⟨a', rfl⟩ := Option.isSome_iff_exists.mp hsame.symm
    dsimp only at hcompletes hcompletes' ⊢
    rw [Plan.completes_andThen] at hcompletes hcompletes'
    exact hself.andThen (ht.iterations hrun path position hcompletes.2 hcompletes'.2)

end Task.InStep

/-- The plan of a task, by induction on the tree. -/
theorem Task.plan_mirrors (hK : ∀ q sources, q.aggregate = none → K q { q with sources := sources })
    (t : Task) :
    (∀ u ∈ t.visible history, u.InStep rep K settings settings' history history') →
      ∀ path position sources sources', Covers rep sources sources' →
        (t.plan settings history path position sources).Completes →
          (t.plan settings' history' path position sources').Completes →
            (t.plan settings history path position sources).Mirrors rep K
              (t.plan settings' history' path position sources') := by
  induction t using Task.induction with
  | step t ih =>
    intro hvisible path position sources sources' hsources hcompletes hcompletes'
    have ht := hvisible t t.mem_visible_self
    have hself := ht.self hK hsources path position
    have hsequence : t.isRunLoop history = false → ∀ s ∈ t.kind.sequences, ∀ path,
        (planTasks settings history path 0 s [t.reference]).Completes →
          (planTasks settings' history' path 0 s [t.reference]).Completes →
            (planTasks settings history path 0 s [t.reference]).Mirrors rep K
              (planTasks settings' history' path 0 s [t.reference]) := by
      intro hopen s hs path
      refine planTasks_mirrors (fun u hu position sources sources' => ?_)
        (covers_singleton ht.reference)
      refine ih s hs u hu (fun v hv => hvisible v ?_) path position sources sources'
      exact mem_visible_of_sequence hopen hs (List.mem_flatMap_of_mem hu hv)
    cases t.kind.form with
    | single hsingle _ =>
      rw [plan_of_single hsingle, plan_of_single hsingle]
      exact hself
    | final hk =>
      rw [plan_eq, plan_eq, hk]
      exact ⟨hself.forth, hself.back, covers_nil⟩
    | branches hne => exact ht.branches hK hsources hsequence hcompletes hcompletes' hne
    | forked hk =>
      exact ht.dynamicFork hK hsources hcompletes hcompletes'
        (Kind.type_eq_forkJoinDynamic.mpr ⟨_, _, hk⟩)
    | loop hk => exact ht.loop hK hsources hsequence hcompletes hcompletes' hk

/-- The plans of a diagram agree if those of all tasks that a walk comes to do. -/
theorem Plan.ofTasks_mirrors
    (hK : ∀ q sources, q.aggregate = none → K q { q with sources := sources })
    (hstart : rep startBubble = startBubble) (hfinal : rep finalBubble = finalBubble)
    (htasks : ∀ u ∈ visibleTasks history tasks, u.InStep rep K settings settings' history history')
    (hcompletes : (Plan.ofTasks settings history tasks).Completes)
    (hcompletes' : (Plan.ofTasks settings' history' tasks).Completes) :
    (Plan.ofTasks settings history tasks).Mirrors rep K
      (Plan.ofTasks settings' history' tasks) := by
  rw [Plan.ofTasks_eq, completes_andThen, completes_andThen] at hcompletes hcompletes'
  rw [Plan.ofTasks_eq, Plan.ofTasks_eq]
  have hopening : Mirrors rep K
      (.vertex ⟨.plain "start" startBubble (.marker .terminal), .root, none, none, []⟩)
      (.vertex ⟨.plain "start" startBubble (.marker .terminal), .root, none, none, []⟩) :=
    mirrors_vertex ⟨hK _ _ rfl, hstart, covers_nil⟩
  refine hopening.andThen ?_
  have hinner := planTasks_mirrors (fun t ht position sources sources' =>
    t.plan_mirrors hK (fun u hu => htasks u (List.mem_flatMap_of_mem ht hu)) .root position sources
      sources') hopening.frontier hcompletes.2.1 hcompletes'.2.1
  exact hinner.andThen (mirrors_vertex ⟨hK _ _ rfl, hfinal, hinner.frontier⟩)

end

section

variable {rep : String → String} {K : Placement → Placement → Prop} {p p' : Plan}
  {history history' : History} {g g' : Graph}

/-- What is shown of plans in lockstep: the final bubble is left out of both or of neither. -/
theorem Plan.Mirrors.shown (h : p.Mirrors rep K p')
    (hfinal : ∀ r, rep r = finalBubble ↔ r = finalBubble) :
    (∀ q ∈ p.shown, ∃ q' ∈ p'.shown, q.Matches rep K q') ∧
      ∀ q' ∈ p'.shown, ∃ q ∈ p.shown, q.Matches rep K q' := by
  have hiff : ∀ {q q' : Placement}, q.Matches rep K q' →
      (q.reference ≠ finalBubble ∨ q.sources ≠ [] ↔
        q'.reference ≠ finalBubble ∨ q'.sources ≠ []) := by
    intro q q' hmatches
    simp only [ne_eq, ← hmatches.reference, hfinal, hmatches.sources.eq_nil_iff]
  constructor
  · intro q hq
    obtain ⟨hq, hshown⟩ := List.mem_filter.mp hq
    obtain ⟨q', hq', hmatches⟩ := h.forth q hq
    refine ⟨q', List.mem_filter.mpr ⟨hq', decide_eq_true ?_⟩, hmatches⟩
    exact (hiff hmatches).mp (of_decide_eq_true hshown)
  · intro q' hq'
    obtain ⟨hq', hshown⟩ := List.mem_filter.mp hq'
    obtain ⟨q, hq, hmatches⟩ := h.back q' hq'
    refine ⟨q, List.mem_filter.mpr ⟨hq, decide_eq_true ?_⟩, hmatches⟩
    exact (hiff hmatches).mpr (of_decide_eq_true hshown)

/-- Placements that edges are labelled alike by. -/
structure Placement.LabelsAlike (history history' : History) (q q' : Placement) : Prop where
  task : q.task = q'.task
  executed : (q.toVertex history).isExecuted = (q'.toVertex history').isExecuted

namespace Graph

theorem Shows.mem_references_iff (hg : g.Shows history p.shown) (hg' : g'.Shows history' p'.shown)
    (h : p.Mirrors rep K p') (hfinal : ∀ r, rep r = finalBubble ↔ r = finalBubble) (r' : String) :
    r' ∈ g'.references ↔ ∃ r ∈ g.references, rep r = r' := by
  obtain ⟨hforth, hback⟩ := h.shown hfinal
  rw [hg.references_eq, hg'.references_eq]
  constructor
  · intro hr'
    obtain ⟨q', hq', rfl⟩ := List.mem_map.mp hr'
    obtain ⟨q, hq, hmatches⟩ := hback q' hq'
    exact ⟨q.reference, List.mem_map_of_mem hq, hmatches.reference⟩
  · rintro ⟨r, hr, rfl⟩
    obtain ⟨q, hq, rfl⟩ := List.mem_map.mp hr
    obtain ⟨q', hq', hmatches⟩ := hforth q hq
    exact hmatches.reference ▸ List.mem_map_of_mem hq'

/-- The edges of the second graph are those that stand for edges of the first. -/
theorem Shows.joins_iff_exists (hg : g.Shows history p.shown) (hg' : g'.Shows history' p'.shown)
    (h : p.Mirrors rep K p') (hfinal : ∀ r, rep r = finalBubble ↔ r = finalBubble)
    (u' v' : String) :
    g'.Joins u' v' ↔ ∃ u v, g.Joins u v ∧ rep u = u' ∧ rep v = v' := by
  obtain ⟨hforth, hback⟩ := h.shown hfinal
  constructor
  · intro hjoins
    obtain ⟨q', hq', hu', rfl⟩ := hg'.joins_iff.mp hjoins
    obtain ⟨q, hq, hmatches⟩ := hback q' hq'
    obtain ⟨u, hu, rfl⟩ := (hmatches.sources u').mp hu'
    exact ⟨u, q.reference, hg.joins_iff.mpr ⟨q, hq, hu, rfl⟩, rfl, hmatches.reference⟩
  · rintro ⟨u, v, hjoins, rfl, rfl⟩
    obtain ⟨q, hq, hu, rfl⟩ := hg.joins_iff.mp hjoins
    obtain ⟨q', hq', hmatches⟩ := hforth q hq
    exact hg'.joins_iff.mpr
      ⟨q', hq', (hmatches.sources _).mpr ⟨u, hu, rfl⟩, hmatches.reference.symm⟩

/-- What the label of an edge is taken from. -/
theorem edgeFrom_agree {q q' : Placement} {u u' : String} {label label' : EdgeLabel}
    (hlabel : q.edgeFrom history g u = .ok label) (hlabel' : q'.edgeFrom history' g' u' = .ok label')
    (htask : q.task = q'.task)
    (hexecuted : q.isExecuted (history.latest? q.task.reportRef) =
      q'.isExecuted (history'.latest? q'.task.reportRef))
    (hsource : ∀ x x', g.vertex? u = some x → g'.vertex? u' = some x' →
      x.task = x'.task ∧ x.isExecuted = x'.isExecuted)
    (hlatest : ∀ r, (history.latest? r).isSome = (history'.latest? r).isSome) : label = label' := by
  obtain ⟨x, hx, hx'⟩ := edgeFrom_ok hlabel
  obtain ⟨y, hy, hy'⟩ := edgeFrom_ok hlabel'
  obtain ⟨hxy, hrun⟩ := hsource x y hx hy
  rw [hxy] at hx'
  have htaken : ∀ s : Switch (List Task), ∀ r, s.taken history r = s.taken history' r := by
    intro s r
    simp only [Switch.taken, hlatest]
  have heq : label.executed = label'.executed ∧ label.caseValue = label'.caseValue := by
    rcases hx' with ⟨hswitch, hcase, hexec⟩ | ⟨s, hswitch, hcase, hexec⟩
    · rcases hy' with ⟨-, hcase', hexec'⟩ | ⟨s', hswitch', -, -⟩
      · rw [hexec, hexec', hrun, hexecuted, hcase, hcase']
        exact ⟨rfl, rfl⟩
      · rw [hswitch] at hswitch'
        cases hswitch'
    · rcases hy' with ⟨hswitch', -, -⟩ | ⟨s', hswitch', hcase', hexec'⟩
      · rw [hswitch] at hswitch'
        cases hswitch'
      · obtain rfl := Option.some.inj (hswitch.symm.trans hswitch')
        have href : q.reference = q'.reference := congrArg Task.reference htask
        rw [hexec, hexec', ← hcase, ← hcase', href, htask, hlatest, htaken]
        exact ⟨rfl, rfl⟩
  obtain ⟨executed, caseValue⟩ := label
  obtain ⟨executed', caseValue'⟩ := label'
  simpa using heq

theorem Shows.mem_of_vertex? {ps : List Placement} (hg : g.Shows history ps) {r : String}
    {x : Vertex} (hx : g.vertex? r = some x) :
    ∃ q ∈ ps, q.reference = r ∧ q.toVertex history = x := by
  obtain ⟨hmem, hreference⟩ := vertex?_ok hx
  rw [hg.vertices] at hmem
  obtain ⟨q, hq, rfl⟩ := List.mem_map.mp hmem
  exact ⟨q, hq, hreference, rfl⟩

/-- Edges with the same ends have the same label, if these ends agree. -/
theorem Shows.label_eq {ps ps' : List Placement} (hg : g.Shows history ps)
    (hg' : g'.Shows history' ps') {e e' : Edge} (he : e ∈ g.edges) (he' : e' ∈ g'.edges)
    (hends : e.ends = e'.ends)
    (hagree : ∀ q ∈ ps, ∀ q' ∈ ps', q.reference = q'.reference →
      q.reference = e.source ∨ q.reference = e.target → q.LabelsAlike history history' q')
    (hlatest : ∀ r, (history.latest? r).isSome = (history'.latest? r).isSome) :
    e.label = e'.label := by
  obtain ⟨hsource, htarget⟩ := Prod.ext_iff.mp hends
  dsimp only [Edge.ends] at hsource htarget
  obtain ⟨q, hq, -, hqe, hlabel⟩ := hg.labels e he
  obtain ⟨q', hq', -, hqe', hlabel'⟩ := hg'.labels e' he'
  have hto := hagree q hq q' hq' (by rw [← hqe, htarget, hqe']) (Or.inr hqe.symm)
  refine edgeFrom_agree hlabel hlabel' hto.task ?_ (fun x x' hx hx' => ?_) hlatest
  · rw [← q.isExecuted_toVertex, ← q'.isExecuted_toVertex, hto.executed]
  · obtain ⟨r, hr, hre, rfl⟩ := hg.mem_of_vertex? hx
    obtain ⟨r', hr', hre', rfl⟩ := hg'.mem_of_vertex? hx'
    have hfrom := hagree r hr r' hr' (by rw [hre, hsource, hre']) (Or.inl hre)
    exact ⟨hfrom.task, hfrom.executed⟩

end Graph

end

end Flowchart

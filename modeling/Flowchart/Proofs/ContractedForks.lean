import Flowchart.Proofs.Lockstep

/-!
# Contracted forks

Under a lower collapse limit, the children of more dynamic forks are drawn as one vertex. If no
reference is drawn twice under the higher limit, then a child belongs to one fork and is drawn
nowhere else. So each reference of that plan has one that stands for it in the other plan, and the
two are in lockstep.
-/

namespace Flowchart

section

variable (history : History) (low high : Settings) (tasks : List Task)

/-- A dynamic fork whose children are drawn one by one under the higher limit, and as one vertex
under the lower one. -/
def Task.IsContracted (t : Task) : Prop :=
  t.type = .forkJoinDynamic ∧ low.collapseLimit ≤ (history.spawnedBy t.reference).length ∧
    (history.spawnedBy t.reference).length < high.collapseLimit

instance (t : Task) : Decidable (t.IsContracted history low high) :=
  inferInstanceAs (Decidable (_ ∧ _ ∧ _))

/-- The contracted forks among the tasks that a walk comes to. -/
def contracted : List Task :=
  (visibleTasks history tasks).filter fun t => t.IsContracted history low high

/-- A child of a contracted fork. -/
def IsMerged (r : String) : Prop :=
  ∃ f ∈ contracted history low high tasks, r ∈ history.spawnedBy f.reference

/-- The reference that stands for `r` under the lower limit. -/
def standIn (r : String) : String :=
  match (contracted history low high tasks).find? fun f => r ∈ history.spawnedBy f.reference with
  | some f => dynamicForkChildrenRef f.reference
  | none => r

end

theorem dynamicForkChildrenRef_ne_finalBubble (r : String) :
    dynamicForkChildrenRef r ≠ finalBubble := by
  intro h
  have hlast := getLast?_dynamicForkChildrenRef r
  rw [h] at hlast
  exact absurd hlast (by decide)

section

variable {history : History} {low high : Settings} {tasks : List Task} {f u : Task} {c r : String}

theorem mem_contracted : f ∈ contracted history low high tasks ↔
    f ∈ visibleTasks history tasks ∧ f.IsContracted history low high := by
  simp [contracted]

theorem Task.isContracted_iff (htype : f.type = .forkJoinDynamic) :
    f.IsContracted history low high ↔ high.expands (history.spawnedBy f.reference) = true ∧
      low.expands (history.spawnedBy f.reference) = false := by
  have hpositive := low.one_le_collapseLimit
  rw [Bool.eq_false_iff, ne_eq, Settings.expands_iff, Settings.expands_iff,
    ← List.length_pos_iff_ne_nil, IsContracted]
  constructor
  · rintro ⟨-, hmany, hfew⟩
    omega
  · rintro ⟨hhigh, hlow⟩
    exact ⟨htype, by omega, hhigh.2⟩

theorem Task.IsContracted.spawnedBy_ne_nil (h : f.IsContracted history low high) :
    history.spawnedBy f.reference ≠ [] := by
  have hpositive := low.one_le_collapseLimit
  have hlength := h.2.1
  exact List.ne_nil_of_length_pos (by omega)

theorem standIn_eq_self (h : ¬ IsMerged history low high tasks r) :
    standIn history low high tasks r = r := by
  have hnone : (contracted history low high tasks).find?
      (fun f => decide (r ∈ history.spawnedBy f.reference)) = none := by
    rw [List.find?_eq_none]
    intro f hf hr
    exact h ⟨f, hf, of_decide_eq_true hr⟩
  rw [standIn, hnone]

theorem exists_standIn (h : IsMerged history low high tasks r) :
    ∃ f ∈ contracted history low high tasks, r ∈ history.spawnedBy f.reference ∧
      standIn history low high tasks r = dynamicForkChildrenRef f.reference := by
  unfold standIn
  cases hfound : (contracted history low high tasks).find?
      (fun f => decide (r ∈ history.spawnedBy f.reference)) with
  | none =>
    obtain ⟨f, hf, hr⟩ := h
    exact absurd (decide_eq_true hr) (List.find?_eq_none.mp hfound f hf)
  | some f =>
    have hmem := List.find?_some hfound
    exact ⟨f, List.mem_of_find?_eq_some hfound, of_decide_eq_true hmem, rfl⟩

theorem standIn_eq_finalBubble_iff (hfinal : ¬ IsMerged history low high tasks finalBubble) :
    standIn history low high tasks r = finalBubble ↔ r = finalBubble := by
  constructor
  · intro h
    by_cases hmerged : IsMerged history low high tasks r
    · obtain ⟨f, -, -, heq⟩ := exists_standIn hmerged
      exact absurd (heq.symm.trans h) (dynamicForkChildrenRef_ne_finalBubble _)
    · rwa [standIn_eq_self hmerged] at h
  · rintro rfl
    exact standIn_eq_self hfinal

variable (hfiled : history.Filed) (hcompletes : (Plan.ofTasks high history tasks).Completes)
  (hnodup : (Plan.ofTasks high history tasks).references.Nodup)

section

include hfiled hcompletes

theorem exists_spawned (hu : u ∈ visibleTasks history tasks) (htype : u.type = .forkJoinDynamic)
    (hfew : (history.spawnedBy u.reference).length < high.collapseLimit)
    (hc : c ∈ history.spawnedBy u.reference) :
    ∃ q ∈ (Plan.ofTasks high history tasks).placements, q.reference = c ∧
      q.SpawnedBy u.reference := by
  obtain ⟨path, position, sources, hplan, hmem⟩ := Plan.ofTasks_visible hcompletes hu
  obtain ⟨q, hq, hspawned⟩ := Task.plan_spawned hfiled htype hfew hc hplan
  exact ⟨q, hmem q hq, hspawned⟩

include hnodup

/-- A child of a contracted fork that is drawn otherwise would be drawn twice. -/
theorem not_isMerged {q : Placement} (hq : q ∈ (Plan.ofTasks high history tasks).placements)
    (hown : ∀ f ∈ contracted history low high tasks, ¬ q.SpawnedBy f.reference) :
    ¬ IsMerged history low high tasks q.reference := by
  rintro ⟨f, hf, hmem⟩
  obtain ⟨hvisible, htype, -, hfew⟩ := mem_contracted.mp hf
  obtain ⟨p, hp, hreference, hspawned⟩ := exists_spawned hfiled hcompletes hvisible htype hfew hmem
  obtain rfl := List.inj_on_of_nodup_map hnodup hp hq hreference
  exact hown f hf hspawned

/-- A child that is drawn by itself belongs to one fork. -/
theorem reference_eq_of_spawned (hu : u ∈ visibleTasks history tasks)
    (htype : u.type = .forkJoinDynamic)
    (hfew : (history.spawnedBy u.reference).length < high.collapseLimit)
    (hc : c ∈ history.spawnedBy u.reference) (hf : f ∈ contracted history low high tasks)
    (hc' : c ∈ history.spawnedBy f.reference) : f.reference = u.reference := by
  obtain ⟨hvisible, htype', -, hfew'⟩ := mem_contracted.mp hf
  obtain ⟨p, hp, hreference, hspawned⟩ := exists_spawned hfiled hcompletes hu htype hfew hc
  obtain ⟨p', hp', hreference', hspawned'⟩ :=
    exists_spawned hfiled hcompletes hvisible htype' hfew' hc'
  obtain rfl := List.inj_on_of_nodup_map hnodup hp hp' (hreference.trans hreference'.symm)
  have hsources := hspawned'.sources.symm.trans hspawned.sources
  exact List.singleton_inj.mp hsources

theorem standIn_of_mem (hf : f ∈ contracted history low high tasks)
    (hc : c ∈ history.spawnedBy f.reference) :
    standIn history low high tasks c = dynamicForkChildrenRef f.reference := by
  obtain ⟨hvisible, htype, -, hfew⟩ := mem_contracted.mp hf
  obtain ⟨f', hf', hc', heq⟩ := exists_standIn ⟨f, hf, hc⟩
  rw [heq, reference_eq_of_spawned hfiled hcompletes hnodup hvisible htype hfew hc hf' hc']

/-- What has a place, or stands for other tasks, is no child of a contracted fork. -/
theorem not_isMerged_of_own {q : Placement}
    (hq : q ∈ (Plan.ofTasks high history tasks).placements)
    (hown : q.position ≠ none ∨ q.aggregate ≠ none ∨ q.task.kind.isMarker = true) :
    ¬ IsMerged history low high tasks q.reference := by
  refine not_isMerged hfiled hcompletes hnodup hq fun f _ hspawned => ?_
  rcases hown with hposition | haggregate | hmarker
  · exact hposition hspawned.position
  · exact haggregate hspawned.aggregate
  · rw [hspawned.marker] at hmarker
    cases hmarker

/-- The references of a task that a walk comes to are left as they are. -/
theorem not_isMerged_of_visible (hu : u ∈ visibleTasks history tasks) :
    ¬ IsMerged history low high tasks u.reference ∧
    (∀ condition body, u.kind = .loop condition body →
      ¬ IsMerged history low high tasks (loopEndRef u.reference)) ∧
    (u.isRunLoop history = true →
      ¬ IsMerged history low high tasks (loopChildrenRef u.reference)) ∧
    (u.type = .forkJoinDynamic → high.expands (history.spawnedBy u.reference) = false →
      ¬ IsMerged history low high tasks (dynamicForkChildrenRef u.reference)) := by
  obtain ⟨path, position, sources, hplan, hmem⟩ := Plan.ofTasks_visible hcompletes hu
  refine ⟨?_, fun condition body hk => ?_, fun hrun => ?_, fun htype hmany => ?_⟩
  · exact not_isMerged_of_own hfiled hcompletes hnodup (hmem _ (u.plan_self hplan))
      (Or.inl (Option.some_ne_none _))
  · obtain ⟨q, hq, hreference, hposition⟩ := Task.plan_loopEnd hk hplan
    rw [← hreference]
    exact not_isMerged_of_own hfiled hcompletes hnodup (hmem q hq) (Or.inl hposition)
  · obtain ⟨q, hq, hreference, haggregate⟩ := Task.plan_loopChildren hrun hplan
    rw [← hreference]
    exact not_isMerged_of_own hfiled hcompletes hnodup (hmem q hq) (Or.inr (Or.inl haggregate))
  · obtain ⟨aggregate, -, hq⟩ := Task.plan_forkedStack htype hmany hplan
    exact not_isMerged_of_own hfiled hcompletes hnodup (hmem _ hq)
      (Or.inr (Or.inl (Option.some_ne_none _)))

/-- The vertices of children go into one, and what is drawn otherwise is left as it is. -/
def Placement.Contracts (history : History) (low high : Settings) (tasks : List Task)
    (q q' : Placement) : Prop :=
  IsMerged history low high tasks q.reference ∨
    q' = { q with sources := q'.sources } ∧
      ∀ f ∈ contracted history low high tasks, ¬ q.IsStackOf f

section

variable {path : TreePath} {position : Nat} {aggregate : Aggregate}

omit hcompletes hnodup in
/-- A child of a fork that is not contracted is left as it is. -/
theorem planChild_kept (hu : ¬ IsMerged history low high tasks u.reference)
    (hc : ¬ IsMerged history low high tasks c)
    (hchild : (Task.planChild history u.reference path c).Completes) :
    (Task.planChild history u.reference path c).Mirrors (standIn history low high tasks)
      (Placement.Contracts history low high tasks)
      (Task.planChild history u.reference path c) := by
  obtain ⟨a, ha, heq⟩ := Task.planChild_cases hchild
  have hreference : a.task.reference = c := hfiled.reference_eq ha
  rw [heq]
  refine Plan.mirrors_self (fun q hq => ?_) (fun r hr => ?_)
  · rw [List.mem_singleton.mp hq]
    refine ⟨Or.inr ⟨rfl, fun f _ hstack => hstack.aggregate rfl⟩, ?_, fun r hr => ?_⟩
    · change standIn history low high tasks a.task.reference = a.task.reference
      rw [hreference]
      exact standIn_eq_self hc
    · rw [List.mem_singleton.mp hr]
      exact standIn_eq_self hu
  · rw [List.mem_singleton.mp hr]
    exact standIn_eq_self hc

/-- A child of a contracted fork goes into the vertex for all children. -/
theorem planChild_contracts (hu : u ∈ contracted history low high tasks)
    (hc : c ∈ history.spawnedBy u.reference)
    (hchild : (Task.planChild history u.reference path c).Completes) :
    (Task.planChild history u.reference path c).Mirrors (standIn history low high tasks)
      (Placement.Contracts history low high tasks)
      (.vertex ⟨Task.forkedStack u.reference, path, none, some aggregate, [u.reference]⟩) := by
  obtain ⟨a, ha, heq⟩ := Task.planChild_cases hchild
  have hreference : a.task.reference = c := hfiled.reference_eq ha
  have hstand := standIn_of_mem hfiled hcompletes hnodup hu hc
  have hself : ¬ IsMerged history low high tasks u.reference :=
    (not_isMerged_of_visible hfiled hcompletes hnodup (mem_contracted.mp hu).1).1
  have hmatches : (⟨a.task, path, none, none, [u.reference]⟩ : Placement).Matches
      (standIn history low high tasks) (Placement.Contracts history low high tasks)
      ⟨Task.forkedStack u.reference, path, none, some aggregate, [u.reference]⟩ := by
    refine ⟨Or.inl ⟨u, hu, ?_⟩, ?_, covers_singleton ?_⟩
    · change a.task.reference ∈ _
      rwa [hreference]
    · change standIn history low high tasks a.task.reference = _
      rw [hreference]
      exact hstand
    · exact standIn_eq_self hself
  rw [heq]
  refine ⟨fun q hq => ⟨_, List.mem_singleton_self _, ?_⟩,
    fun q' hq' => ⟨_, List.mem_singleton_self _, ?_⟩, covers_singleton hstand⟩
  · rw [List.mem_singleton.mp hq]
    exact hmatches
  · rw [List.mem_singleton.mp hq']
    exact hmatches

theorem planForked_expanded (hu : u ∈ visibleTasks history tasks)
    (htype : u.type = .forkJoinDynamic)
    (hhigh : high.expands (history.spawnedBy u.reference) = true)
    (hlow : low.expands (history.spawnedBy u.reference) = true)
    (hplan : (Task.planForked high history u.reference path).Completes) :
    (Task.planForked high history u.reference path).Mirrors (standIn history low high tasks)
      (Placement.Contracts history low high tasks)
      (Task.planForked low history u.reference path) := by
  obtain ⟨hself, -⟩ := not_isMerged_of_visible hfiled hcompletes hnodup hu
  obtain ⟨-, hfew⟩ := Settings.expands_iff.mp hhigh
  have hkept : ∀ c ∈ history.spawnedBy u.reference, ¬ IsMerged history low high tasks c := by
    rintro c hc ⟨f, hf, hc'⟩
    have hsame := reference_eq_of_spawned hfiled hcompletes hnodup hu htype hfew hc hf hc'
    obtain ⟨-, -, hmany, -⟩ := mem_contracted.mp hf
    rw [hsame] at hmany
    exact absurd (Settings.expands_iff.mp hlow).2 (Nat.not_lt.mpr hmany)
  rw [Task.planForked_of_few hhigh] at hplan ⊢
  rw [Plan.completes_beside, List.forall_mem_map] at hplan
  rw [Task.planForked_of_few hlow]
  exact Plan.mirrors_beside_map fun c hc =>
    planChild_kept hfiled hself (hkept c hc) (hplan c hc)

theorem planForked_contracted (hu : u ∈ contracted history low high tasks)
    (hplan : (Task.planForked high history u.reference path).Completes)
    (hplan' : (Task.planForked low history u.reference path).Completes) :
    (Task.planForked high history u.reference path).Mirrors (standIn history low high tasks)
      (Placement.Contracts history low high tasks)
      (Task.planForked low history u.reference path) := by
  obtain ⟨hvisible, hcontracted⟩ := mem_contracted.mp hu
  obtain ⟨hhigh, hlow⟩ := (Task.isContracted_iff hcontracted.1).mp hcontracted
  rw [Task.planForked_of_few hhigh] at hplan ⊢
  rw [Plan.completes_beside, List.forall_mem_map] at hplan
  rcases Task.planForked_cases hplan' with ⟨hfew, -⟩ | ⟨-, aggregate, -, heq⟩
  · exact absurd (hfew.symm.trans hlow) nofun
  · obtain ⟨c, hc⟩ := List.exists_mem_of_ne_nil _ hcontracted.spawnedBy_ne_nil
    have hchild : ∀ c ∈ history.spawnedBy u.reference,
        (Task.planChild history u.reference path c).Mirrors (standIn history low high tasks)
          (Placement.Contracts history low high tasks) (.vertex
            ⟨Task.forkedStack u.reference, path, none, some aggregate, [u.reference]⟩) :=
      fun c hc => planChild_contracts hfiled hcompletes hnodup hu hc (hplan c hc)
    rw [heq, ← Plan.beside_singleton (Plan.vertex _)]
    refine Plan.mirrors_beside ?_ ?_
    · rw [List.forall_mem_map]
      exact fun c hc => ⟨_, List.mem_singleton_self _, hchild c hc⟩
    · rw [List.forall_mem_singleton]
      exact ⟨_, List.mem_map_of_mem hc, hchild c hc⟩

theorem planForked_stacked (hu : u ∈ visibleTasks history tasks)
    (htype : u.type = .forkJoinDynamic)
    (hhigh : high.expands (history.spawnedBy u.reference) = false)
    (hlow : low.expands (history.spawnedBy u.reference) = false)
    (hplan : (Task.planForked high history u.reference path).Completes) :
    (Task.planForked high history u.reference path).Mirrors (standIn history low high tasks)
      (Placement.Contracts history low high tasks)
      (Task.planForked low history u.reference path) := by
  obtain ⟨hself, -, -, hstack⟩ := not_isMerged_of_visible hfiled hcompletes hnodup hu
  rw [Task.planForked_congr (hlow.trans hhigh.symm)]
  rcases Task.planForked_cases hplan with ⟨hfew, -⟩ | ⟨-, aggregate, -, heq⟩
  · exact absurd (hfew.symm.trans hhigh) nofun
  · rw [heq]
    refine Plan.mirrors_vertex ⟨Or.inr ⟨rfl, fun f hf hstackOf => ?_⟩,
      standIn_eq_self (hstack htype hhigh), covers_singleton (standIn_eq_self hself)⟩
    have hsame : u.reference = f.reference :=
      dynamicForkChildrenRef_injective (congrArg Task.reference hstackOf.task)
    obtain ⟨-, hcontracted⟩ := mem_contracted.mp hf
    rw [hsame, ((Task.isContracted_iff hcontracted.1).mp hcontracted).1] at hhigh
    cases hhigh

theorem planForked_contracts (hle : low.collapseLimit ≤ high.collapseLimit)
    (hu : u ∈ visibleTasks history tasks) (htype : u.type = .forkJoinDynamic)
    (hplan : (Task.planForked high history u.reference path).Completes)
    (hplan' : (Task.planForked low history u.reference path).Completes) :
    (Task.planForked high history u.reference path).Mirrors (standIn history low high tasks)
      (Placement.Contracts history low high tasks)
      (Task.planForked low history u.reference path) := by
  cases hlow : low.expands (history.spawnedBy u.reference) with
  | true =>
    exact planForked_expanded hfiled hcompletes hnodup hu htype (Settings.expands_mono hle hlow)
      hlow hplan
  | false =>
    cases hhigh : high.expands (history.spawnedBy u.reference) with
    | true =>
      have hcontracted := (Task.isContracted_iff htype).mpr ⟨hhigh, hlow⟩
      exact planForked_contracted hfiled hcompletes hnodup
        (mem_contracted.mpr ⟨hu, hcontracted⟩) hplan hplan'
    | false => exact planForked_stacked hfiled hcompletes hnodup hu htype hhigh hlow hplan

theorem planIterations_kept (hu : u ∈ visibleTasks history tasks)
    (hrun : u.isRunLoop history = true)
    (hplan : (Task.planIterations history u u.loopEnd path position).Completes) :
    (Task.planIterations history u u.loopEnd path position).Mirrors
      (standIn history low high tasks) (Placement.Contracts history low high tasks)
      (Task.planIterations history u u.loopEnd path position) := by
  obtain ⟨hself, hend, hstack, -⟩ := not_isMerged_of_visible hfiled hcompletes hnodup hu
  obtain ⟨⟨condition, body, hk⟩, -⟩ := Task.isRunLoop_iff.mp hrun
  obtain ⟨aggregate, -, heq⟩ := Task.planIterations_cases hplan
  have hkept : ∀ {q : Placement}, q.task.kind ≠ .marker .dynamicForkChildren →
      q.Contracts history low high tasks q := fun hkind =>
    Or.inr ⟨rfl, fun f _ hstackOf => hkind (congrArg Task.kind hstackOf.task)⟩
  rw [heq]
  refine Plan.Mirrors.andThen
    (Plan.mirrors_vertex ⟨hkept nofun, ?_, covers_singleton ?_⟩)
    (Plan.mirrors_vertex ⟨hkept nofun, ?_, covers_singleton ?_⟩)
  · exact standIn_eq_self (hstack hrun)
  · exact standIn_eq_self hself
  · exact standIn_eq_self (hend condition body hk)
  · exact standIn_eq_self (hstack hrun)

/-- Each task that a walk comes to is planned alike under both limits, but for its children. -/
theorem inStep_contracts (hle : low.collapseLimit ≤ high.collapseLimit)
    (hu : u ∈ visibleTasks history tasks) :
    u.InStep (standIn history low high tasks) (Placement.Contracts history low high tasks) high low
      history history where
  reference := standIn_eq_self (not_isMerged_of_visible hfiled hcompletes hnodup hu).1
  loopEnd condition body hk := standIn_eq_self
    ((not_isMerged_of_visible hfiled hcompletes hnodup hu).2.1 condition body hk)
  latest := rfl
  forked htype _ hplan hplan' :=
    planForked_contracts hfiled hcompletes hnodup hle hu htype hplan hplan'
  iterations hrun _ _ hplan _ := planIterations_kept hfiled hcompletes hnodup hu hrun hplan

/-- The bubbles are left as they are. -/
theorem not_isMerged_bubble : ¬ IsMerged history low high tasks startBubble ∧
    ¬ IsMerged history low high tasks finalBubble := by
  have hstart : ∃ q ∈ (Plan.ofTasks high history tasks).placements,
      q.reference = startBubble ∧ q.task.kind.isMarker = true := by
    rw [Plan.ofTasks_eq, Plan.placements_andThen]
    exact ⟨_, List.mem_append_left _ (List.mem_singleton_self _), rfl, rfl⟩
  have hfinal : ∃ q ∈ (Plan.ofTasks high history tasks).placements,
      q.reference = finalBubble ∧ q.task.kind.isMarker = true := by
    rw [Plan.ofTasks_eq, Plan.placements_andThen, Plan.placements_andThen]
    exact ⟨_, List.mem_append_right _ (List.mem_append_right _ (List.mem_singleton_self _)), rfl,
      rfl⟩
  obtain ⟨q, hq, hreference, hmarker⟩ := hstart
  obtain ⟨q', hq', hreference', hmarker'⟩ := hfinal
  constructor
  · rw [← hreference]
    exact not_isMerged_of_own hfiled hcompletes hnodup hq (Or.inr (Or.inr hmarker))
  · rw [← hreference']
    exact not_isMerged_of_own hfiled hcompletes hnodup hq' (Or.inr (Or.inr hmarker'))

theorem Plan.ofTasks_contracts (hle : low.collapseLimit ≤ high.collapseLimit)
    (hcompletes' : (Plan.ofTasks low history tasks).Completes) :
    (Plan.ofTasks high history tasks).Mirrors (standIn history low high tasks)
      (Placement.Contracts history low high tasks) (Plan.ofTasks low history tasks) := by
  have hbubbles : ¬ IsMerged history low high tasks startBubble ∧
      ¬ IsMerged history low high tasks finalBubble :=
    not_isMerged_bubble hfiled hcompletes hnodup
  obtain ⟨hstart, hfinal⟩ := hbubbles
  refine Plan.ofTasks_mirrors (fun q sources hnone => ?_) (standIn_eq_self hstart)
    (standIn_eq_self hfinal)
    (fun u hu => inStep_contracts hfiled hcompletes hnodup hle hu) hcompletes hcompletes'
  exact Or.inr ⟨rfl, fun f _ hstack => hstack.aggregate hnone⟩

end

end

end

end Flowchart

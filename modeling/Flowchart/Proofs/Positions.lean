import Flowchart.Proofs.DrawnTasks
import Flowchart.Proofs.KeyedReading
import Flowchart.Proofs.Upkeep

/-!
# Where vertices stand

The plan of a diagram walks down the tree, and all that it draws it draws for the task that the walk
has come to. The same way leads there in the tree. So a vertex with a place stands where the task is
that it draws, or the loop that it closes. A walk goes everywhere but into the bodies of loops that
have run.
-/

namespace Flowchart

theorem Task.isRunLoop_with_kind {t : Task} {k : Kind (List Task)} (history : History)
    (h : k.type = t.kind.type) :
    ({ t with kind := k } : Task).isRunLoop history = t.isRunLoop history := by
  rw [isRunLoop, isRunLoop, type, type, h]

/-- The segments lead from `tasks` to the sequence `s`, and through no loop that has run. -/
inductive TreePath.Leads (history : History) : List Segment → List Task → List Task → Prop where
  | here (tasks : List Task) : Leads history [] tasks tasks
  | step {segment : Segment} {rest : List Segment} {tasks q s : List Task} {t : Task} :
      tasks[segment.index]? = some t → t.isRunLoop history = false →
      t.kind.get? segment.branch = some q → Leads history rest q s →
      Leads history (segment :: rest) tasks s

/-- What is drawn at the place of a task: the task, and the bar that closes a loop. -/
def Task.DrawnAs (u t : Task) : Prop :=
  t = u ∨ (∃ condition body, u.kind = .loop condition body) ∧ t = u.loopEnd

/-- What is drawn for a task `u`, the one at `i` in the sequence at `path`: the task, and what its
kind calls for besides the tasks in it. -/
inductive Placement.Origin (history : History) (u : Task) (path : TreePath) (i : Nat) :
    Placement → Prop where
  | own (sources : List String) : Origin history u path i ⟨u, path, some i, none, sources⟩
  | child {tasksParam inputParam : Option String} {child : String} {a : Attempt} :
      u.kind = .dynamicFork tasksParam inputParam →
      child ∈ (history.spawned? u.reference).getD [] →
      history.latestOfTask child = .ok (some a) →
      Origin history u path i ⟨a.task, path, none, none, [u.reference]⟩
  | children {tasksParam inputParam : Option String} {aggregate : Aggregate} :
      u.kind = .dynamicFork tasksParam inputParam →
      Aggregate.OfForked history u.reference ((history.spawned? u.reference).getD []) aggregate →
      Origin history u path i ⟨.ofRef (dynamicForkChildrenRef u.reference)
        (.marker .dynamicForkChildren), path, none, some aggregate, [u.reference]⟩
  | bar {condition : Option String} {body : List Task} (sources : List String) :
      u.kind = .loop condition body → history.latestOfTask u.reference = .ok none →
      Origin history u path i ⟨u.loopEnd, path, some i, none, sources⟩
  | iterations {condition : Option String} {body : List Task} {a : Attempt}
      {aggregate : Aggregate} :
      u.kind = .loop condition body → history.latestOfTask u.reference = .ok (some a) →
      Aggregate.ofReferences history (u.iterations history) = .ok aggregate →
      Origin history u path i ⟨.ofRef (loopChildrenRef u.reference) (.marker .loopChildren), path,
        none, some aggregate, [u.reference]⟩
  | closingBar {condition : Option String} {body : List Task} {a : Attempt}
      {aggregate : Aggregate} (sources : List String) :
      u.kind = .loop condition body → history.latestOfTask u.reference = .ok (some a) →
      Aggregate.ofReferences history (u.iterations history) = .ok aggregate →
      Origin history u path i ⟨u.loopEnd, path, some i,
        some { Aggregate.blank with status := aggregate.status }, sources⟩

/-- A placement is drawn for a task in `tasks`, the sequence at `path`, and a path leads to that
task. If cases had the same key, that path would lead astray. -/
def Placement.DrawnIn (history : History) (path : TreePath) (tasks : List Task)
    (p : Placement) : Prop :=
  ∃ q i u, u ∈ listing tasks ∧ p.Origin history u q i ∧
    (Throughout Kind.Keyed tasks → ∃ segments s, q = ⟨path.segments ++ segments⟩ ∧
      TreePath.Leads history segments tasks s ∧ s[i]? = some u)

namespace TreePath

variable {history : History} {segments : List Segment} {tasks s : List Task}

theorem Leads.follow? (h : Leads history segments tasks s) :
    TreePath.follow? segments tasks = some s := by
  induction h with
  | here tasks => rfl
  | step ht _ hq _ ih => rw [follow?_cons ht hq, ih]

/-- A change at the end of a path leaves the way there open. -/
theorem Leads.change? {f : List Task → List Task} {tasks' : List Task}
    (hleads : Leads history segments tasks s)
    (h : TreePath.change? f segments tasks = some tasks') :
    Leads history segments tasks' (f s) := by
  induction hleads generalizing tasks' with
  | here tasks =>
    obtain rfl := Option.some.inj h
    exact .here _
  | @step segment rest tasks q s t ht hopen hq _ ih =>
    obtain ⟨t', q₁, q', ht', hq₁, hq', rfl⟩ := change?_cons h
    obtain rfl := Option.some.inj (ht'.symm.trans ht)
    obtain rfl := Option.some.inj (hq₁.symm.trans hq)
    have hindex := (List.getElem?_eq_some_iff.mp ht).1
    refine .step (List.getElem?_set_self hindex) ?_ (Kind.get?_set hq q') (ih hq')
    rw [Task.isRunLoop_with_kind history (Kind.type_set _ _ _), hopen]

theorem Leads.append {segments' : List Segment} {s' : List Task}
    (h : Leads history segments tasks s) (h' : Leads history segments' s s') :
    Leads history (segments ++ segments') tasks s' := by
  induction h with
  | here tasks => exact h'
  | step ht hopen hq _ ih => exact .step ht hopen hq (ih h')

/-- A path leads where it resolves to, if no task on its way is a loop that has run. -/
theorem leads_iff : Leads history segments tasks s ↔ TreePath.follow? segments tasks = some s ∧
    ∀ before segment after q t, segments = before ++ segment :: after →
      TreePath.follow? before tasks = some q → q[segment.index]? = some t →
        t.isRunLoop history = false := by
  constructor
  · intro h
    refine ⟨h.follow?, ?_⟩
    induction h with
    | here => exact fun before _ _ _ _ heq => by cases before <;> cases heq
    | @step first rest tasks q s u hu hopen hq _ ih =>
      intro before segment after q' t heq hq' ht
      cases before with
      | nil =>
        cases heq
        obtain rfl := Option.some.inj hq'
        obtain rfl := Option.some.inj (ht.symm.trans hu)
        exact hopen
      | cons first' before =>
        cases heq
        rw [follow?_cons hu hq] at hq'
        exact ih before segment after q' t rfl hq' ht
  · rintro ⟨hs, hopen⟩
    induction segments generalizing tasks with
    | nil =>
      obtain rfl := Option.some.inj hs
      exact .here tasks
    | cons first rest ih =>
      obtain ⟨u, q, hu, hq, hs⟩ := follow?_cons_eq_some.mp hs
      refine .step hu (hopen [] first rest tasks u rfl rfl hu) hq (ih hs ?_)
      intro before segment after q' t heq hq' ht
      refine hopen (first :: before) segment after q' t (by rw [heq, List.cons_append]) ?_ ht
      rw [follow?_cons hu hq, hq']

end TreePath

theorem Throughout.of_leads {P : Kind (List Task) → Prop} {history : History}
    {segments : List Segment} {tasks s : List Task} {i : Nat} {u : Task} (h : Throughout P tasks)
    (hs : TreePath.Leads history segments tasks s) (hu : s[i]? = some u) : P u.kind :=
  (throughout_iff.mp (h.follow? hs.follow?) u (List.mem_of_getElem? hu)).1

theorem Task.DrawnAs.reportRef_eq {u t : Task} (h : u.DrawnAs t)
    (hu : u.kind.type ≠ .doWhileEnd) : t.reportRef = u.reference := by
  rcases h with rfl | ⟨-, rfl⟩
  · unfold reportRef
    split
    · next loop hk =>
      rw [hk] at hu
      exact absurd rfl hu
    · rfl
  · rfl

namespace Kind

variable {k : Kind (List Task)} {branch : Branch} {s : List Task}

theorem type_of_branches (h : k.branches ≠ []) :
    k.type ≠ .doWhile ∧ k.type ≠ .forkJoinDynamic := by
  cases k with
  | fork branches => exact ⟨nofun, nofun⟩
  | switch form switch => cases form <;> exact ⟨nofun, nofun⟩
  | _ => exact absurd rfl h

theorem get?_of_mem_parts (hk : k.Keyed) (h : (branch, s) ∈ k.parts) :
    k.get? branch = some s := by
  cases k with
  | loop condition body =>
    cases List.mem_singleton.mp h
    rfl
  | fork branches =>
    obtain ⟨i, hi, heq⟩ := List.mem_mapIdx.mp h
    cases heq
    exact List.getElem?_eq_getElem hi
  | switch form switch =>
    rcases List.mem_cons.mp h with heq | h
    · cases heq
      rfl
    · obtain ⟨c, hc, heq⟩ := List.mem_map.mp h
      cases heq
      exact Dict.get?_of_mem (hk switch rfl) hc
  | _ => exact absurd h List.not_mem_nil

theorem mem_parts_of_get? (h : k.get? branch = some s) : (branch, s) ∈ k.parts := by
  unfold get? at h
  split at h
  · next branches i =>
    obtain ⟨hi, rfl⟩ := List.getElem?_eq_some_iff.mp h
    exact List.mem_mapIdx.mpr ⟨i, hi, rfl⟩
  · next form switch key =>
    obtain ⟨before, after, heq, -⟩ := Dict.split_of_get? h
    refine List.mem_cons_of_mem _ (List.mem_map.mpr ⟨(key, s), ?_, rfl⟩)
    rw [heq]
    exact List.mem_append_right _ List.mem_cons_self
  · next form switch =>
    obtain rfl := Option.some.inj h
    exact List.mem_cons_self
  · next condition body =>
    obtain rfl := Option.some.inj h
    exact List.mem_cons_self
  · cases h

end Kind

/-! ### From the plan to the tree

Going down the plan of a task, what is drawn for it is found in the tree at the place that it was
given: a path gets longer by one segment for each sequence that is walked. The converse further down
goes along a path instead. Both stop at a loop that has run, inside which nothing is drawn.
-/

section

variable {settings : Settings} {history : History} {path : TreePath} {position : Nat}
  {sources : List String} {tasks whole : List Task}

theorem Placement.DrawnIn.inside {branch : Branch} {q : List Task} {t : Task} {p : Placement}
    (ht : whole[position]? = some t) (hopen : t.isRunLoop history = false)
    (hq : (branch, q) ∈ t.kind.parts) (h : p.DrawnIn history (path.child position branch) q) :
    p.DrawnIn history path whole := by
  obtain ⟨q', i, u, hu, horigin, hplace⟩ := h
  have hmem : q ∈ t.kind.sequences := by
    rw [Kind.sequences_eq_parts]
    exact List.mem_map_of_mem (f := (·.2)) hq
  refine ⟨q', i, u, mem_listing.mpr ⟨t, List.mem_of_getElem? ht,
    Task.mem_family.mpr (Or.inr ⟨q, hmem, hu⟩)⟩, horigin, fun hkeyed => ?_⟩
  obtain ⟨hkind, hinner⟩ := throughout_iff.mp hkeyed t (List.mem_of_getElem? ht)
  obtain ⟨segments, s, rfl, hleads, hfound⟩ := hplace (hinner q hmem)
  refine ⟨⟨position, branch⟩ :: segments, s, ?_,
    .step ht hopen (Kind.get?_of_mem_parts hkind hq) hleads, hfound⟩
  rw [TreePath.child, List.append_assoc]
  rfl

theorem Placement.DrawnIn.here {u : Task} {p : Placement} (hu : whole[position]? = some u)
    (h : p.Origin history u path position) : p.DrawnIn history path whole := by
  refine ⟨path, position, u, mem_listing.mpr ⟨u, List.mem_of_getElem? hu,
    Task.mem_family.mpr (Or.inl rfl)⟩, h, fun _ => ⟨[], whole, ?_, .here whole, hu⟩⟩
  rw [List.append_nil]

theorem planTasks_drawnIn (hwhole : whole.drop position = tasks)
    (hplan : ∀ t ∈ tasks, ∀ position sources, whole[position]? = some t →
      (t.plan settings history path position sources).Completes →
        ∀ p ∈ (t.plan settings history path position sources).placements,
          p.DrawnIn history path whole)
    (hcompletes : (planTasks settings history path position tasks sources).Completes) :
    ∀ p ∈ (planTasks settings history path position tasks sources).placements,
      p.DrawnIn history path whole := by
  induction tasks generalizing position sources with
  | nil => exact fun p hp => absurd hp List.not_mem_nil
  | cons t rest ih =>
    have ht : whole[position]? = some t := by
      rw [← List.head?_drop, hwhole, List.head?_cons]
    have hrest : whole.drop (position + 1) = rest := by
      rw [← List.tail_drop, hwhole, List.tail_cons]
    rw [planTasks_cons] at hcompletes ⊢
    rw [Plan.completes_andThen] at hcompletes
    rw [Plan.placements_andThen, List.forall_mem_append]
    exact ⟨hplan t List.mem_cons_self position sources ht hcompletes.1,
      ih hrest (fun u hu => hplan u (List.mem_cons_of_mem t hu)) hcompletes.2⟩

theorem Task.planForked_origin {t : Task} {tasksParam inputParam : Option String}
    (hk : t.kind = .dynamicFork tasksParam inputParam)
    (hcompletes : (planForked settings history t.reference path).Completes) :
    ∀ p ∈ (planForked settings history t.reference path).placements,
      p.Origin history t path position := by
  rcases planForked_cases hcompletes with ⟨-, heq⟩ | ⟨-, aggregate, hof, heq⟩
  · rw [heq] at hcompletes ⊢
    rw [Plan.completes_beside] at hcompletes
    intro p hp
    rw [Plan.placements_beside] at hp
    obtain ⟨plan, hplan, hp⟩ := List.mem_flatMap.mp hp
    have hchild := hcompletes plan hplan
    obtain ⟨child, hmem, rfl⟩ := List.mem_map.mp hplan
    obtain ⟨a, ha, heq⟩ := planChild_cases hchild
    rw [heq] at hp
    rw [List.mem_singleton.mp hp]
    exact .child hk hmem ha
  · rw [heq]
    intro p hp
    rw [List.mem_singleton.mp hp]
    exact .children hk hof

/-- All that the plan of a task places is drawn for the task or for one inside it. -/
theorem Task.plan_drawnIn (t : Task) : ∀ path position sources whole,
    whole[position]? = some t → (t.plan settings history path position sources).Completes →
      ∀ p ∈ (t.plan settings history path position sources).placements,
        p.DrawnIn history path whole := by
  induction t using Task.induction with
  | step t ih =>
    intro path position sources whole ht hcompletes
    have hsequence : ∀ {branch s sources}, t.isRunLoop history = false →
        (branch, s) ∈ t.kind.parts →
        (planTasks settings history (path.child position branch) 0 s sources).Completes →
          ∀ p ∈ (planTasks settings history (path.child position branch) 0 s sources).placements,
            p.DrawnIn history path whole := by
      intro branch s sources hopen hs hcompletes p hp
      have hmem : s ∈ t.kind.sequences := by
        rw [Kind.sequences_eq_parts]
        exact List.mem_map_of_mem (f := (·.2)) hs
      exact .inside ht hopen hs (planTasks_drawnIn (show s.drop 0 = s from rfl)
        (fun u hu position sources => ih s hmem u hu _ position sources s) hcompletes p hp)
    have hplanned := t.planned hcompletes
    generalize t.plan settings history path position sources = plan at hcompletes hplanned ⊢
    have hself : Placement.DrawnIn history path whole
        ⟨t, path, some position, none, sources⟩ := .here ht (.own sources)
    cases hplanned with
    | single _ _ | final _ =>
      intro p hp
      rw [List.mem_singleton.mp hp]
      exact hself
    | branches hne =>
      rw [Plan.completes_andThen, Plan.completes_beside] at hcompletes
      rw [Plan.placements_andThen, Plan.placements_vertex, List.singleton_append,
        List.forall_mem_cons, Plan.placements_beside]
      refine ⟨hself, fun p hp => ?_⟩
      obtain ⟨plan, hplan, hp⟩ := List.mem_flatMap.mp hp
      have hbranch := hcompletes.2 plan hplan
      obtain ⟨⟨branch, s⟩, hmem, rfl⟩ := List.mem_map.mp hplan
      rw [← Kind.parts_eq_branches hne] at hmem
      exact hsequence (Task.isRunLoop_of_type (Kind.type_of_branches hne).1) hmem hbranch p hp
    | forked hk =>
      rw [Plan.completes_andThen] at hcompletes
      rw [Plan.placements_andThen, Plan.placements_vertex, List.singleton_append,
        List.forall_mem_cons]
      exact ⟨hself, fun p hp => .here ht (planForked_origin hk hcompletes.2 p hp)⟩
    | body hk hlatest =>
      have hopen : t.isRunLoop history = false := by
        rw [Task.isRunLoop_of_loop hk, History.latest?_eq_of_latestOfTask hlatest]
        rfl
      rw [Plan.completes_andThen, Plan.completes_andThen] at hcompletes
      rw [Plan.placements_andThen, Plan.placements_vertex, List.singleton_append,
        List.forall_mem_cons, Plan.placements_andThen, List.forall_mem_append]
      refine ⟨hself, hsequence hopen (by rw [hk]; exact List.mem_cons_self) hcompletes.2.1,
        fun p hp => ?_⟩
      rw [List.mem_singleton.mp hp]
      exact .here ht (.bar _ hk hlatest)
    | iterations hk hlatest =>
      rw [Plan.completes_andThen] at hcompletes
      obtain ⟨aggregate, haggregate, heq⟩ := Task.planIterations_cases hcompletes.2
      rw [Plan.placements_andThen, Plan.placements_vertex, List.singleton_append,
        List.forall_mem_cons, heq, Plan.placements_andThen, Plan.placements_vertex,
        List.singleton_append, List.forall_mem_cons, Plan.placements_vertex,
        List.forall_mem_singleton]
      exact ⟨hself, .here ht (.iterations hk hlatest haggregate),
        .here ht (.closingBar _ hk hlatest haggregate)⟩

/-- Apart from the two bubbles, all that is planned is drawn for a task of the tree. -/
theorem Plan.ofTasks_drawnIn (hcompletes : (Plan.ofTasks settings history tasks).Completes)
    {p : Placement} (hp : p ∈ (Plan.ofTasks settings history tasks).placements) :
    p.DrawnIn history .root tasks ∨ p.position = none ∧ p.aggregate = none ∧
      (p.task = .plain "start" startBubble (.marker .terminal) ∨
        p.task = .plain "final" finalBubble (.marker .terminal)) := by
  rw [Plan.ofTasks_eq] at hp hcompletes
  rw [Plan.completes_andThen, Plan.completes_andThen] at hcompletes
  rw [Plan.placements_andThen, Plan.placements_andThen, Plan.placements_vertex,
    Plan.placements_vertex, List.singleton_append, List.mem_cons, List.mem_append,
    List.mem_singleton] at hp
  rcases hp with rfl | hp | rfl
  · exact Or.inr ⟨rfl, rfl, Or.inl rfl⟩
  · exact Or.inl (planTasks_drawnIn List.drop_zero (fun t _ position sources =>
      t.plan_drawnIn _ position sources tasks) hcompletes.2.1 p hp)
  · exact Or.inr ⟨rfl, rfl, Or.inr rfl⟩

theorem planTasks_plan {i : Nat} {t : Task} (ht : tasks[i]? = some t)
    (hcompletes : (planTasks settings history path position tasks sources).Completes) :
    ∃ sources', (t.plan settings history path (position + i) sources').Completes ∧
      ∀ p ∈ (t.plan settings history path (position + i) sources').placements,
        p ∈ (planTasks settings history path position tasks sources).placements := by
  induction tasks generalizing position sources i with
  | nil => cases ht
  | cons first rest ih =>
    rw [planTasks_cons] at hcompletes ⊢
    rw [Plan.completes_andThen] at hcompletes
    rw [Plan.placements_andThen]
    cases i with
    | zero =>
      obtain rfl := Option.some.inj ht
      exact ⟨sources, hcompletes.1, fun p hp => List.mem_append_left _ hp⟩
    | succ i =>
      obtain ⟨sources', hplan, hmem⟩ := ih ht hcompletes.2
      rw [Nat.add_assoc, Nat.add_comm 1] at hplan hmem
      exact ⟨sources', hplan, fun p hp => List.mem_append_right _ (hmem p hp)⟩

/-- A task is planned at its place wherever a path leads to it. -/
theorem planTasks_leads {segments : List Segment} {s : List Task} {i : Nat} {u : Task}
    (h : TreePath.Leads history segments tasks s) (hu : s[i]? = some u)
    (hcompletes : (planTasks settings history path 0 tasks sources).Completes) :
    ∃ sources', (u.plan settings history ⟨path.segments ++ segments⟩ i sources').Completes ∧
      ∀ p ∈ (u.plan settings history ⟨path.segments ++ segments⟩ i sources').placements,
        p ∈ (planTasks settings history path 0 tasks sources).placements := by
  induction h generalizing path sources with
  | here tasks =>
    obtain ⟨sources', hplan, hmem⟩ := planTasks_plan hu hcompletes
    rw [List.append_nil, Nat.zero_add] at *
    exact ⟨sources', hplan, hmem⟩
  | @step segment rest tasks q s t ht hopen hq _ ih =>
    obtain ⟨_, hplan, hmem⟩ := planTasks_plan ht hcompletes
    rw [Nat.zero_add] at hplan hmem
    obtain ⟨hplan', hmem'⟩ := t.plan_sequence hplan (Kind.mem_parts_of_get? hq) hopen
    obtain ⟨sources', hself, hmem''⟩ := ih hu hplan'
    rw [TreePath.child, List.append_assoc] at hself hmem''
    exact ⟨sources', hself, fun p hp => hmem _ (hmem' _ (hmem'' p hp))⟩

end

section

variable {settings : Settings} {history : History} {tasks : List Task} {g : Graph}

/-- A vertex with a place stands where its task is, or the loop that it closes. -/
theorem Graph.recorded (h : ofTasks settings history tasks = .ok g)
    (hkeyed : Throughout Kind.Keyed tasks) {v : Vertex} (hv : v ∈ g.vertices) {i : Nat}
    (hi : v.position = some i) : ∃ s u, TreePath.Leads history v.parent.segments tasks s ∧
      s[i]? = some u ∧ u.DrawnAs v.task := by
  obtain ⟨p, hp, rfl⟩ := mem_vertices_ofTasks h hv
  change p.position = some i at hi
  change ∃ s u, TreePath.Leads history p.parent.segments tasks s ∧ s[i]? = some u ∧
    u.DrawnAs p.task
  rcases Plan.ofTasks_drawnIn (ofTasks_completes h) hp with
    ⟨path, j, u, -, horigin, hplace⟩ | ⟨hnone, -, -⟩
  · obtain ⟨segments, s, rfl, hleads, hu⟩ := hplace hkeyed
    cases horigin with
    | own sources =>
      obtain rfl := Option.some.inj hi
      exact ⟨s, u, hleads, hu, Or.inl rfl⟩
    | bar sources hk _ | closingBar sources hk _ _ =>
      obtain rfl := Option.some.inj hi
      exact ⟨s, u, hleads, hu, Or.inr ⟨⟨_, _, hk⟩, rfl⟩⟩
    | child | children | iterations => cases hi
  · rw [hnone] at hi
    cases hi

/-- What is planned of a task at its place is part of the whole plan. -/
theorem Plan.plan_of_leads (hcompletes : (Plan.ofTasks settings history tasks).Completes)
    {path : TreePath} {s : List Task} {i : Nat} {u : Task}
    (hs : TreePath.Leads history path.segments tasks s) (hu : s[i]? = some u) :
    ∃ sources, (u.plan settings history path i sources).Completes ∧
      ∀ p ∈ (u.plan settings history path i sources).placements,
        p ∈ (Plan.ofTasks settings history tasks).placements := by
  rw [Plan.ofTasks_eq] at hcompletes ⊢
  rw [Plan.completes_andThen, Plan.completes_andThen] at hcompletes
  rw [Plan.placements_andThen, Plan.placements_andThen]
  obtain ⟨sources, hplan, hmem⟩ := planTasks_leads hs hu hcompletes.2.1
  exact ⟨sources, hplan, fun p hp =>
    List.mem_append_right _ (List.mem_append_left _ (hmem p hp))⟩

theorem Plan.placement_of_leads (hcompletes : (Plan.ofTasks settings history tasks).Completes)
    {path : TreePath} {s : List Task} {i : Nat} {u : Task}
    (hs : TreePath.Leads history path.segments tasks s) (hu : s[i]? = some u) :
    ∃ sources, (⟨u, path, some i, none, sources⟩ : Placement) ∈
      (Plan.ofTasks settings history tasks).placements := by
  obtain ⟨sources, hplan, hmem⟩ := Plan.plan_of_leads hcompletes hs hu
  exact ⟨sources, hmem _ (u.plan_self hplan)⟩

/-- The bubbles have no place, so what has one is drawn under another reference. -/
theorem Plan.ne_bubble_of_position
    (hnodup : (Plan.ofTasks settings history tasks).references.Nodup) {p : Placement}
    (hp : p ∈ (Plan.ofTasks settings history tasks).placements) (hposition : p.position ≠ none) :
    p.reference ≠ startBubble ∧ p.reference ≠ finalBubble := by
  have hbubbles : ∀ r, r = startBubble ∨ r = finalBubble →
      ∃ bubble ∈ (Plan.ofTasks settings history tasks).placements,
        bubble.reference = r ∧ bubble.position = none := by
    rw [Plan.ofTasks_eq, Plan.placements_andThen, Plan.placements_andThen]
    rintro r (rfl | rfl)
    · exact ⟨_, List.mem_append_left _ List.mem_cons_self, rfl, rfl⟩
    · exact ⟨_, List.mem_append_right _ (List.mem_append_right _ List.mem_cons_self), rfl, rfl⟩
  have hapart : ∀ r, r = startBubble ∨ r = finalBubble → p.reference ≠ r := by
    intro r hr heq
    obtain ⟨bubble, hbubble, href, hnone⟩ := hbubbles r hr
    rw [List.inj_on_of_nodup_map hnodup hp hbubble (heq.trans href.symm)] at hposition
    exact hposition hnone
  exact ⟨hapart _ (Or.inl rfl), hapart _ (Or.inr rfl)⟩

/-- What has a place is shown, and what is drawn under its reference. -/
theorem Plan.mem_shown_of_position
    (hnodup : (Plan.ofTasks settings history tasks).references.Nodup) {p : Placement}
    (hp : p ∈ (Plan.ofTasks settings history tasks).placements) (hposition : p.position ≠ none) :
    p ∈ (Plan.ofTasks settings history tasks).shown :=
  List.mem_filter.mpr
    ⟨hp, decide_eq_true (Or.inl (Plan.ne_bubble_of_position hnodup hp hposition).2)⟩

private theorem filter_eq_singleton {α β : Type} (key : α → β) {as : List α} {a : α}
    {q : α → Bool} (hnodup : (as.map key).Nodup) (ha : a ∈ as) (hq : q a = true)
    (hkey : ∀ b ∈ as, q b = true → key b = key a) : as.filter q = [a] := by
  obtain ⟨before, after, rfl⟩ := List.append_of_mem ha
  rw [List.map_append, List.map_cons, List.nodup_append, List.nodup_cons] at hnodup
  obtain ⟨-, ⟨hafter, -⟩, hbefore⟩ := hnodup
  have hnone : before.filter q = [] := List.filter_eq_nil_iff.mpr fun b hb hqb =>
    hbefore _ (List.mem_map_of_mem hb) _ List.mem_cons_self
      (hkey b (List.mem_append_left _ hb) hqb)
  have hnone' : after.filter q = [] := List.filter_eq_nil_iff.mpr fun b hb hqb => by
    apply hafter
    rw [← hkey b (List.mem_append_right _ (List.mem_cons_of_mem a hb)) hqb]
    exact List.mem_map_of_mem hb
  rw [List.filter_append, hnone, List.nil_append, List.filter_cons_of_pos hq, hnone']

/-- A task has its own vertex, at its own place, if no two things are drawn under one reference. -/
theorem Graph.vertex_of_leads (h : ofTasks settings history tasks = .ok g)
    (hnodup : (Plan.ofTasks settings history tasks).references.Nodup) {path : TreePath}
    {s : List Task} {i : Nat} {u : Task} (hs : TreePath.Leads history path.segments tasks s)
    (hu : s[i]? = some u) : ∃ v, g.vertices.filter (·.task = u) = [v] ∧ v.parent = path ∧
      v.position = some i := by
  have hshows := ofTasks_shows h hnodup
  obtain ⟨sources, hmem⟩ := Plan.placement_of_leads (ofTasks_completes h) hs hu
  have hshown := Plan.mem_shown_of_position hnodup hmem nofun
  have hreferences : (g.vertices.map Vertex.reference).Nodup := by
    change g.references.Nodup
    rw [hshows.references_eq]
    exact hnodup.sublist (List.filter_sublist.map Placement.reference)
  refine ⟨Placement.toVertex ⟨u, path, some i, none, sources⟩ history,
    filter_eq_singleton Vertex.reference hreferences ?_ (decide_eq_true rfl) ?_, rfl, rfl⟩
  · rw [hshows.vertices]
    exact List.mem_map_of_mem hshown
  · intro v _ hv
    exact congrArg Task.reference (of_decide_eq_true hv)

end

namespace Diagram

variable {d : Diagram}

/-- What is drawn at a place is found there, so that no task is ever lost. -/
theorem locate_ne_lost (h : Graph.ofTasks d.settings d.history d.tasks = .ok d.graph)
    (hkeyed : Throughout Kind.Keyed d.tasks) (hends : Throughout (·.type ≠ .doWhileEnd) d.tasks)
    (r : String) : d.locate r ≠ .error (.lostSequence r) ∧ d.locate r ≠ .error (.lostSlot r) := by
  cases hv : d.graph.vertex? r with
  | none =>
    rw [locate, hv]
    exact ⟨nofun, nofun⟩
  | some v =>
    cases hi : v.position with
    | none =>
      rw [locate, hv]
      dsimp only
      rw [hi]
      exact ⟨nofun, nofun⟩
    | some i =>
      obtain ⟨s, u, hleads, hu, hdrawn⟩ :=
        Graph.recorded h hkeyed (List.mem_of_find?_eq_some hv) hi
      have hfound : d.locate r = .ok (⟨v.parent, i⟩, s, u) := by
        refine locate_of_vertex hv hi rfl hleads.follow? hu ?_
        exact (hdrawn.reportRef_eq (hends.of_leads hleads hu)).symm
      rw [hfound]
      exact ⟨nofun, nofun⟩

/-- **Places of vertices.** However a diagram was edited, a vertex with a place tells where its task
is in the tree as it is now, and so no task is looked for in vain. If no two things are drawn under
one reference, each task outside the bodies of loops that have run has one vertex, at its place. -/
theorem Reachable.places_live (hd : d.Reachable) (es : List Edit)
    (hkeyed : Throughout Kind.Keyed d.tasks) (hends : Throughout (·.type ≠ .doWhileEnd) d.tasks)
    (hsupplied : ∀ e ∈ es, Throughout Kind.Keyed e.supplied ∧
      Throughout (·.type ≠ .doWhileEnd) e.supplied) :
    (∀ v ∈ (d.performAll es).graph.vertices, ∀ i, v.position = some i →
      ∃ s u, v.parent.get? (d.performAll es).tasks = some s ∧ s[i]? = some u ∧
        u.reference = v.task.reportRef ∧ (v.task = u ∨
          (∃ condition body, u.kind = .loop condition body) ∧ v.task = u.loopEnd)) ∧
    (∀ r, (d.performAll es).locate r ≠ .error (.lostSequence r) ∧
      (d.performAll es).locate r ≠ .error (.lostSlot r)) ∧
    ((d.performAll es).plan.references.Nodup → ∀ path s i u,
      TreePath.Leads (d.performAll es).history path.segments (d.performAll es).tasks s →
      s[i]? = some u → ∃ v, (d.performAll es).graph.vertices.filter (·.task = u) = [v] ∧
        v.parent = path ∧ v.position = some i) := by
  have hgraph := (hd.performAll es).graph_eq
  have hkeyed' := throughout_performAll Kind.keyed_kept hkeyed fun e he => (hsupplied e he).1
  have hends' := throughout_performAll Kind.isNotLoopEnd_kept hends fun e he => (hsupplied e he).2
  refine ⟨fun v hv i hi => ?_, locate_ne_lost hgraph hkeyed' hends', ?_⟩
  · obtain ⟨s, u, hleads, hu, hdrawn⟩ := Graph.recorded hgraph hkeyed' hv hi
    have href := hdrawn.reportRef_eq (hends'.of_leads hleads hu)
    exact ⟨s, u, hleads.follow?, hu, href.symm, hdrawn⟩
  · exact fun hnodup path s i u hleads hu => Graph.vertex_of_leads hgraph hnodup hleads hu

end Diagram

/-- The task that was put into a branch of the fork has its vertex there, and the task in the loop
that has run has none. -/
theorem Diagram.Reachable.places_live_of_run :
    Diagram.ofRun Sample.loopedRun .standard = .ok Sample.loopedDiagram ∧
      (Sample.loopedDiagram.performAll Sample.mixedEdits).graph.vertices.filter
        (·.task = .ofRef "b" (.worker .simple)) = [] ∧
      (∃ v, (Sample.loopedDiagram.performAll Sample.mixedEdits).graph.vertices.filter
          (·.task = .ofRef "c" (.worker .simple)) = [v] ∧
        v.parent = ⟨[⟨0, .fork 0⟩]⟩ ∧ v.position = some 0) ∧
      ∀ r, (Sample.loopedDiagram.performAll Sample.mixedEdits).locate r ≠
        .error (.lostSequence r) := by
  have hd : Diagram.ofRun Sample.loopedRun .standard = .ok Sample.loopedDiagram :=
    Outcome.eq_ok_of_isOk (by decide +kernel) _
  have hread : Definition.ofDoc (Doc.ofJson Sample.loopedDiagram.definition.toJson) =
      .ok Sample.loopedDiagram.definition := by
    decide +kernel
  obtain ⟨-, hfound, hvertex⟩ := Diagram.Reachable.places_live (.ofRun hd) Sample.mixedEdits
    (Definition.keyed_of_ofDoc hread) (by decide +kernel) (by decide +kernel)
  have hfork : (Sample.loopedDiagram.performAll Sample.mixedEdits).tasks[0]? = some
      (.ofRef "f" (.fork [[.ofRef "c" (.worker .simple)],
        [.ofRef "simple_0" (.worker .simple)]])) := by
    decide +kernel
  exact ⟨hd, by decide +kernel, hvertex (by decide +kernel) ⟨[⟨0, .fork 0⟩]⟩ _ 0 _
    (.step hfork rfl rfl (.here _)) rfl, fun r => (hfound r).1⟩

end Flowchart

import Flowchart.Proofs.DrawingOrder
import Flowchart.Proofs.PathLanguage
import Flowchart.Proofs.VisibleTasks

/-!
# The exits of a task that branches

A fork or a switch is left towards the head of each branch. If a branch is empty, it is left towards
what follows it as well: the next task of its sequence, the bar of the loop that it is in, what
follows the task that it is in, or the final bubble. Each way of putting plans together keeps these
exits, or adds the one towards what follows.
-/

namespace Flowchart

/-- The bar that the plan of a loop ends with. -/
def Task.closing? (t : Task) : Option String :=
  match t.kind with
  | .loop _ _ => some (loopEndRef t.reference)
  | _ => none

theorem Task.closing?_of_branches {t : Task} (h : t.kind.branches ≠ []) : t.closing? = none := by
  unfold closing?
  split
  · next hk =>
    rw [hk] at h
    exact absurd rfl h
  · rfl

/-- A task among `tasks`, or inside one of them, is followed by `next` once all that is drawn for it
has been passed. If nothing is left of `tasks` then, there is no `next`. -/
inductive FollowedBy (history : History) : List Task → Task → Option String → Prop where
  | head (t : Task) (rest : List Task) : FollowedBy history (t :: rest) t (Switch.head? rest)
  | inside {t u : Task} {s rest : List Task} {next : Option String} :
      t.isRunLoop history = false → s ∈ t.kind.sequences → FollowedBy history s u next →
      FollowedBy history (t :: rest) u (next.or (t.closing?.or (Switch.head? rest)))
  | tail {t u : Task} {rest : List Task} {next : Option String} :
      FollowedBy history rest u next → FollowedBy history (t :: rest) u next

section

variable {history : History} {tasks : List Task} {u : Task}

private theorem exists_followedBy_of_forall
    (htasks : ∀ t ∈ tasks, u ∈ t.visible history → ∀ rest,
      ∃ next, FollowedBy history (t :: rest) u next)
    (hu : u ∈ visibleTasks history tasks) : ∃ next, FollowedBy history tasks u next := by
  induction tasks with
  | nil => cases hu
  | cons t rest ih =>
    obtain ⟨ht, hrest⟩ := List.forall_mem_cons.mp htasks
    rw [visibleTasks, List.flatMap_cons, List.mem_append] at hu
    rcases hu with hu | hu
    · exact ht hu rest
    · obtain ⟨next, hnext⟩ := ih hrest hu
      exact ⟨next, .tail hnext⟩

theorem Task.exists_followedBy (t : Task) (hu : u ∈ t.visible history) (rest : List Task) :
    ∃ next, FollowedBy history (t :: rest) u next := by
  induction t using Task.induction generalizing rest with
  | step t ih =>
    rw [visible_eq, List.mem_cons] at hu
    rcases hu with rfl | hu
    · exact ⟨_, .head u rest⟩
    cases hopen : t.isRunLoop history with
    | true =>
      rw [hopen] at hu
      cases hu
    | false =>
      rw [hopen] at hu
      obtain ⟨s, hs, hu⟩ := List.mem_flatMap.mp hu
      obtain ⟨next, hnext⟩ := exists_followedBy_of_forall (ih s hs) hu
      exact ⟨_, .inside hopen hs hnext⟩

/-- Each task that a walk comes to is followed by something, or is the last. -/
theorem exists_followedBy (hu : u ∈ visibleTasks history tasks) :
    ∃ next, FollowedBy history tasks u next :=
  exists_followedBy_of_forall (fun t _ => Task.exists_followedBy t) hu

end

namespace Plan

/-- The plan takes up nothing but its sources. -/
structure Rooted (p : Plan) (sources : List String) : Prop where
  link : ∀ u v, p.Links u v → u ∈ sources ∨ u ∈ p.references
  frontier : ∀ u ∈ p.frontier, u ∈ sources ∨ u ∈ p.references

/-- The plan goes on from its sources towards `entry`, or else leaves them as they are. -/
structure Enters (p : Plan) (sources : List String) (entry : Option String) : Prop where
  links : ∀ u v, u ∉ p.references → (p.Links u v ↔ u ∈ sources ∧ entry = some v)
  frontier : ∀ u, u ∉ p.references → (u ∈ p.frontier ↔ u ∈ sources ∧ entry = none)
  drawn : ∀ v, entry = some v → v ∈ p.references

/-- `r` is left towards the heads, and if it is open towards `next` too. Where there is no `next`,
that is left to what comes behind the plan. -/
structure Exits (p : Plan) (r : String) (heads : List String) (isOpen : Prop)
    (next : Option String) : Prop where
  drawn : r ∈ p.references
  links : ∀ v, p.Links r v ↔ v ∈ heads ∨ isOpen ∧ next = some v
  frontier : r ∈ p.frontier ↔ isOpen ∧ next = none
  heads_drawn : ∀ v ∈ heads, v ∈ p.references
  apart : ∀ v ∈ heads, next ≠ some v
  nodup : heads.Nodup

variable {p : Plan} {ps : List Plan} {sources : List String} {andNext : List String → Plan}

theorem Reads.rooted {L : Set Word} (h : p.Reads sources L) : p.Rooted sources :=
  ⟨h.link_source, h.frontier_source⟩

theorem rooted_nothing (sources : List String) : Rooted ⟨[], sources⟩ sources :=
  ⟨fun _ _ hlink => absurd hlink not_links_nothing, fun _ hu => Or.inl hu⟩

theorem rooted_vertex (placement : Placement) : (vertex placement).Rooted placement.sources :=
  ⟨fun _ _ hlink => Or.inl (links_vertex.mp hlink).1, fun _ hu => Or.inr hu⟩

theorem Rooted.andThen (hp : p.Rooted sources) (hq : (andNext p.frontier).Rooted p.frontier) :
    (p.andThen andNext).Rooted sources := by
  have hpass : ∀ u, u ∈ p.frontier ∨ u ∈ (andNext p.frontier).references →
      u ∈ sources ∨ u ∈ (p.andThen andNext).references := by
    intro u hu
    rw [references_andThen, List.mem_append, ← or_assoc]
    exact hu.imp_left (hp.frontier u)
  refine ⟨fun u v hlink => ?_, fun u hu => hpass u (hq.frontier u hu)⟩
  rcases links_andThen.mp hlink with hlink | hlink
  · rw [references_andThen, List.mem_append]
    exact (hp.link u v hlink).imp_right Or.inl
  · exact hpass u (hq.link u v hlink)

theorem Rooted.beside (h : ∀ p ∈ ps, p.Rooted sources) : (beside ps).Rooted sources := by
  constructor
  · intro u v hlink
    obtain ⟨p, hp, hlink⟩ := links_beside.mp hlink
    exact ((h p hp).link u v hlink).imp_right (mem_references_beside hp)
  · intro u hu
    obtain ⟨p, hp, hu⟩ := mem_frontier_beside.mp hu
    exact ((h p hp).frontier u hu).imp_right (mem_references_beside hp)

theorem enters_nothing (sources : List String) : Enters ⟨[], sources⟩ sources none where
  links := fun _ _ _ => iff_of_false not_links_nothing nofun
  frontier := fun _ _ => (and_iff_left rfl).symm
  drawn := nofun

theorem enters_vertex (placement : Placement) :
    (vertex placement).Enters placement.sources (some placement.reference) where
  links := by
    intro u v _
    rw [links_vertex, Option.some.injEq]
  frontier := by
    intro u hu
    exact iff_of_false hu fun h => nomatch h.2
  drawn := by
    rintro _ ⟨⟩
    exact List.mem_singleton_self _

/-- Where a plan draws something, what comes behind it does not matter. -/
theorem Enters.andThen {entry : String} (hp : p.Enters sources (some entry))
    (hq : (andNext p.frontier).Rooted p.frontier) :
    (p.andThen andNext).Enters sources (some entry) := by
  have hfirst : ∀ u, u ∉ p.references → u ∉ p.frontier := by
    intro u hu hfrontier
    exact nomatch ((hp.frontier u hu).mp hfrontier).2
  have houtside : ∀ u, u ∉ (p.andThen andNext).references →
      u ∉ p.references ∧ ¬ (u ∈ p.frontier ∨ u ∈ (andNext p.frontier).references) := by
    intro u hu
    rw [references_andThen, List.mem_append, not_or] at hu
    exact ⟨hu.1, not_or.mpr ⟨hfirst u hu.1, hu.2⟩⟩
  constructor
  · intro u v hu
    obtain ⟨hup, huq⟩ := houtside u hu
    rw [links_andThen, hp.links u v hup]
    exact or_iff_left fun hlink => huq (hq.link u v hlink)
  · intro u hu
    obtain ⟨hup, huq⟩ := houtside u hu
    exact iff_of_false (fun hmem => huq (hq.frontier u hmem)) fun h => nomatch h.2
  · intro v hv
    rw [references_andThen]
    exact List.mem_append_left _ (hp.drawn v hv)

/-! ### The ways out of a vertex

The exits of a vertex are settled piece by piece. Its heads are known as soon as its own branches
are planned, and `next` as soon as something is drawn behind it, if it is still open by then. What
is planned behind that, or beside it, draws no edge from it any more.
-/

section

variable {r : String} {heads : List String} {isOpen : Prop} {next entry : Option String}

/-- What comes behind a plan is what its open vertices lead to next. -/
theorem Exits.andThen (hclean : (p.andThen andNext).Clean sources)
    (h : p.Exits r heads isOpen next) (hq : (andNext p.frontier).Enters p.frontier entry) :
    (p.andThen andNext).Exits r heads isOpen (next.or entry) where
  drawn := by
    rw [references_andThen]
    exact List.mem_append_left _ h.drawn
  links := by
    intro v
    rw [links_andThen, h.links, hq.links r v (hclean.disjoint h.drawn), h.frontier]
    cases next with
    | none => simp
    | some n => simp
  frontier := by
    rw [frontier_andThen, hq.frontier r (hclean.disjoint h.drawn), h.frontier,
      Option.or_eq_none_iff, and_assoc]
  heads_drawn := by
    intro v hv
    rw [references_andThen]
    exact List.mem_append_left _ (h.heads_drawn v hv)
  apart := by
    intro v hv heq
    rcases Option.or_eq_some_iff.mp heq with hnext | ⟨-, hentry⟩
    · exact h.apart v hv hnext
    · exact hclean.disjoint (h.heads_drawn v hv) (hq.drawn v hentry)
  nodup := h.nodup

theorem exits_vertex {placement : Placement}
    (hclean : (vertex placement).Clean placement.sources) :
    (vertex placement).Exits placement.reference [] True none where
  drawn := List.mem_singleton_self _
  links := by
    intro v
    rw [links_vertex]
    refine iff_of_false (fun h => hclean.vertex_fresh h.1) ?_
    rintro (h | ⟨-, h⟩) <;> cases h
  frontier := iff_of_true (List.mem_singleton_self _) ⟨trivial, rfl⟩
  heads_drawn := nofun
  apart := nofun
  nodup := List.nodup_nil

theorem Exits.behind (hclean : (p.andThen andNext).Clean sources) (hp : p.Rooted sources)
    (h : (andNext p.frontier).Exits r heads isOpen next) :
    (p.andThen andNext).Exits r heads isOpen next where
  drawn := by
    rw [references_andThen]
    exact List.mem_append_right _ h.drawn
  links := by
    intro v
    rw [links_andThen, ← h.links]
    exact or_iff_right fun hlink => hclean.not_mem_next (hp.link r v hlink) h.drawn
  frontier := h.frontier
  heads_drawn := by
    intro v hv
    rw [references_andThen]
    exact List.mem_append_right _ (h.heads_drawn v hv)
  apart := h.apart
  nodup := h.nodup

theorem Exits.beside (hclean : (beside ps).Clean sources) (hps : ∀ p ∈ ps, p.Rooted sources)
    (hp : p ∈ ps) (h : p.Exits r heads isOpen next) : (beside ps).Exits r heads isOpen next where
  drawn := mem_references_beside hp h.drawn
  links := by
    intro v
    rw [links_beside, ← h.links]
    refine ⟨fun ⟨q, hq, hlink⟩ => ?_, fun hlink => ⟨p, hp, hlink⟩⟩
    exact hclean.eq_of_touches hp h.drawn hq ((hps q hq).link r v hlink) ▸ hlink
  frontier := by
    rw [mem_frontier_beside, ← h.frontier]
    refine ⟨fun ⟨q, hq, hmem⟩ => ?_, fun hmem => ⟨p, hp, hmem⟩⟩
    exact hclean.eq_of_touches hp h.drawn hq ((hps q hq).frontier r hmem) ▸ hmem
  heads_drawn := fun v hv => mem_references_beside hp (h.heads_drawn v hv)
  apart := h.apart
  nodup := h.nodup

end

end Plan

section

variable {settings : Settings} {history : History} {path : TreePath} {position : Nat}
  {sources : List String} {tasks : List Task} {t u : Task} {next : Option String}

theorem planTasks_rooted (hh : history.Filed)
    (hclean : (planTasks settings history path position tasks sources).Clean sources) :
    (planTasks settings history path position tasks sources).Rooted sources :=
  (Task.planTasks_reads (fun t _ => t.plan_reads hh) hclean).rooted

/-- The plan of a task draws the task first, and what is behind it takes up nothing else. -/
theorem Task.plan_opens (hh : history.Filed)
    (hclean : (t.plan settings history path position sources).Clean sources) :
    ∃ andNext, t.plan settings history path position sources =
        (Plan.vertex ⟨t, path, some position, none, sources⟩).andThen andNext ∧
      (andNext [t.reference]).Rooted [t.reference] := by
  have hplanned := t.planned hclean.completes
  generalize t.plan settings history path position sources = p at hclean hplanned ⊢
  cases hplanned with
  | single _ _ => exact ⟨fun sources => ⟨[], sources⟩, rfl, Plan.rooted_nothing _⟩
  | final _ =>
    exact ⟨fun _ => ⟨[], []⟩, rfl, fun _ _ hlink => absurd hlink Plan.not_links_nothing, nofun⟩
  | branches hne =>
    have hinner := hclean.right (Plan.reads_vertex hclean.left.vertex_fresh)
    refine ⟨_, rfl, Plan.Rooted.beside fun p hp => ?_⟩
    have hbranch := hinner.of_mem hp
    obtain ⟨branch, -, rfl⟩ := List.mem_map.mp hp
    exact planTasks_rooted hh hbranch
  | forked _ =>
    have hinner := hclean.right (Plan.reads_vertex hclean.left.vertex_fresh)
    exact ⟨_, rfl, (planForked_reads hh hinner).rooted⟩
  | body _ _ =>
    have hinner := hclean.right (Plan.reads_vertex hclean.left.vertex_fresh)
    exact ⟨_, rfl, (planTasks_rooted hh hinner.left).andThen (Plan.rooted_vertex _)⟩
  | iterations _ _ =>
    have hinner := hclean.right (Plan.reads_vertex hclean.left.vertex_fresh)
    exact ⟨_, rfl, (planIterations_reads hinner).rooted⟩

theorem Task.plan_enters (hh : history.Filed)
    (hclean : (t.plan settings history path position sources).Clean sources) :
    (t.plan settings history path position sources).Enters sources (some t.reference) := by
  obtain ⟨andNext, heq, hroot⟩ := Task.plan_opens hh hclean
  rw [heq]
  exact (Plan.enters_vertex _).andThen hroot

theorem planTasks_enters (hh : history.Filed)
    (hclean : (planTasks settings history path position tasks sources).Clean sources) :
    (planTasks settings history path position tasks sources).Enters sources
      (Switch.head? tasks) := by
  cases tasks with
  | nil => exact Plan.enters_nothing sources
  | cons t rest =>
    rw [planTasks_cons] at hclean ⊢
    exact (Task.plan_enters hh hclean.left).andThen
      (planTasks_rooted hh (hclean.right (t.plan_reads hh _ _ _ hclean.left)))

/-- The heads of the branches of a task. -/
def Kind.heads (k : Kind (List Task)) : List String := k.sequences.filterMap Switch.head?

theorem Kind.mem_heads {k : Kind (List Task)} {v : String} :
    v ∈ k.heads ↔ ∃ s ∈ k.sequences, Switch.head? s = some v := List.mem_filterMap

theorem Kind.branches_of_switch {k : Kind (List Task)} {form : SwitchForm}
    {s : Switch (List Task)} (hk : k = .switch form s) : k.branches ≠ [] := by
  rw [hk]
  exact List.cons_ne_nil _ _

theorem Kind.heads_of_switch {k : Kind (List Task)} {form : SwitchForm} {s : Switch (List Task)}
    (hk : k = .switch form s) : k.heads = s.openings := by
  rw [hk]
  rfl

theorem Kind.nil_mem_sequences {k : Kind (List Task)} :
    [] ∈ k.sequences ↔ ∃ s ∈ k.sequences, Switch.head? s = none := by
  simp only [Switch.head?_eq_none, exists_eq_right]

private theorem filterMap_sublist_flatMap {α β : Type} {f : α → Option β} {g : α → List β}
    {as : List α} (h : ∀ a ∈ as, ∀ b, f a = some b → b ∈ g a) :
    (as.filterMap f).Sublist (as.flatMap g) := by
  induction as with
  | nil => exact .slnil
  | cons a rest ih =>
    obtain ⟨ha, hrest⟩ := List.forall_mem_cons.mp h
    rw [List.flatMap_cons]
    cases hf : f a with
    | none =>
      rw [List.filterMap_cons_none hf]
      exact (ih hrest).trans (List.sublist_append_right _ _)
    | some b =>
      rw [List.filterMap_cons_some hf]
      exact (List.singleton_sublist.mpr (ha b hf)).append (ih hrest)

/-- A task that branches is left towards the heads of its branches, and is open if one of them is
empty. -/
theorem Task.plan_exits (hh : history.Filed) (hne : t.kind.branches ≠ [])
    (hclean : (t.plan settings history path position sources).Clean sources) :
    (t.plan settings history path position sources).Exits t.reference t.kind.heads
      ([] ∈ t.kind.sequences) none := by
  rw [plan_of_branches hne] at hclean ⊢
  have hfresh := hclean.left.vertex_fresh
  have hinner := hclean.right (Plan.reads_vertex hfresh)
  have hbranch : ∀ branch ∈ t.kind.branches,
      (planTasks settings history (path.child position branch.1) 0 branch.2
        [t.reference]).Enters [t.reference] (Switch.head? branch.2) := fun branch hmem =>
    planTasks_enters hh (hinner.of_mem (List.mem_map_of_mem hmem))
  have hapart : ∀ branch ∈ t.kind.branches,
      t.reference ∉ (planTasks settings history (path.child position branch.1) 0 branch.2
        [t.reference]).references := fun branch hmem =>
    (hinner.of_mem (List.mem_map_of_mem hmem)).fresh _ (List.mem_singleton_self _)
  have hsequences : t.kind.sequences = t.kind.branches.map (·.2) := Kind.sequences_eq_branches hne
  have hheads : t.kind.heads = t.kind.branches.filterMap fun branch => Switch.head? branch.2 := by
    rw [Kind.heads, hsequences, List.filterMap_map]
    rfl
  have hsublist : t.kind.heads.Sublist (t.kind.branches.flatMap fun branch =>
      (planTasks settings history (path.child position branch.1) 0 branch.2
        [t.reference]).references) := by
    rw [hheads]
    exact filterMap_sublist_flatMap fun branch hmem => (hbranch branch hmem).drawn
  constructor
  · rw [Plan.references_andThen]
    exact List.mem_append_left _ (List.mem_singleton_self _)
  · intro v
    rw [Plan.links_andThen, Plan.links_vertex, Plan.links_beside, hheads, List.mem_filterMap]
    constructor
    · rintro (⟨hsource, -⟩ | ⟨p, hp, hlink⟩)
      · exact absurd hsource hfresh
      · obtain ⟨branch, hmem, rfl⟩ := List.mem_map.mp hp
        have hhead := ((hbranch branch hmem).links _ v (hapart branch hmem)).mp hlink
        exact Or.inl ⟨branch, hmem, hhead.2⟩
    · rintro (⟨branch, hmem, hhead⟩ | ⟨-, hnone⟩)
      · exact Or.inr ⟨_, List.mem_map_of_mem hmem,
          ((hbranch branch hmem).links _ v (hapart branch hmem)).mpr
            ⟨List.mem_singleton_self _, hhead⟩⟩
      · cases hnone
  · rw [Plan.frontier_andThen, Plan.mem_frontier_beside, and_iff_left rfl, Kind.nil_mem_sequences,
      hsequences]
    constructor
    · rintro ⟨p, hp, hfrontier⟩
      obtain ⟨branch, hmem, rfl⟩ := List.mem_map.mp hp
      have hhead := ((hbranch branch hmem).frontier _ (hapart branch hmem)).mp hfrontier
      exact ⟨branch.2, List.mem_map_of_mem hmem, hhead.2⟩
    · rintro ⟨s, hs, hhead⟩
      obtain ⟨branch, hmem, rfl⟩ := List.mem_map.mp hs
      exact ⟨_, List.mem_map_of_mem hmem,
        ((hbranch branch hmem).frontier _ (hapart branch hmem)).mpr
          ⟨List.mem_singleton_self _, hhead⟩⟩
  · intro v hv
    rw [Plan.references_andThen, Plan.references_beside, List.flatMap_map]
    exact List.mem_append_right _ (hsublist.subset hv)
  · exact nofun
  · have hnodup := hinner.nodup
    rw [Plan.references_beside, List.flatMap_map] at hnodup
    exact hsublist.nodup hnodup

/-- The one vertex that a task is left by, if there is just one: the task itself, or the bar of a
loop. -/
def Task.exit? (t : Task) : Option String :=
  if t.kind.isSingle then some t.reference else t.closing?

theorem Task.exit?_cases {e : String} (h : t.exit? = some e) :
    t.kind.isSingle = true ∧ e = t.reference ∨
      ∃ condition body, t.kind = .loop condition body ∧ e = loopEndRef t.reference := by
  unfold exit? closing? at h
  split at h
  · next hsingle => exact Or.inl ⟨hsingle, (Option.some.inj h).symm⟩
  · split at h
    · next hk => exact Or.inr ⟨_, _, hk, (Option.some.inj h).symm⟩
    · cases h

/-- A task that is left by one vertex is left towards what follows it. -/
theorem Task.plan_exits_of_exit? (hh : history.Filed) {e : String} (he : t.exit? = some e)
    (hopen : t.isRunLoop history = false)
    (hclean : (t.plan settings history path position sources).Clean sources) :
    (t.plan settings history path position sources).Exits e [] True none := by
  rcases exit?_cases he with ⟨hsingle, rfl⟩ | ⟨condition, body, hk, rfl⟩
  · rw [plan_of_single hsingle] at hclean ⊢
    exact Plan.exits_vertex hclean
  · have hplanned := t.planned hclean.completes
    generalize t.plan settings history path position sources = p at hclean hplanned ⊢
    cases hplanned with
    | single hsingle =>
      rw [hk] at hsingle
      cases hsingle
    | final hk' | forked hk' => exact absurd (hk.symm.trans hk') nofun
    | branches hne =>
      rw [hk] at hne
      exact absurd rfl hne
    | iterations hk' hlatest =>
      rw [isRunLoop_of_loop hk, History.latest?_eq_of_latestOfTask hlatest] at hopen
      cases hopen
    | body _ _ =>
      have hinner := hclean.right (Plan.reads_vertex hclean.left.vertex_fresh)
      have hbody := Task.planTasks_reads (fun t _ => t.plan_reads hh) hinner.left
      exact Plan.Exits.behind hclean (Plan.rooted_vertex _)
        (Plan.Exits.behind hinner hbody.rooted (Plan.exits_vertex (hinner.right hbody)))

/-- The exits from inside a sequence are those from inside the task that it belongs to. Only the bar
of a loop is still to come there. -/
theorem Task.plan_exits_inside (hh : history.Filed) {s : List Task} {r : String}
    {heads : List String} {isOpen : Prop} (hopen : t.isRunLoop history = false)
    (hs : s ∈ t.kind.sequences)
    (hinside : ∀ path position sources,
      (planTasks settings history path position s sources).Clean sources →
        (planTasks settings history path position s sources).Exits r heads isOpen next)
    (hclean : (t.plan settings history path position sources).Clean sources) :
    (t.plan settings history path position sources).Exits r heads isOpen
      (next.or t.closing?) := by
  have hplanned := t.planned hclean.completes
  generalize t.plan settings history path position sources = p at hclean hplanned ⊢
  cases hplanned with
  | single _ hnone =>
    rw [hnone] at hs
    cases hs
  | final hk =>
    rw [hk] at hs
    cases hs
  | forked hk =>
    rw [hk] at hs
    cases hs
  | branches hne =>
    have hinner := hclean.right (Plan.reads_vertex hclean.left.vertex_fresh)
    rw [Kind.sequences_eq_branches hne] at hs
    obtain ⟨branch, hmem, rfl⟩ := List.mem_map.mp hs
    have hroot : ∀ p ∈ t.kind.branches.map fun branch =>
        planTasks settings history (path.child position branch.1) 0 branch.2 [t.reference],
          p.Rooted [t.reference] := by
      intro p hp
      have hbranch := hinner.of_mem hp
      obtain ⟨branch, -, rfl⟩ := List.mem_map.mp hp
      exact planTasks_rooted hh hbranch
    have hplan := List.mem_map_of_mem (f := fun branch =>
      planTasks settings history (path.child position branch.1) 0 branch.2 [t.reference]) hmem
    rw [closing?_of_branches hne, Option.or_none]
    exact Plan.Exits.behind hclean (Plan.rooted_vertex _)
      (Plan.Exits.beside hinner hroot hplan (hinside _ _ _ (hinner.of_mem hplan)))
  | body hk _ =>
    have hinner := hclean.right (Plan.reads_vertex hclean.left.vertex_fresh)
    have hclosing : t.closing? = some (loopEndRef t.reference) := by rw [closing?, hk]
    rw [hk] at hs
    obtain rfl := List.mem_singleton.mp hs
    rw [hclosing]
    exact Plan.Exits.behind hclean (Plan.rooted_vertex _)
      ((hinside _ _ _ hinner.left).andThen hinner (Plan.enters_vertex _))
  | iterations hk hlatest =>
    rw [isRunLoop_of_loop hk, History.latest?_eq_of_latestOfTask hlatest] at hopen
    cases hopen

/-- The exits of a task lead on towards what follows the task, wherever in the tree that is. -/
theorem planTasks_exits (hh : history.Filed) {r : String} {heads : List String} {isOpen : Prop}
    (hfollowed : FollowedBy history tasks u next)
    (hself : ∀ path position sources,
      (u.plan settings history path position sources).Clean sources →
      (u.plan settings history path position sources).Exits r heads isOpen none) :
    ∀ path position sources,
      (planTasks settings history path position tasks sources).Clean sources →
      (planTasks settings history path position tasks sources).Exits r heads isOpen next := by
  induction hfollowed with
  | head t rest =>
    intro path position sources hclean
    rw [planTasks_cons] at hclean ⊢
    exact (hself _ _ _ hclean.left).andThen hclean
      (planTasks_enters hh (hclean.right (t.plan_reads hh _ _ _ hclean.left)))
  | tail _ ih =>
    intro path position sources hclean
    rw [planTasks_cons] at hclean ⊢
    have hfirst := Task.plan_reads hh _ _ _ _ hclean.left
    exact (ih hself _ _ _ (hclean.right hfirst)).behind hclean hfirst.rooted
  | @inside t u s rest next hopen hs _ ih =>
    intro path position sources hclean
    rw [planTasks_cons] at hclean ⊢
    have hrest := planTasks_enters hh (hclean.right (t.plan_reads hh _ _ _ hclean.left))
    rw [← Option.or_assoc]
    exact (Task.plan_exits_inside hh hopen hs (ih hself) hclean.left).andThen hclean hrest

/-- The plan of a diagram runs through and draws each reference once. -/
theorem Plan.ofTasks_clean (hcompletes : (Plan.ofTasks settings history tasks).Completes)
    (hnodup : (Plan.ofTasks settings history tasks).references.Nodup) :
    (Plan.ofTasks settings history tasks).Clean [] :=
  ⟨hcompletes, hnodup, fun _ hs => absurd hs List.not_mem_nil⟩

/-- What nothing follows is followed by the final bubble. -/
theorem Plan.ofTasks_exits (hh : history.Filed) {r : String} {heads : List String} {isOpen : Prop}
    (hclean : (Plan.ofTasks settings history tasks).Clean [])
    (hfollowed : FollowedBy history tasks u next)
    (hself : ∀ path position sources,
      (u.plan settings history path position sources).Clean sources →
      (u.plan settings history path position sources).Exits r heads isOpen none) :
    (Plan.ofTasks settings history tasks).Exits r heads isOpen (some (next.getD finalBubble)) := by
  rw [Plan.ofTasks_eq] at hclean ⊢
  have hinner := hclean.right (Plan.reads_vertex hclean.left.vertex_fresh)
  have htasks := planTasks_exits hh hfollowed hself _ _ _ hinner.left
  have hnext : some (next.getD finalBubble) = next.or (some finalBubble) := by
    cases next <;> rfl
  rw [hnext]
  exact Plan.Exits.behind hclean (Plan.rooted_vertex _)
    (htasks.andThen hinner (Plan.enters_vertex _))

/-- The start bubble is left towards the first task, or the final bubble if there is none. -/
theorem Plan.ofTasks_exits_start (hh : history.Filed)
    (hclean : (Plan.ofTasks settings history tasks).Clean []) :
    (Plan.ofTasks settings history tasks).Exits startBubble [] True
      (some ((Switch.head? tasks).getD finalBubble)) := by
  rw [Plan.ofTasks_eq] at hclean ⊢
  have hstart := Plan.exits_vertex hclean.left
  refine hstart.andThen hclean ?_
  have hinner := hclean.right (Plan.reads_vertex hclean.left.vertex_fresh)
  cases tasks with
  | nil => exact Plan.enters_vertex _
  | cons t rest => exact (planTasks_enters hh hinner.left).andThen (Plan.rooted_vertex _)

end

/-- Edges that join the same two vertices are one edge. -/
theorem Graph.countP_edges_le_one {settings : Settings} {history : History} {tasks : List Task}
    {g : Graph} (hg : Graph.ofTasks settings history tasks = .ok g) {p : Edge → Bool}
    (ends : String × String) (h : ∀ e ∈ g.edges, p e = true → e.ends = ends) :
    g.edges.countP p ≤ 1 := by
  calc
    g.edges.countP p ≤ g.edges.countP fun e => e.ends == ends :=
      List.countP_mono_left fun e he hp => beq_iff_eq.mpr (h e he hp)
    _ = (g.edges.map Edge.ends).count ends := by
      rw [List.count, List.countP_map]
      rfl
    _ ≤ 1 := List.nodup_iff_count_le_one.mp (ofTasks_ends hg) ends

/-- **Exits.** The edges out of a task that branches lead to the heads of its branches, which are
all different, and if one of them is empty to what follows the task, which is none of the heads. -/
theorem Graph.exits {settings : Settings} {history : History} {tasks : List Task} {g : Graph}
    {t : Task} (hh : history.Filed) (hg : Graph.ofTasks settings history tasks = .ok g)
    (hnodup : (Plan.ofTasks settings history tasks).references.Nodup)
    (ht : t ∈ visibleTasks history tasks) (hne : t.kind.branches ≠ []) :
    ∃ next, FollowedBy history tasks t next ∧ next.getD finalBubble ∉ t.kind.heads ∧
      t.kind.heads.Nodup ∧ ∀ v, g.Joins t.reference v ↔
        v ∈ t.kind.heads ∨ [] ∈ t.kind.sequences ∧ v = next.getD finalBubble := by
  obtain ⟨next, hfollowed⟩ := exists_followedBy ht
  have hexits := Plan.ofTasks_exits hh (Plan.ofTasks_clean (ofTasks_completes hg) hnodup)
    hfollowed fun _ _ _ => Task.plan_exits hh hne
  refine ⟨next, hfollowed, fun hmem => hexits.apart _ hmem rfl, hexits.nodup, fun v => ?_⟩
  rw [← (ofTasks_shows hg hnodup).mem_successors, mem_successors_iff hg hnodup, hexits.links,
    Option.some.injEq, eq_comm (a := v)]

end Flowchart

import Flowchart.Proofs.Placements
import Flowchart.Proofs.Words
import Mathlib.Data.List.Pairwise

/-!
# Reading words off a plan

A plan reads a language if the routes from its sources to its frontier give the words that are still
open, and the routes from its sources to where nothing goes on give the words that have ended. This
is kept when plans are put one after the other or beside each other, as long as no reference is
drawn twice. Then the plan of a task reads the words of the task, by induction on the tree.
-/

namespace Flowchart

namespace Plan

/-- The plan runs through and draws each reference once, and none of the sources. -/
structure Clean (p : Plan) (sources : List String) : Prop where
  completes : p.Completes
  nodup : p.references.Nodup
  fresh : ∀ s ∈ sources, s ∉ p.references

/-- A vertex of the plan that nothing comes after, in the plan or behind it. -/
def DeadEnd (p : Plan) (v : String) : Prop :=
  v ∈ p.references ∧ v ∉ p.frontier ∧ ∀ x, ¬ p.Links v x

/-- The ways through the plan from its sources are the words of `L`. -/
structure Reads (p : Plan) (sources : List String) (L : Set Word) : Prop where
  link_source : ∀ u v, p.Links u v → u ∈ sources ∨ u ∈ p.references
  frontier_source : ∀ u ∈ p.frontier, u ∈ sources ∨ u ∈ p.references
  goes_on : ∀ s ∈ sources, s ∈ p.frontier ∨ ∃ v, p.Links s v
  passes : ∀ s ∈ sources, ∀ w, ⟨w, false⟩ ∈ L ↔ ∃ v ∈ p.frontier, Route p.Links s w v
  ends : ∀ s ∈ sources, ∀ w, ⟨w, true⟩ ∈ L ↔ ∃ v, p.DeadEnd v ∧ Route p.Links s w v

variable {p : Plan} {next : List String → Plan} {ps : List Plan} {sources : List String}
  {L M : Set Word} {u v s : String} {w : List String}

/-- A route from a source stays at the source or ends at a vertex of the plan. -/
theorem target_of_route (h : Route p.Links s w v) :
    w = [] ∧ s = v ∨ w ≠ [] ∧ v ∈ p.references :=
  h.target_mem (T := {v | v ∈ p.references}) fun _ _ hlink => hlink.mem_references

section

variable {placement : Placement} (hfresh : placement.reference ∉ placement.sources)

include hfresh

theorem route_vertex_iff (hs : s ∈ placement.sources) :
    Route (vertex placement).Links s w v ↔
      w = [] ∧ s = v ∨ w = [placement.reference] ∧ placement.reference = v := by
  constructor
  · intro h
    cases h with
    | stay => exact Or.inl ⟨rfl, rfl⟩
    | step hab hrest =>
      obtain ⟨-, rfl⟩ := links_vertex.mp hab
      cases hrest with
      | stay => exact Or.inr ⟨rfl, rfl⟩
      | step hbc _ => exact absurd (links_vertex.mp hbc).1 hfresh
  · rintro (⟨rfl, rfl⟩ | ⟨rfl, rfl⟩)
    · exact Route.stay s
    · exact Route.single (links_vertex.mpr ⟨hs, rfl⟩)

theorem reads_vertex :
    (vertex placement).Reads placement.sources (Word.one placement.reference) where
  link_source := fun u v hlink => Or.inl (links_vertex.mp hlink).1
  frontier_source := fun u hu => Or.inr hu
  goes_on := fun s hs => Or.inr ⟨_, links_vertex.mpr ⟨hs, rfl⟩⟩
  passes := by
    intro s hs w
    have hne : s ≠ placement.reference := fun heq => hfresh (heq ▸ hs)
    simp only [route_vertex_iff hfresh hs, frontier_vertex, List.mem_singleton, Word.one,
      Set.mem_singleton_iff, Word.mk.injEq]
    constructor
    · rintro ⟨rfl, -⟩
      exact ⟨_, rfl, Or.inr ⟨rfl, rfl⟩⟩
    · rintro ⟨v, rfl, ⟨-, heq⟩ | ⟨rfl, -⟩⟩
      · exact absurd heq hne
      · exact ⟨rfl, trivial⟩
  ends := by
    intro s hs w
    constructor
    · intro hw
      simp [Word.one] at hw
    · rintro ⟨v, ⟨hv, hopen, -⟩, -⟩
      exact absurd hv hopen

theorem reads_final : Reads { vertex placement with frontier := [] } placement.sources
    (Word.final placement.reference) where
  link_source := fun u v hlink => Or.inl (links_vertex.mp hlink).1
  frontier_source := fun u hu => absurd hu List.not_mem_nil
  goes_on := fun s hs => Or.inr ⟨placement.reference, links_vertex.mpr ⟨hs, rfl⟩⟩
  passes := by
    intro s hs w
    simp [Word.final]
  ends := by
    intro s hs w
    have hne : s ≠ placement.reference := fun heq => hfresh (heq ▸ hs)
    simp only [Word.final, Set.mem_singleton_iff, Word.mk.injEq, and_true]
    constructor
    · rintro rfl
      refine ⟨placement.reference, ⟨List.mem_singleton_self _, List.not_mem_nil, ?_⟩, ?_⟩
      · intro x hlink
        exact hfresh (links_vertex.mp hlink).1
      · exact (route_vertex_iff hfresh hs).mpr (Or.inr ⟨rfl, rfl⟩)
    · rintro ⟨v, ⟨hv, -⟩, hroute⟩
      have heq : v = placement.reference := List.mem_singleton.mp hv
      rcases (route_vertex_iff hfresh hs).mp hroute with ⟨-, rfl⟩ | ⟨rfl, -⟩
      · exact absurd heq hne
      · rfl

end

theorem reads_nothing (sources : List String) :
    Reads ⟨[], sources⟩ sources Word.nothing where
  link_source := fun u v hlink => absurd hlink not_links_nothing
  frontier_source := fun u hu => Or.inl hu
  goes_on := fun s hs => Or.inl hs
  passes := by
    intro s hs w
    simp only [Word.nothing, Set.mem_singleton_iff, Word.mk.injEq, and_true]
    constructor
    · rintro rfl
      exact ⟨s, hs, Route.stay s⟩
    · rintro ⟨v, -, hroute⟩
      cases hroute with
      | stay => rfl
      | step hab _ => exact absurd hab not_links_nothing
  ends := by
    intro s hs w
    constructor
    · intro hw
      simp [Word.nothing] at hw
    · rintro ⟨v, ⟨hv, -⟩, -⟩
      exact absurd hv List.not_mem_nil

theorem Clean.left (h : (p.andThen next).Clean sources) : p.Clean sources where
  completes := (completes_andThen.mp h.completes).1
  nodup := by
    have hnodup := h.nodup
    rw [references_andThen] at hnodup
    exact hnodup.of_append_left
  fresh := by
    intro s hs hmem
    apply h.fresh s hs
    rw [references_andThen]
    exact List.mem_append_left _ hmem

theorem route_andThen_left (h : Route p.Links u w v) : Route (p.andThen next).Links u w v :=
  h.mono fun _ _ hlink => links_andThen.mpr (Or.inl hlink)

theorem route_andThen_right (h : Route (next p.frontier).Links u w v) :
    Route (p.andThen next).Links u w v :=
  h.mono fun _ _ hlink => links_andThen.mpr (Or.inr hlink)

/-- What the second plan takes up at a vertex outside it, it takes up at the frontier of the
first. -/
theorem Reads.taken_up (hq : (next p.frontier).Reads p.frontier M)
    (hv : v ∉ (next p.frontier).references)
    (h : v ∈ (next p.frontier).frontier ∨ ∃ x, (next p.frontier).Links v x) : v ∈ p.frontier := by
  rcases h with hfrontier | ⟨x, hlink⟩
  · exact (hq.frontier_source v hfrontier).resolve_right hv
  · exact (hq.link_source v x hlink).resolve_right hv

section

variable (hclean : (p.andThen next).Clean sources)

include hclean

theorem Clean.disjoint (hv : v ∈ p.references) : v ∉ (next p.frontier).references := by
  have hnodup := hclean.nodup
  rw [references_andThen] at hnodup
  exact fun hmem => List.disjoint_of_nodup_append hnodup hv hmem

theorem Clean.not_mem_next (hv : v ∈ sources ∨ v ∈ p.references) :
    v ∉ (next p.frontier).references := by
  rcases hv with hv | hv
  · intro hmem
    apply hclean.fresh v hv
    rw [references_andThen]
    exact List.mem_append_right _ hmem
  · exact hclean.disjoint hv

theorem Clean.right (hp : p.Reads sources L) : (next p.frontier).Clean p.frontier where
  completes := (completes_andThen.mp hclean.completes).2
  nodup := by
    have hnodup := hclean.nodup
    rw [references_andThen] at hnodup
    exact hnodup.of_append_right
  fresh := fun u hu => hclean.not_mem_next (hp.frontier_source u hu)

/-- A route through both plans changes over once, at a vertex that is not in the second. -/
theorem route_andThen_split (hp : p.Reads sources L) (hs : s ∈ sources)
    (h : Route (p.andThen next).Links s w v) :
    ∃ w₁ w₂ m, w = w₁ ++ w₂ ∧ Route p.Links s w₁ m ∧ Route (next p.frontier).Links m w₂ v ∧
      m ∉ (next p.frontier).references := by
  have hunion : Route (fun a b => p.Links a b ∨ (next p.frontier).Links a b) s w v :=
    h.mono fun _ _ => links_andThen.mp
  obtain ⟨w₁, w₂, m, rfl, hfirst, hsecond⟩ :=
    hunion.split (T := {v | v ∈ (next p.frontier).references})
      (fun a b hab => hclean.not_mem_next (hp.link_source a b hab))
      (fun a b hab => hab.mem_references)
  refine ⟨w₁, w₂, m, rfl, hfirst, hsecond, ?_⟩
  rcases target_of_route hfirst with ⟨-, rfl⟩ | ⟨-, hm⟩
  · exact hclean.not_mem_next (Or.inl hs)
  · exact hclean.disjoint hm

theorem deadEnd_andThen (hp : p.Reads sources L) (hq : (next p.frontier).Reads p.frontier M) :
    (p.andThen next).DeadEnd v ↔ p.DeadEnd v ∨ (next p.frontier).DeadEnd v := by
  rw [DeadEnd, references_andThen, frontier_andThen, List.mem_append]
  constructor
  · rintro ⟨hv | hv, hopen, hlast⟩
    · refine Or.inl ⟨hv, fun hfrontier => ?_, fun x hlink => ?_⟩
      · rcases hq.goes_on v hfrontier with hmem | ⟨x, hlink⟩
        · exact hopen hmem
        · exact hlast x (links_andThen.mpr (Or.inr hlink))
      · exact hlast x (links_andThen.mpr (Or.inl hlink))
    · exact Or.inr ⟨hv, hopen, fun x hlink => hlast x (links_andThen.mpr (Or.inr hlink))⟩
  · rintro (⟨hv, hopen, hlast⟩ | ⟨hv, hopen, hlast⟩)
    · have hv' := hclean.disjoint hv
      refine ⟨Or.inl hv, fun hmem => hopen (hq.taken_up hv' (Or.inl hmem)), fun x hlink => ?_⟩
      rcases links_andThen.mp hlink with hlink | hlink
      · exact hlast x hlink
      · exact hopen (hq.taken_up hv' (Or.inr ⟨x, hlink⟩))
    · refine ⟨Or.inr hv, hopen, fun x hlink => ?_⟩
      rcases links_andThen.mp hlink with hlink | hlink
      · exact hclean.not_mem_next (hp.link_source v x hlink) hv
      · exact hlast x hlink

theorem passes_andThen (hp : p.Reads sources L) (hq : (next p.frontier).Reads p.frontier M)
    (hs : s ∈ sources) : ⟨w, false⟩ ∈ Word.andThen L M ↔
      ∃ v ∈ (p.andThen next).frontier, Route (p.andThen next).Links s w v := by
  rw [Word.mem_andThen_open]
  constructor
  · rintro ⟨w₁, w₂, rfl, hw₁, hw₂⟩
    obtain ⟨m, hm, hfirst⟩ := (hp.passes s hs w₁).mp hw₁
    obtain ⟨v, hv, hsecond⟩ := (hq.passes m hm w₂).mp hw₂
    exact ⟨v, hv, (route_andThen_left hfirst).append (route_andThen_right hsecond)⟩
  · rintro ⟨v, hv, hroute⟩
    obtain ⟨w₁, w₂, m, rfl, hfirst, hsecond, hm⟩ := route_andThen_split hclean hp hs hroute
    have hfrontier : m ∈ p.frontier := by
      apply hq.taken_up hm
      cases hsecond with
      | stay => exact Or.inl hv
      | step hab _ => exact Or.inr ⟨_, hab⟩
    exact ⟨w₁, w₂, rfl, (hp.passes s hs w₁).mpr ⟨m, hfrontier, hfirst⟩,
      (hq.passes m hfrontier w₂).mpr ⟨v, hv, hsecond⟩⟩

theorem ends_andThen (hp : p.Reads sources L) (hq : (next p.frontier).Reads p.frontier M)
    (hs : s ∈ sources) : ⟨w, true⟩ ∈ Word.andThen L M ↔
      ∃ v, (p.andThen next).DeadEnd v ∧ Route (p.andThen next).Links s w v := by
  rw [Word.mem_andThen_ended]
  constructor
  · rintro (hw | ⟨w₁, w₂, rfl, hw₁, hw₂⟩)
    · obtain ⟨v, hv, hroute⟩ := (hp.ends s hs w).mp hw
      exact ⟨v, (deadEnd_andThen hclean hp hq).mpr (Or.inl hv), route_andThen_left hroute⟩
    · obtain ⟨m, hm, hfirst⟩ := (hp.passes s hs w₁).mp hw₁
      obtain ⟨v, hv, hsecond⟩ := (hq.ends m hm w₂).mp hw₂
      exact ⟨v, (deadEnd_andThen hclean hp hq).mpr (Or.inr hv),
        (route_andThen_left hfirst).append (route_andThen_right hsecond)⟩
  · rintro ⟨v, hv, hroute⟩
    obtain ⟨w₁, w₂, m, rfl, hfirst, hsecond, hm⟩ := route_andThen_split hclean hp hs hroute
    rcases (deadEnd_andThen hclean hp hq).mp hv with hv | hv
    · -- the second plan does not lead to where the first one ends
      obtain ⟨rfl, rfl⟩ : w₂ = [] ∧ m = v :=
        (target_of_route hsecond).resolve_right fun h => hclean.disjoint hv.1 h.2
      rw [List.append_nil]
      exact Or.inl ((hp.ends s hs w₁).mpr ⟨m, hv, hfirst⟩)
    · have hmoves : w₂ ≠ [] := by
        rintro rfl
        exact hm (Route.nil_iff.mp hsecond ▸ hv.1)
      have hfrontier := hq.taken_up hm (Or.inr (hsecond.exists_step hmoves))
      exact Or.inr ⟨w₁, w₂, rfl, (hp.passes s hs w₁).mpr ⟨m, hfrontier, hfirst⟩,
        (hq.ends m hfrontier w₂).mpr ⟨v, hv, hsecond⟩⟩

theorem reads_andThen (hp : p.Reads sources L) (hq : (next p.frontier).Reads p.frontier M) :
    (p.andThen next).Reads sources (Word.andThen L M) where
  link_source := by
    intro u v hlink
    rw [references_andThen, List.mem_append, ← or_assoc]
    rcases links_andThen.mp hlink with hlink | hlink
    · exact Or.inl (hp.link_source u v hlink)
    · exact (hq.link_source u v hlink).imp (hp.frontier_source u) id
  frontier_source := by
    intro u hu
    rw [references_andThen, List.mem_append, ← or_assoc]
    exact (hq.frontier_source u hu).imp (hp.frontier_source u) id
  goes_on := by
    intro s hs
    rcases hp.goes_on s hs with hfrontier | ⟨v, hlink⟩
    · exact (hq.goes_on s hfrontier).imp id
        fun ⟨v, hlink⟩ => ⟨v, links_andThen.mpr (Or.inr hlink)⟩
    · exact Or.inr ⟨v, links_andThen.mpr (Or.inl hlink)⟩
  passes := fun _ hs _ => passes_andThen hclean hp hq hs
  ends := fun _ hs _ => ends_andThen hclean hp hq hs

end

theorem mem_references_beside (hp : p ∈ ps) (hv : v ∈ p.references) :
    v ∈ (beside ps).references := by
  rw [references_beside]
  exact List.mem_flatMap_of_mem hp hv

theorem route_beside_of_mem (hp : p ∈ ps) (h : Route p.Links u w v) :
    Route (beside ps).Links u w v :=
  h.mono fun _ _ hlink => links_beside.mpr ⟨p, hp, hlink⟩

section

variable (hclean : (beside ps).Clean sources)

include hclean

theorem Clean.of_mem (hp : p ∈ ps) : p.Clean sources where
  completes := completes_beside.mp hclean.completes p hp
  nodup := by
    have hnodup := hclean.nodup
    rw [references_beside] at hnodup
    exact (List.nodup_flatMap.mp hnodup).1 p hp
  fresh := by
    intro s hs hmem
    exact hclean.fresh s hs (mem_references_beside hp hmem)

theorem Clean.eq_of_mem {q : Plan} (hp : p ∈ ps) (hq : q ∈ ps) (hv : v ∈ p.references)
    (hv' : v ∈ q.references) : p = q := by
  have hnodup := hclean.nodup
  rw [references_beside] at hnodup
  have hpairwise := (List.nodup_flatMap.mp hnodup).2
  have hsymm : Std.Symm (Function.onFun List.Disjoint references) :=
    ⟨fun _ _ hdisjoint _ ha hb => hdisjoint hb ha⟩
  by_contra hne
  exact hpairwise.forall hp hq hne hv hv'

/-- A plan that a vertex of another one has to do with is that plan. -/
theorem Clean.eq_of_touches {q : Plan} (hp : p ∈ ps) (hv : v ∈ p.references) (hq : q ∈ ps)
    (h : v ∈ sources ∨ v ∈ q.references) : q = p := by
  rcases h with hsource | hmem
  · exact absurd (mem_references_beside hp hv) (hclean.fresh v hsource)
  · exact hclean.eq_of_mem hq hp hmem hv

section

variable (hps : ∀ p ∈ ps, ∃ L, p.Reads sources L)

include hps

/-- A route that enters one of the plans stays in it. -/
theorem route_beside (hs : s ∈ sources) (h : Route (beside ps).Links s w v) (hw : w ≠ []) :
    ∃ p ∈ ps, v ∈ p.references ∧ Route p.Links s w v := by
  have hstays : ∀ {p : Plan} {a : String} {w : List String}, p ∈ ps → a ∈ p.references →
      Route (beside ps).Links a w v → Route p.Links a w v := by
    intro p a w hp ha hroute
    refine (hroute.mono (Q := fun a b => (a ∉ p.references ∧ (beside ps).Links a b) ∨
      p.Links a b) ?_).of_closed (T := {v | v ∈ p.references}) ha (fun _ _ hab => hab.1)
      (fun _ _ hab => hab.mem_references)
    intro a b hlink
    by_cases ha : a ∈ p.references
    · obtain ⟨q, hq, hlink⟩ := links_beside.mp hlink
      obtain ⟨L, hreads⟩ := hps q hq
      exact Or.inr (hclean.eq_of_touches hp ha hq (hreads.link_source a b hlink) ▸ hlink)
    · exact Or.inl ⟨ha, hlink⟩
  cases h with
  | stay => exact absurd rfl hw
  | step hab hrest =>
    obtain ⟨p, hp, hlink⟩ := links_beside.mp hab
    have hroute := Route.step hlink (hstays hp hlink.mem_references hrest)
    exact ⟨p, hp, ((target_of_route hroute).resolve_left fun h => hw h.1).2, hroute⟩

theorem deadEnd_beside : (beside ps).DeadEnd v ↔ ∃ p ∈ ps, p.DeadEnd v := by
  constructor
  · rintro ⟨hv, hopen, hlast⟩
    rw [references_beside] at hv
    obtain ⟨p, hp, hv⟩ := List.mem_flatMap.mp hv
    exact ⟨p, hp, hv, fun hmem => hopen (mem_frontier_beside.mpr ⟨p, hp, hmem⟩),
      fun x hlink => hlast x (links_beside.mpr ⟨p, hp, hlink⟩)⟩
  · rintro ⟨p, hp, hv, hopen, hlast⟩
    refine ⟨mem_references_beside hp hv, fun hmem => ?_, fun x hlink => ?_⟩
    · obtain ⟨q, hq, hmem⟩ := mem_frontier_beside.mp hmem
      obtain ⟨L, hreads⟩ := hps q hq
      obtain rfl := hclean.eq_of_touches hp hv hq (hreads.frontier_source v hmem)
      exact hopen hmem
    · obtain ⟨q, hq, hlink⟩ := links_beside.mp hlink
      obtain ⟨L, hreads⟩ := hps q hq
      obtain rfl := hclean.eq_of_touches hp hv hq (hreads.link_source v x hlink)
      exact hlast x hlink

end

theorem reads_beside {Ls : List (Set Word)} (hne : ps ≠ [])
    (hps : ∀ p ∈ ps, ∃ L ∈ Ls, p.Reads sources L)
    (hLs : ∀ L ∈ Ls, ∃ p ∈ ps, p.Reads sources L) :
    (beside ps).Reads sources (Word.oneOf Ls) := by
  have hreads : ∀ p ∈ ps, ∃ L, p.Reads sources L := fun p hp => (hps p hp).imp fun _ h => h.2
  refine ⟨?_, ?_, ?_, ?_, ?_⟩
  · intro u v hlink
    obtain ⟨p, hp, hlink⟩ := links_beside.mp hlink
    obtain ⟨L, hL⟩ := hreads p hp
    exact (hL.link_source u v hlink).imp id (mem_references_beside hp)
  · intro u hu
    obtain ⟨p, hp, hu⟩ := mem_frontier_beside.mp hu
    obtain ⟨L, hL⟩ := hreads p hp
    exact (hL.frontier_source u hu).imp id (mem_references_beside hp)
  · intro s hs
    obtain ⟨p, hp⟩ := List.exists_mem_of_ne_nil ps hne
    obtain ⟨L, hL⟩ := hreads p hp
    exact (hL.goes_on s hs).imp (fun h => mem_frontier_beside.mpr ⟨p, hp, h⟩)
      fun ⟨v, hlink⟩ => ⟨v, links_beside.mpr ⟨p, hp, hlink⟩⟩
  · intro s hs w
    constructor
    · rintro ⟨L, hL, hw⟩
      obtain ⟨p, hp, hL⟩ := hLs L hL
      obtain ⟨v, hv, hroute⟩ := (hL.passes s hs w).mp hw
      exact ⟨v, mem_frontier_beside.mpr ⟨p, hp, hv⟩, route_beside_of_mem hp hroute⟩
    · rintro ⟨v, hv, hroute⟩
      obtain ⟨q, hq, hv⟩ := mem_frontier_beside.mp hv
      obtain ⟨L, hL, hq'⟩ := hps q hq
      refine ⟨L, hL, (hq'.passes s hs w).mpr ⟨v, hv, ?_⟩⟩
      by_cases hw : w = []
      · subst hw
        exact Route.nil_iff.mp hroute ▸ Route.stay s
      · obtain ⟨p, hp, hvp, hroute⟩ := route_beside hclean hreads hs hroute hw
        exact hclean.eq_of_touches hp hvp hq (hq'.frontier_source v hv) ▸ hroute
  · intro s hs w
    constructor
    · rintro ⟨L, hL, hw⟩
      obtain ⟨p, hp, hL⟩ := hLs L hL
      obtain ⟨v, hv, hroute⟩ := (hL.ends s hs w).mp hw
      exact ⟨v, (deadEnd_beside hclean hreads).mpr ⟨p, hp, hv⟩, route_beside_of_mem hp hroute⟩
    · rintro ⟨v, hv, hroute⟩
      have hw : w ≠ [] := by
        rintro rfl
        exact hclean.fresh s hs (Route.nil_iff.mp hroute ▸ hv.1)
      obtain ⟨p, hp, hvp, hroute⟩ := route_beside hclean hreads hs hroute hw
      obtain ⟨q, hq, hv⟩ := (deadEnd_beside hclean hreads).mp hv
      obtain rfl := hclean.eq_of_mem hp hq hvp hv.1
      obtain ⟨L, hL, hq'⟩ := hps p hp
      exact ⟨L, hL, (hq'.ends s hs w).mpr ⟨v, hv, hroute⟩⟩

end

end Plan

end Flowchart

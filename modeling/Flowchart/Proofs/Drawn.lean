import Flowchart.Drawing
import Flowchart.Proofs.Placements
import Mathlib.Data.List.Perm.Basic

/-!
# A drawn graph shows its plan

Each step of a drawing puts one vertex in, with the edges into it, and leaves what was drawn before
as it was. So the graph that is drawn of a plan shows the placements of the plan and nothing else.
-/

namespace Flowchart

theorem Edge.joins_iff {e : Edge} {u v : String} :
    e.joins u v = true ↔ e.source = u ∧ e.target = v := by
  simp [Edge.joins]

/-- The two vertices that an edge joins. -/
def Edge.ends (e : Edge) : String × String := (e.source, e.target)

namespace Graph

def Joins (g : Graph) (u v : String) : Prop := ∃ e ∈ g.edges, e.source = u ∧ e.target = v

variable {history : History} {g g' : Graph} {p : Placement} {ps : List Placement}
  {u v a b : String} {label : EdgeLabel}

theorem contains_iff {r : String} : g.contains r = true ↔ r ∈ g.references := by
  simp [contains, references]

theorem vertex?_ok {r : String} {v : Vertex} (h : g.vertex? r = some v) :
    v ∈ g.vertices ∧ v.reference = r := by
  have href := List.find?_some (p := fun v : Vertex => v.reference == r) h
  exact ⟨List.mem_of_find?_eq_some h, beq_iff_eq.mp href⟩

theorem exists_vertex? {r : String} (h : r ∈ g.references) : ∃ v, g.vertex? r = some v := by
  obtain ⟨v, hv, heq⟩ := List.mem_map.mp h
  exact Option.isSome_iff_exists.mp (List.find?_isSome.mpr ⟨v, hv, beq_iff_eq.mpr heq⟩)

theorem putVertex_fresh {v : Vertex} (hfresh : v.reference ∉ g.references) :
    g.putVertex v = { g with vertices := g.vertices ++ [v] } := by
  rw [putVertex, if_neg fun hcontains => hfresh (contains_iff.mp hcontains)]

theorem mem_references_putVertex {v : Vertex} {r : String} :
    r ∈ (g.putVertex v).references ↔ r ∈ g.references ∨ r = v.reference := by
  unfold putVertex
  split
  · next hcontains =>
    have hkeeps : (g.vertices.map fun u => if u.reference = v.reference then v else u).map
        (·.reference) = g.references := by
      rw [List.map_map]
      apply List.map_congr_left
      intro u _
      dsimp only [Function.comp_apply]
      split
      · next heq => exact heq.symm
      · rfl
    change r ∈ (g.vertices.map fun u => if u.reference = v.reference then v else u).map
        (·.reference) ↔ _
    rw [hkeeps]
    constructor
    · exact Or.inl
    · rintro (h | rfl)
      · exact h
      · exact contains_iff.mp hcontains
  · simp [references]

theorem mem_vertices_putVertex {v w : Vertex} (hw : w ∈ (g.putVertex v).vertices) :
    w ∈ g.vertices ∨ w = v := by
  unfold putVertex at hw
  split at hw
  · obtain ⟨u, hu, rfl⟩ := List.mem_map.mp hw
    split
    · exact Or.inr rfl
    · exact Or.inl hu
  · exact (List.mem_append.mp hw).imp_right List.mem_singleton.mp

theorem putEdge_ok (h : g.putEdge u v label = .ok g') :
    g.contains u = true ∧ g.contains v = true ∧
      g' = if g.edges.any (·.joins u v) then
          { g with edges := g.edges.map fun e =>
              if e.joins u v then { e with label := label } else e }
        else { g with edges := g.edges ++ [⟨u, v, label, g.links⟩], links := g.links + 1 } := by
  unfold putEdge at h
  cases hu : g.contains u
  · rw [hu] at h
    cases h
  cases hv : g.contains v
  · rw [hu, hv] at h
    cases h
  refine ⟨rfl, rfl, ?_⟩
  rw [hu, hv] at h
  split
  · next hjoined =>
    simp only [hjoined] at h
    cases h
    rfl
  · next hapart =>
    simp only [hapart] at h
    cases h
    rfl

/-- An edge that is put in is there with its label, and no other edge changes. -/
theorem putEdge_changes (h : g.putEdge u v label = .ok g') :
    g'.vertices = g.vertices ∧
      (∀ e ∈ g'.edges, e ∈ g.edges ∨ e.source = u ∧ e.target = v ∧ e.label = label) ∧
      ∀ a b, g'.Joins a b ↔ g.Joins a b ∨ a = u ∧ b = v := by
  obtain ⟨-, -, rfl⟩ := putEdge_ok h
  split
  · next hany =>
    obtain ⟨e₀, he₀, hjoins₀⟩ := List.any_eq_true.mp hany
    have hends : ∀ e : Edge, (if e.joins u v then { e with label := label } else e).source =
        e.source ∧ (if e.joins u v then { e with label := label } else e).target = e.target := by
      intro e
      split <;> exact ⟨rfl, rfl⟩
    refine ⟨rfl, ?_, ?_⟩
    · intro e he
      obtain ⟨e', he', rfl⟩ := List.mem_map.mp he
      split
      · next hjoins =>
        obtain ⟨hsource, htarget⟩ := Edge.joins_iff.mp hjoins
        exact Or.inr ⟨hsource, htarget, rfl⟩
      · exact Or.inl he'
    · intro a b
      constructor
      · rintro ⟨e, he, rfl, rfl⟩
        obtain ⟨e', he', rfl⟩ := List.mem_map.mp he
        exact Or.inl ⟨e', he', (hends e').1.symm, (hends e').2.symm⟩
      · intro hab
        have hold : g.Joins a b := by
          rcases hab with hab | ⟨rfl, rfl⟩
          · exact hab
          · exact ⟨e₀, he₀, Edge.joins_iff.mp hjoins₀⟩
        obtain ⟨e, he, rfl, rfl⟩ := hold
        exact ⟨_, List.mem_map_of_mem he, hends e⟩
  · refine ⟨rfl, ?_, ?_⟩
    · intro e he
      rcases List.mem_append.mp he with he | he
      · exact Or.inl he
      · obtain rfl := List.mem_singleton.mp he
        exact Or.inr ⟨rfl, rfl, rfl⟩
    · intro a b
      simp only [Joins, List.mem_append, List.mem_singleton, or_and_right, exists_or,
        exists_eq_left, eq_comm]

theorem putEdges_changes {edges : List (String × EdgeLabel)}
    (h : edges.foldlM (fun g edge => g.putEdge edge.1 v edge.2) g = .ok g') :
    g'.vertices = g.vertices ∧
      (∀ e ∈ g'.edges, e ∈ g.edges ∨ e.target = v ∧ (e.source, e.label) ∈ edges) ∧
      ∀ a b, g'.Joins a b ↔ g.Joins a b ∨ b = v ∧ ∃ label, (a, label) ∈ edges := by
  induction edges generalizing g with
  | nil =>
    rw [List.foldlM_nil, Outcome.pure_eq_ok] at h
    subst h
    simp
  | cons edge edges ih =>
    rw [List.foldlM_cons, Outcome.bind_eq_ok] at h
    obtain ⟨m, hfirst, hrest⟩ := h
    obtain ⟨hvertices, hedges, hjoins⟩ := putEdge_changes hfirst
    obtain ⟨hvertices', hedges', hjoins'⟩ := ih hrest
    refine ⟨hvertices'.trans hvertices, ?_, ?_⟩
    · intro e he
      rcases hedges' e he with he | ⟨htarget, hmem⟩
      · rcases hedges e he with he | ⟨hsource, htarget, hlabel⟩
        · exact Or.inl he
        · refine Or.inr ⟨htarget, ?_⟩
          rw [hsource, hlabel]
          exact List.mem_cons_self
      · exact Or.inr ⟨htarget, List.mem_cons_of_mem _ hmem⟩
    · intro a b
      rw [hjoins', hjoins]
      constructor
      · rintro ((hab | ⟨rfl, rfl⟩) | ⟨rfl, label, hmem⟩)
        · exact Or.inl hab
        · exact Or.inr ⟨rfl, edge.2, List.mem_cons_self⟩
        · exact Or.inr ⟨rfl, label, List.mem_cons_of_mem _ hmem⟩
      · rintro (hab | ⟨rfl, label, hmem⟩)
        · exact Or.inl (Or.inl hab)
        · rcases List.mem_cons.mp hmem with rfl | hmem
          · exact Or.inl (Or.inr ⟨rfl, rfl⟩)
          · exact Or.inr ⟨rfl, label, hmem⟩

theorem draw_ok (h : g.draw history p = .ok g') :
    ∃ edges : List (String × EdgeLabel),
      (∀ edge ∈ edges, edge.1 ∈ p.sources ∧ p.edgeFrom history g edge.1 = .ok edge.2) ∧
      (∀ s ∈ p.sources, ∃ label, (s, label) ∈ edges) ∧
      edges.foldlM (fun g edge => g.putEdge edge.1 p.reference edge.2)
        (g.putVertex (p.toVertex history)) = .ok g' := by
  rw [draw, Outcome.bind_eq_ok] at h
  obtain ⟨edges, hedges, h⟩ := h
  obtain ⟨hresults, helements⟩ := Outcome.mem_of_mapM hedges
  refine ⟨edges, ?_, ?_, h⟩
  · intro edge hedge
    obtain ⟨s, hs, hlabel⟩ := hresults edge hedge
    rw [Outcome.bind_eq_ok] at hlabel
    obtain ⟨label, hlabel, heq⟩ := hlabel
    rw [Outcome.pure_eq_ok] at heq
    subst heq
    exact ⟨hs, hlabel⟩
  · intro s hs
    obtain ⟨edge, hedge, hlabel⟩ := helements s hs
    rw [Outcome.bind_eq_ok] at hlabel
    obtain ⟨label, -, heq⟩ := hlabel
    rw [Outcome.pure_eq_ok] at heq
    subst heq
    exact ⟨label, hedge⟩

/-- How the label of an edge follows from the vertex at its source. -/
theorem edgeFrom_ok (h : p.edgeFrom history g u = .ok label) : ∃ x, g.vertex? u = some x ∧
    (x.task.kind.switch? = none ∧ label.caseValue = none ∧
        label.executed = (x.isExecuted && p.isExecuted (history.latest? p.task.reportRef)) ∨
      ∃ s, x.task.kind.switch? = some s ∧ s.caseValue? p.reference = label.caseValue ∧
        label.executed =
          ((history.latest? p.task.reportRef).isSome && s.taken history p.reference)) := by
  unfold Placement.edgeFrom at h
  cases hu : g.vertex? u with
  | none =>
    rw [hu] at h
    cases h
  | some x =>
    refine ⟨x, rfl, ?_⟩
    rw [hu] at h
    cases hswitch : x.task.kind.switch? with
    | none =>
      simp only [hswitch, Outcome.pure_eq_ok] at h
      subst h
      exact Or.inl ⟨rfl, rfl, rfl⟩
    | some s =>
      simp only [hswitch] at h
      cases hvalue : s.caseValue? p.task.reference with
      | none =>
        rw [hvalue] at h
        cases h
      | some value =>
        simp only [hvalue, Outcome.pure_eq_ok] at h
        subst h
        exact Or.inr ⟨s, rfl, hvalue, rfl⟩

theorem edgeFrom_mono (h : p.edgeFrom history g u = .ok label)
    (hvertex : ∀ x, g.vertex? u = some x → g'.vertex? u = some x) :
    p.edgeFrom history g' u = .ok label := by
  unfold Placement.edgeFrom at h ⊢
  cases hu : g.vertex? u with
  | none =>
    rw [hu] at h
    cases h
  | some x => rwa [hvertex x hu, ← hu]

/-- The graph shows these placements in order, with an edge from each of their sources and with no
other edge. -/
structure Shows (history : History) (g : Graph) (ps : List Placement) : Prop where
  vertices : g.vertices = ps.map (·.toVertex history)
  labels : ∀ e ∈ g.edges, ∃ p ∈ ps, e.source ∈ p.sources ∧ e.target = p.reference ∧
    p.edgeFrom history g e.source = .ok e.label
  joins : ∀ p ∈ ps, ∀ s ∈ p.sources, g.Joins s p.reference

theorem Shows.references_eq (hg : g.Shows history ps) :
    g.references = ps.map Placement.reference := by
  rw [references, hg.vertices, List.map_map]
  rfl

theorem Shows.joins_iff (hg : g.Shows history ps) :
    g.Joins a b ↔ ∃ p ∈ ps, a ∈ p.sources ∧ p.reference = b := by
  constructor
  · rintro ⟨e, he, rfl, rfl⟩
    obtain ⟨p, hp, hsource, htarget, -⟩ := hg.labels e he
    exact ⟨p, hp, hsource, htarget.symm⟩
  · rintro ⟨p, hp, ha, rfl⟩
    exact hg.joins p hp a ha

theorem Shows.vertex?_eq (hg : g.Shows history ps) (hnodup : (ps.map Placement.reference).Nodup)
    (hp : p ∈ ps) : g.vertex? p.reference = some (p.toVertex history) := by
  obtain ⟨before, after, rfl⟩ := List.append_of_mem hp
  rw [vertex?, hg.vertices, List.map_append, List.find?_append, List.map_cons]
  have hbefore : (before.map (·.toVertex history)).find? (·.reference == p.reference) = none := by
    rw [List.find?_eq_none]
    intro v hv heq
    obtain ⟨q, hq, rfl⟩ := List.mem_map.mp hv
    rw [List.map_append] at hnodup
    apply List.disjoint_of_nodup_append hnodup (List.mem_map_of_mem hq)
    have heq : q.reference = p.reference := beq_iff_eq.mp heq
    rw [heq]
    exact List.mem_map_of_mem List.mem_cons_self
  have hself : ((p.toVertex history).reference == p.reference) = true := beq_self_eq_true _
  rw [hbefore, Option.none_or]
  exact List.find?_cons_of_pos hself

theorem Shows.draw (hg : g.Shows history ps) (hfresh : p.reference ∉ ps.map Placement.reference)
    (hdraw : g.draw history p = .ok g') : g'.Shows history (ps ++ [p]) := by
  obtain ⟨edges, hlabels, hsources, hput⟩ := draw_ok hdraw
  rw [putVertex_fresh (hg.references_eq ▸ hfresh)] at hput
  obtain ⟨hvertices, hedges, hjoins⟩ := putEdges_changes hput
  have hmono : ∀ (q : Placement) (u : String) (label : EdgeLabel),
      q.edgeFrom history g u = .ok label → q.edgeFrom history g' u = .ok label := by
    intro q u label hlabel
    apply edgeFrom_mono hlabel
    intro x hx
    rw [vertex?, hvertices, List.find?_append]
    change (g.vertex? u).or _ = _
    rw [hx, Option.some_or]
  refine ⟨?_, ?_, ?_⟩
  · rw [hvertices, hg.vertices, List.map_append]
    rfl
  · intro e he
    rcases hedges e he with he | ⟨htarget, hmem⟩
    · obtain ⟨q, hq, hsource, htarget, hlabel⟩ := hg.labels e he
      exact ⟨q, List.mem_append_left _ hq, hsource, htarget, hmono _ _ _ hlabel⟩
    · obtain ⟨hsource, hlabel⟩ := hlabels _ hmem
      exact ⟨p, List.mem_append_right _ List.mem_cons_self, hsource, htarget, hmono _ _ _ hlabel⟩
  · intro q hq s hs
    rw [hjoins]
    rcases List.mem_append.mp hq with hq | hq
    · exact Or.inl (hg.joins q hq s hs)
    · obtain rfl := List.mem_singleton.mp hq
      exact Or.inr ⟨rfl, hsources s hs⟩

theorem Shows.edge_mem (hg : g.Shows history ps) {e : Edge} (he : e ∈ g.edges) :
    e.source ∈ g.references ∧ e.target ∈ g.references := by
  obtain ⟨p, hp, -, htarget, hlabel⟩ := hg.labels e he
  constructor
  · obtain ⟨v, hsource, -⟩ := edgeFrom_ok hlabel
    obtain ⟨hmem, hreference⟩ := vertex?_ok hsource
    exact hreference ▸ List.mem_map_of_mem hmem
  · rw [hg.references_eq, htarget]
    exact List.mem_map_of_mem hp

theorem mem_references_draw (h : g.draw history p = .ok g') {r : String} :
    r ∈ g'.references ↔ r ∈ g.references ∨ r = p.reference := by
  obtain ⟨edges, -, -, hput⟩ := draw_ok h
  rw [references, (putEdges_changes hput).1]
  exact mem_references_putVertex

/-- Each vertex that was not there before comes from a step. -/
theorem mem_vertices_steps {steps : List Step} (h : steps.foldlM (step history) g = .ok g')
    {v : Vertex} (hv : v ∈ g'.vertices) :
    v ∈ g.vertices ∨ ∃ p ∈ steps.filterMap Step.placement?, v = p.toVertex history := by
  induction steps generalizing g with
  | nil =>
    rw [List.foldlM_nil, Outcome.pure_eq_ok] at h
    exact Or.inl (h ▸ hv)
  | cons first steps ih =>
    rw [List.foldlM_cons, Outcome.bind_eq_ok] at h
    obtain ⟨m, hfirst, hrest⟩ := h
    cases first with
    | halt error => cases hfirst
    | draw p =>
      rcases ih hrest with hv | ⟨q, hq, rfl⟩
      · obtain ⟨edges, -, -, hput⟩ := draw_ok hfirst
        rw [(putEdges_changes hput).1] at hv
        exact (mem_vertices_putVertex hv).imp_right fun heq => ⟨p, List.mem_cons_self, heq⟩
      · exact Or.inr ⟨q, List.mem_cons_of_mem p hq, rfl⟩

/-- Steps that succeed draw what they name, and none of them halts. -/
theorem steps_ok {steps : List Step} (h : steps.foldlM (step history) g = .ok g') :
    (∀ error, Step.halt error ∉ steps) ∧ ∀ r, r ∈ g'.references ↔
      r ∈ g.references ∨ r ∈ (steps.filterMap Step.placement?).map Placement.reference := by
  induction steps generalizing g with
  | nil =>
    rw [List.foldlM_nil, Outcome.pure_eq_ok] at h
    subst h
    simp
  | cons first steps ih =>
    rw [List.foldlM_cons, Outcome.bind_eq_ok] at h
    obtain ⟨m, hfirst, hrest⟩ := h
    obtain ⟨hruns, hmem⟩ := ih hrest
    cases first with
    | halt error => cases hfirst
    | draw p =>
      refine ⟨fun error hhalt => ?_, fun r => ?_⟩
      · rcases List.mem_cons.mp hhalt with heq | hhalt
        · cases heq
        · exact hruns error hhalt
      · rw [hmem, mem_references_draw hfirst, or_assoc]
        exact or_congr_right List.mem_cons.symm

theorem Shows.steps {steps : List Step} (hg : g.Shows history ps)
    (h : steps.foldlM (step history) g = .ok g')
    (hnodup : ((ps ++ steps.filterMap Step.placement?).map Placement.reference).Nodup) :
    g'.Shows history (ps ++ steps.filterMap Step.placement?) := by
  induction steps generalizing g ps with
  | nil =>
    rw [List.foldlM_nil, Outcome.pure_eq_ok] at h
    subst h
    simpa using hg
  | cons first steps ih =>
    rw [List.foldlM_cons, Outcome.bind_eq_ok] at h
    obtain ⟨m, hfirst, hrest⟩ := h
    cases first with
    | halt error => cases hfirst
    | draw p =>
      have happend : ps ++ (Step.draw p :: steps).filterMap Step.placement? =
          ps ++ [p] ++ steps.filterMap Step.placement? := by
        simp [Step.placement?]
      rw [happend] at hnodup ⊢
      refine ih (hg.draw ?_ hfirst) hrest hnodup
      rw [List.map_append] at hnodup
      have hprefix := hnodup.of_append_left
      rw [List.map_append] at hprefix
      exact fun hmem => List.disjoint_of_nodup_append hprefix hmem (List.mem_singleton_self _)

theorem ofSteps_shows {steps : List Step} (h : ofSteps history steps = .ok g)
    (hnodup : ((steps.filterMap Step.placement?).map Placement.reference).Nodup) :
    g.Shows history (steps.filterMap Step.placement?) :=
  Shows.steps ⟨rfl, fun _ he => absurd he List.not_mem_nil, fun _ hp => absurd hp List.not_mem_nil⟩
    h hnodup

theorem Shows.inDegree_eq_zero (hg : g.Shows history ps) {r : String} :
    g.inDegree r = 0 ↔ ∀ p ∈ ps, p.reference = r → p.sources = [] := by
  rw [inDegree, List.countP_eq_zero]
  constructor
  · intro hzero p hp hreference
    rw [List.eq_nil_iff_forall_not_mem]
    intro s hs
    obtain ⟨e, he, -, htarget⟩ := hg.joins p hp s hs
    exact hzero e he (beq_iff_eq.mpr (htarget.trans hreference))
  · intro hnone e he htarget
    obtain ⟨p, hp, hsource, hreference, -⟩ := hg.labels e he
    rw [hnone p hp (hreference.symm.trans (beq_iff_eq.mp htarget))] at hsource
    exact absurd hsource List.not_mem_nil

/-! ### Taking a vertex out again

The final bubble is drawn behind all tasks, and taken out again where nothing leads to it. Erasing
swaps the last entry into the gap. The bubble is itself the last vertex then and has no edges, so
nothing is moved, and what is left is the graph without it.
-/

theorem unlink_eq {q : Edge → Bool} (h : ∀ e ∈ g.edges, q e = false) : g.unlink q = g := by
  have hkeeps : ∀ serials : List Nat, serials.foldl
      (fun edges serial => swapEraseP (fun e => e.serial == serial && q e) edges) g.edges =
        g.edges := by
    intro serials
    induction serials with
    | nil => rfl
    | cons serial rest ih =>
      have hnone : g.edges.findIdx? (fun e => e.serial == serial && q e) = none := by
        rw [List.findIdx?_eq_none_iff]
        intro e he
        rw [h e he, Bool.and_false]
      rw [List.foldl_cons, swapEraseP, hnone]
      exact ih
  rw [unlink, hkeeps]

/-- The order apart, what is left is the list without the entry. -/
theorem swapErase_perm {α : Type} {as : List α} {i : Nat} (hi : i < as.length) :
    (swapErase as i).Perm (as.eraseIdx i) := by
  obtain ⟨init, last, rfl⟩ := List.eq_nil_or_concat' as |>.resolve_left fun h => by simp [h] at hi
  rw [swapErase, List.getLast?_concat]
  dsimp only
  rw [if_pos hi]
  by_cases hlast : i < init.length
  · rw [List.set_append_left _ _ hlast, List.dropLast_concat,
      List.eraseIdx_append_of_lt_length hlast]
    exact (List.set_perm_cons_eraseIdx hlast last).trans (List.perm_append_singleton _ _).symm
  · obtain rfl : i = init.length := by
      rw [List.length_append, List.length_singleton] at hi
      omega
    simp [List.eraseIdx_append_of_length_le]

theorem mem_swapEraseP {α : Type} {q : α → Bool} {as : List α} {a : α} (ha : a ∈ as)
    (hq : q a = false) : a ∈ swapEraseP q as := by
  unfold swapEraseP
  split
  · next i hi =>
    obtain ⟨hlt, hfound, -⟩ := List.findIdx?_eq_some_iff_getElem.mp hi
    rw [(swapErase_perm hlt).mem_iff, List.mem_eraseIdx_iff_getElem]
    obtain ⟨j, hj, rfl⟩ := List.getElem_of_mem ha
    refine ⟨j, hj, ?_, rfl⟩
    rintro rfl
    rw [hfound] at hq
    cases hq
  · exact ha

theorem mem_of_mem_swapEraseP {α : Type} {q : α → Bool} {as : List α} {a : α}
    (ha : a ∈ swapEraseP q as) : a ∈ as := by
  unfold swapEraseP at ha
  split at ha
  · next i hi =>
    obtain ⟨hlt, -⟩ := List.findIdx?_eq_some_iff_getElem.mp hi
    exact List.mem_of_mem_eraseIdx ((swapErase_perm hlt).mem_iff.mp ha)
  · exact ha

theorem swapEraseP_concat {α : Type} {q : α → Bool} {as : List α} {a : α} (ha : q a = true)
    (has : ∀ b ∈ as, q b = false) : swapEraseP q (as ++ [a]) = as := by
  have hnone : as.findIdx? q = none := List.findIdx?_eq_none_iff.mpr has
  have hlast : (as ++ [a]).findIdx? q = some as.length := by
    simp [List.findIdx?_append, hnone, ha]
  simp [swapEraseP, hlast, swapErase]

/-- A vertex that nothing was linked to leaves no trace. -/
theorem eraseVertex_putVertex {v : Vertex} (hfresh : v.reference ∉ g.references)
    (hedges : ∀ e ∈ g.edges, e.source ∈ g.references ∧ e.target ∈ g.references) :
    (g.putVertex v).eraseVertex v.reference = g := by
  have hsource : ∀ e ∈ g.edges, (e.source == v.reference) = false := by
    intro e he
    exact beq_false_of_ne fun heq => hfresh (heq ▸ (hedges e he).1)
  have htarget : ∀ e ∈ g.edges, (e.target == v.reference) = false := by
    intro e he
    exact beq_false_of_ne fun heq => hfresh (heq ▸ (hedges e he).2)
  have hvertices : swapEraseP (·.reference == v.reference) (g.vertices ++ [v]) = g.vertices := by
    refine swapEraseP_concat (beq_self_eq_true _) fun u hu => ?_
    exact beq_false_of_ne fun heq => hfresh (heq ▸ List.mem_map_of_mem hu)
  rw [putVertex_fresh hfresh, eraseVertex]
  generalize hvs : g.vertices ++ [v] = vs at hvertices
  have hsource' : Graph.unlink ⟨vs, g.edges, g.links⟩ (·.source == v.reference) =
      ⟨vs, g.edges, g.links⟩ := unlink_eq hsource
  have htarget' : Graph.unlink ⟨vs, g.edges, g.links⟩ (·.target == v.reference) =
      ⟨vs, g.edges, g.links⟩ := unlink_eq htarget
  rw [hsource', htarget', hvertices]

/-- A vertex without sources comes with no edges, so that taking it out gives the graph before. -/
theorem Shows.eraseVertex_draw (hg : g.Shows history ps)
    (hfresh : p.reference ∉ ps.map Placement.reference) (hnone : p.sources = [])
    (hdraw : g.draw history p = .ok g') : g'.eraseVertex p.reference = g := by
  obtain ⟨edges, hlabels, -, hput⟩ := draw_ok hdraw
  have hempty : edges = [] := by
    rw [List.eq_nil_iff_forall_not_mem]
    intro edge hedge
    have hsource := (hlabels edge hedge).1
    rw [hnone] at hsource
    exact absurd hsource List.not_mem_nil
  rw [hempty, List.foldlM_nil, Outcome.pure_eq_ok] at hput
  rw [← hput]
  exact eraseVertex_putVertex (v := p.toVertex history) (hg.references_eq ▸ hfresh)
    fun e he => hg.edge_mem he

end Graph

namespace Plan

/-- The placements that a diagram shows: all but a final bubble that nothing leads to. -/
def shown (p : Plan) : List Placement :=
  p.placements.filter fun q => q.reference ≠ finalBubble ∨ q.sources ≠ []

variable {p : Plan} {front : List Placement} {final : Placement}

theorem nodup_shown (hnodup : p.references.Nodup) : (p.shown.map Placement.reference).Nodup :=
  (List.filter_sublist.map Placement.reference).nodup hnodup

theorem ne_finalBubble_of_front (hplacements : p.placements = front ++ [final])
    (hfinal : final.reference = finalBubble) (hnodup : p.references.Nodup) :
    ∀ q ∈ front, q.reference ≠ finalBubble := by
  intro q hq heq
  rw [references, hplacements, List.map_append] at hnodup
  refine List.disjoint_of_nodup_append hnodup (List.mem_map_of_mem hq) ?_
  rw [heq, ← hfinal]
  exact List.mem_singleton_self _

theorem shown_eq (hplacements : p.placements = front ++ [final])
    (hfinal : final.reference = finalBubble) (hnodup : p.references.Nodup) :
    p.shown = front ++ if final.sources = [] then [] else [final] := by
  have hapart := ne_finalBubble_of_front hplacements hfinal hnodup
  have hkept : front.filter (fun q => decide (q.reference ≠ finalBubble ∨ q.sources ≠ [])) =
      front := List.filter_eq_self.mpr fun q hq => decide_eq_true (Or.inl (hapart q hq))
  rw [shown, hplacements, List.filter_append, hkept]
  split
  · next hnone => simp [hfinal, hnone]
  · next hsome => simp [hsome]

end Plan

namespace Graph

variable {settings : Settings} {history : History} {tasks : List Task} {g : Graph}

theorem ofTasks_completes (h : ofTasks settings history tasks = .ok g) :
    (Plan.ofTasks settings history tasks).Completes := by
  rw [ofTasks, Outcome.bind_eq_ok] at h
  obtain ⟨drawn, hdrawn, -⟩ := h
  exact (steps_ok hdrawn).1

/-- Everything that is planned is drawn, but perhaps the final bubble. -/
theorem mem_references_ofTasks (h : ofTasks settings history tasks = .ok g) {r : String}
    (hr : r ∈ (Plan.ofTasks settings history tasks).references) (hne : r ≠ finalBubble) :
    r ∈ g.references := by
  rw [ofTasks, Outcome.bind_eq_ok] at h
  obtain ⟨drawn, hdrawn, h⟩ := h
  have hmem : r ∈ drawn.references := ((steps_ok hdrawn).2 r).mpr (Or.inr hr)
  split at h
  · rw [Outcome.pure_eq_ok] at h
    subst h
    obtain ⟨v, hv, rfl⟩ := List.mem_map.mp hmem
    exact List.mem_map_of_mem (mem_swapEraseP hv (beq_false_of_ne hne))
  · rw [Outcome.pure_eq_ok] at h
    exact h ▸ hmem

/-- Whatever is drawn was planned. -/
theorem mem_vertices_ofTasks (h : ofTasks settings history tasks = .ok g) {v : Vertex}
    (hv : v ∈ g.vertices) :
    ∃ p ∈ (Plan.ofTasks settings history tasks).placements, v = p.toVertex history := by
  rw [ofTasks, Outcome.bind_eq_ok] at h
  obtain ⟨drawn, hdrawn, h⟩ := h
  have hmem : v ∈ drawn.vertices := by
    split at h
    · rw [Outcome.pure_eq_ok] at h
      subst h
      exact mem_of_mem_swapEraseP hv
    · rw [Outcome.pure_eq_ok] at h
      exact h ▸ hv
  exact (mem_vertices_steps hdrawn hmem).resolve_left List.not_mem_nil

/-- What is planned once under a reference is what is drawn under it. -/
theorem vertex?_of_once (h : ofTasks settings history tasks = .ok g) {p : Placement}
    {before after : List String} (hp : p ∈ (Plan.ofTasks settings history tasks).placements)
    (href : (Plan.ofTasks settings history tasks).references =
      before ++ p.reference :: after)
    (hbefore : p.reference ∉ before) (hafter : p.reference ∉ after)
    (hne : p.reference ≠ finalBubble) :
    g.vertex? p.reference = some (p.toVertex history) := by
  have honce : ∀ q ∈ (Plan.ofTasks settings history tasks).placements,
      q.reference = p.reference → q = p := by
    obtain ⟨front, rest, hplacements, hfront, hrest⟩ := List.map_eq_append_iff.mp href
    obtain ⟨middle, back, rfl, hmiddle, hback⟩ := List.map_eq_cons_iff.mp hrest
    have hmem : ∀ q ∈ (Plan.ofTasks settings history tasks).placements,
        q.reference = p.reference → q = middle := by
      intro q hq heq
      rw [hplacements, List.mem_append, List.mem_cons] at hq
      rcases hq with hq | rfl | hq
      · exact absurd (heq ▸ hfront ▸ List.mem_map_of_mem hq) hbefore
      · rfl
      · exact absurd (heq ▸ hback ▸ List.mem_map_of_mem hq) hafter
    intro q hq heq
    rw [hmem q hq heq, hmem p hp rfl]
  have hdrawn : p.reference ∈ g.references :=
    mem_references_ofTasks h (List.mem_map_of_mem hp) hne
  obtain ⟨v, hfound⟩ := exists_vertex? hdrawn
  obtain ⟨hv, heq⟩ := vertex?_ok hfound
  obtain ⟨q, hq, rfl⟩ := mem_vertices_ofTasks h hv
  rw [hfound, honce q hq heq]

theorem exists_front (settings : Settings) (history : History) (tasks : List Task) :
    ∃ front final, (Plan.ofTasks settings history tasks).steps = front ++ [.draw final] ∧
      (Plan.ofTasks settings history tasks).placements =
        front.filterMap Step.placement? ++ [final] ∧ final.reference = finalBubble := by
  have hsteps : ∃ front final, (Plan.ofTasks settings history tasks).steps =
      front ++ [.draw final] ∧ final.reference = finalBubble := by
    rw [Plan.ofTasks_eq]
    exact ⟨_, ⟨.plain "final" finalBubble (.marker .terminal), .root, none, none, _⟩,
      (List.append_assoc _ _ _).symm, rfl⟩
  obtain ⟨front, final, hsteps, hfinal⟩ := hsteps
  refine ⟨front, final, hsteps, ?_, hfinal⟩
  rw [Plan.placements, hsteps, List.filterMap_append]
  rfl

theorem ofTasks_shows (h : ofTasks settings history tasks = .ok g)
    (hnodup : (Plan.ofTasks settings history tasks).references.Nodup) :
    g.Shows history (Plan.ofTasks settings history tasks).shown := by
  obtain ⟨front, final, hsteps, hplacements, hfinal⟩ := exists_front settings history tasks
  have hapart := Plan.ne_finalBubble_of_front hplacements hfinal hnodup
  rw [Plan.shown_eq hplacements hfinal hnodup]
  rw [Plan.references, hplacements] at hnodup
  rw [ofTasks, Outcome.bind_eq_ok] at h
  obtain ⟨drawn, hdrawn, h⟩ := h
  have hall : drawn.Shows history (front.filterMap Step.placement? ++ [final]) := by
    rw [← hplacements] at hnodup ⊢
    exact ofSteps_shows hdrawn hnodup
  rw [hsteps, ofSteps, Outcome.foldlM_append_eq_ok] at hdrawn
  obtain ⟨before, hbefore, hlast⟩ := hdrawn
  rw [List.foldlM_cons, Outcome.bind_eq_ok] at hlast
  obtain ⟨after, hlast, heq⟩ := hlast
  rw [List.foldlM_nil, Outcome.pure_eq_ok] at heq
  subst heq
  rw [List.map_append] at hnodup
  have hfront := ofSteps_shows hbefore hnodup.of_append_left
  have hfresh : final.reference ∉ (front.filterMap Step.placement?).map Placement.reference :=
    fun hmem => List.disjoint_of_nodup_append hnodup hmem (List.mem_singleton_self _)
  have hdegree : after.inDegree finalBubble = 0 ↔ final.sources = [] := by
    rw [hall.inDegree_eq_zero]
    constructor
    · intro hnone
      exact hnone final (List.mem_append_right _ List.mem_cons_self) hfinal
    · intro hnone p hp heq
      rcases List.mem_append.mp hp with hp | hp
      · exact absurd heq (hapart p hp)
      · rw [List.mem_singleton.mp hp, hnone]
  split at h
  · next hzero =>
    have hnone := hdegree.mp hzero
    rw [Outcome.pure_eq_ok, ← hfinal, hfront.eraseVertex_draw hfresh hnone hlast] at h
    rw [if_pos hnone, List.append_nil, ← h]
    exact hfront
  · next hsome =>
    have hsources : final.sources ≠ [] := fun hnone => hsome (hdegree.mpr hnone)
    rw [Outcome.pure_eq_ok] at h
    rw [if_neg hsources, ← h]
    exact hall

theorem putEdge_ends {u v : String} {label : EdgeLabel} {g' : Graph}
    (h : g.putEdge u v label = .ok g') (hnodup : (g.edges.map Edge.ends).Nodup) :
    (g'.edges.map Edge.ends).Nodup := by
  obtain ⟨-, -, rfl⟩ := putEdge_ok h
  split
  · have hkeeps : (g.edges.map fun e => if e.joins u v then { e with label := label } else e).map
        Edge.ends = g.edges.map Edge.ends := by
      rw [List.map_map]
      refine List.map_congr_left fun e _ => ?_
      dsimp only [Function.comp_apply]
      split <;> rfl
    dsimp only
    rwa [hkeeps]
  · next hapart =>
    dsimp only
    rw [List.map_append, List.map_singleton]
    refine List.nodup_append.mpr ⟨hnodup, List.nodup_singleton _, fun ends hends ends' hends' => ?_⟩
    obtain ⟨e, he, rfl⟩ := List.mem_map.mp hends
    rw [List.mem_singleton.mp hends']
    intro heq
    obtain ⟨hsource, htarget⟩ := Prod.ext_iff.mp heq
    exact hapart (List.any_eq_true.mpr ⟨e, he, Edge.joins_iff.mpr ⟨hsource, htarget⟩⟩)

theorem ofSteps_ends {steps : List Step} (h : ofSteps history steps = .ok g) :
    (g.edges.map Edge.ends).Nodup := by
  have hdraw : ∀ {g g' : Graph} {p : Placement}, g.draw history p = .ok g' →
      (g.edges.map Edge.ends).Nodup → (g'.edges.map Edge.ends).Nodup := by
    intro g g' p hdraw hg
    obtain ⟨edges, -, -, hput⟩ := draw_ok hdraw
    refine Outcome.foldlM_keeps (P := fun g : Graph => (g.edges.map Edge.ends).Nodup) hput ?_
      fun g edge _ g' hg hedge => putEdge_ends hedge hg
    unfold putVertex
    split <;> exact hg
  refine Outcome.foldlM_keeps (P := fun g : Graph => (g.edges.map Edge.ends).Nodup) h List.nodup_nil
    fun g step _ g' hg hstep => ?_
  cases step with
  | halt error => cases hstep
  | draw p => exact hdraw hstep hg

theorem swapEraseP_subperm {α : Type} (q : α → Bool) (as : List α) :
    (swapEraseP q as).Subperm as := by
  unfold swapEraseP
  split
  · next i hi =>
    obtain ⟨hlt, -⟩ := List.findIdx?_eq_some_iff_getElem.mp hi
    exact ⟨_, (swapErase_perm hlt).symm, List.eraseIdx_sublist as i⟩
  · exact List.Subperm.refl as

theorem unlink_subperm (g : Graph) (q : Edge → Bool) : (g.unlink q).edges.Subperm g.edges := by
  refine List.foldlRecOn (motive := fun edges : List Edge => edges.Subperm g.edges) _ _
    (List.Subperm.refl _) fun edges hedges serial _ => ?_
  exact (swapEraseP_subperm _ edges).trans hedges

theorem ofTasks_ends (h : ofTasks settings history tasks = .ok g) :
    (g.edges.map Edge.ends).Nodup := by
  rw [ofTasks, Outcome.bind_eq_ok] at h
  obtain ⟨drawn, hdrawn, h⟩ := h
  have hnodup := ofSteps_ends hdrawn
  split at h
  · obtain rfl := Outcome.pure_eq_ok.mp h
    obtain ⟨edges, hperm, hsublist⟩ := (unlink_subperm _ _).trans (unlink_subperm drawn _)
    exact ((hperm.map Edge.ends).nodup_iff).mp ((hsublist.map Edge.ends).nodup hnodup)
  · obtain rfl := Outcome.pure_eq_ok.mp h
    exact hnodup

end Graph

end Flowchart

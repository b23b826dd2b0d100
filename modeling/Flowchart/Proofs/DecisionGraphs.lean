import Flowchart.Drawing
import Flowchart.Proofs.Decisions
import Flowchart.Proofs.Drawn

/-!
# Graphs with decisions in the place of switches

The plan of a recast tree has the same steps with recast tasks in them, and the same frontier. What
an edge out of a switch is labelled with depends on the heads of its branches alone, so the graphs
that are drawn have the same edges, and their vertices differ in the tasks only.
-/

namespace Flowchart

/-- Placements that differ in that the task of the first one is recast. -/
inductive Placement.Recast : Placement → Placement → Prop where
  | intro {p : Placement} {task : Task} : p.task.Recast task → Recast p { p with task := task }

inductive Step.Recast : Step → Step → Prop where
  | draw {p p' : Placement} : p.Recast p' → Recast (.draw p) (.draw p')
  | halt (error : Error) : Recast (.halt error) (.halt error)

/-- Plans with recast tasks and one frontier. -/
structure Plan.Recast (p p' : Plan) : Prop where
  steps : List.Forall₂ Step.Recast p.steps p'.steps
  frontier : p.frontier = p'.frontier

theorem Placement.Recast.refl (p : Placement) : p.Recast p := by
  obtain ⟨task, parent, position, aggregate, sources⟩ := p
  exact .intro (Task.Recast.refl task)

theorem Step.Recast.refl (step : Step) : step.Recast step := by
  cases step with
  | draw p => exact .draw (Placement.Recast.refl p)
  | halt error => exact .halt error

namespace Plan

variable {p p' : Plan}

theorem Recast.refl (p : Plan) : p.Recast p :=
  ⟨List.forall₂_same.mpr fun step _ => Step.Recast.refl step, rfl⟩

theorem recast_vertex {t t' : Task} (h : t.Recast t') (parent : TreePath) (position : Option Nat)
    (aggregate : Option Aggregate) (sources : List String) :
    (vertex ⟨t, parent, position, aggregate, sources⟩).Recast
      (vertex ⟨t', parent, position, aggregate, sources⟩) where
  steps := .cons (.draw (.intro h)) .nil
  frontier := congrArg (fun r => [r]) h.reference_eq

theorem Recast.andThen {next next' : List String → Plan} (h : p.Recast p')
    (hnext : ∀ sources, (next sources).Recast (next' sources)) :
    (p.andThen next).Recast (p'.andThen next') := by
  unfold Plan.andThen
  rw [h.frontier]
  exact ⟨List.rel_append h.steps (hnext p'.frontier).steps, (hnext p'.frontier).frontier⟩

theorem recast_beside {ps ps' : List Plan} (h : List.Forall₂ Recast ps ps') :
    (beside ps).Recast (beside ps') where
  steps := List.rel_flatMap h fun _ _ hp => hp.steps
  frontier := by
    change ps.flatMap Plan.frontier = ps'.flatMap Plan.frontier
    rw [List.flatMap_def, List.flatMap_def, rel_map_eq h fun _ _ hp => hp.frontier]

theorem recast_attempt {α : Type} (result : Except Error α) {next next' : α → Plan}
    (h : ∀ a, (next a).Recast (next' a)) :
    (attempt result next).Recast (attempt result next') := by
  cases result with
  | ok a => exact h a
  | error error => exact .refl _

end Plan

/-- Walks that come to recast plans wherever they are planned. -/
def Walk.Recast (w w' : Walk) : Prop :=
  ∀ path position sources, (w path position sources).Recast (w' path position sources)

theorem Plan.recast_sequence {walks walks' : List Walk} (h : List.Forall₂ Walk.Recast walks walks')
    (path : TreePath) (sources : List String) :
    (sequence path walks sources).Recast (sequence path walks' sources) := by
  unfold sequence
  generalize 0 = position
  induction h generalizing position sources with
  | nil => exact .refl _
  | cons hw _ ih =>
    exact (hw path position sources).andThen fun sources => ih sources (position + 1)

theorem rel_mapIdx {α β γ δ : Type} {R : α → β → Prop} {S : γ → δ → Prop} {as : List α}
    {bs : List β} {f : Nat → α → γ} {f' : Nat → β → δ} (h : List.Forall₂ R as bs)
    (hf : ∀ i a b, R a b → S (f i a) (f' i b)) : List.Forall₂ S (as.mapIdx f) (bs.mapIdx f') := by
  induction h generalizing f f' with
  | nil => exact .nil
  | cons hab _ ih =>
    rw [List.mapIdx_cons, List.mapIdx_cons]
    exact .cons (hf 0 _ _ hab) (ih fun i => hf (i + 1))

namespace Task

variable {settings : Settings} {history : History} {t t' : Task}

/-- The iterations of a loop are found by the references of the tasks inside it. -/
theorem Recast.planIterations_eq (h : t.Recast t') (bar : Task) (path : TreePath) (position : Nat) :
    planIterations history t bar path position = planIterations history t' bar path position := by
  have hany : ∀ recorded : String,
      (t.descendants.any fun u => isIterationOf u.reference recorded) =
        t'.descendants.any fun u => isIterationOf u.reference recorded := by
    intro recorded
    have hreferences : t.descendants.map Task.reference = t'.descendants.map Task.reference :=
      rel_map_eq h.descendants fun _ _ hu => hu.reference_eq
    have hmapped := congrArg (List.any · (isIterationOf · recorded)) hreferences
    simpa only [List.any_map, Function.comp_def] using hmapped
  unfold planIterations
  simp only [hany, h.reference_eq]

theorem Recast.loopEnd_eq (h : t.Recast t') : t.loopEnd = t'.loopEnd := by
  cases h
  rfl

theorem Recast.plan (h : t.Recast t') :
    Walk.Recast (t.plan settings history) (t'.plan settings history) := by
  refine h.fold fun t t' k k' ht hk path position sources => ?_
  have hself := Plan.recast_vertex ht path (some position) none sources
  cases hk with
  | @leaf k hnil =>
    cases k with
    | terminate => exact ⟨hself.steps, rfl⟩
    | fork branches =>
      rw [show branches = [] from hnil]
      exact hself
    | dynamicFork tasksParam inputParam =>
      dsimp only
      rw [ht.reference_eq]
      exact hself.andThen fun _ => .refl _
    | switch form s => cases hnil
    | loop condition body => cases hnil
    | _ => exact hself
  | fork hbranches =>
    cases hbranches with
    | nil => exact hself
    | cons hfirst hrest =>
      refine hself.andThen fun sources => Plan.recast_beside ?_
      exact rel_mapIdx (.cons hfirst hrest) fun i _ _ hwalks =>
        Plan.recast_sequence hwalks _ sources
  | switch _ hs =>
    refine hself.andThen fun sources => Plan.recast_beside (.cons ?_ ?_)
    · exact Plan.recast_sequence hs.otherwise _ sources
    · rw [List.forall₂_map_left_iff, List.forall₂_map_right_iff]
      refine hs.cases.imp fun c c' hc => ?_
      rw [hc.key_eq]
      exact Plan.recast_sequence hc.value _ sources
  | loop hbody =>
    dsimp only
    rw [ht.reference_eq, ht.loopEnd_eq]
    refine Plan.recast_attempt _ fun latest => ?_
    cases latest with
    | some a =>
      dsimp only
      rw [ht.planIterations_eq]
      exact hself.andThen fun _ => .refl _
    | none =>
      exact hself.andThen fun sources => (Plan.recast_sequence hbody _ sources).andThen fun _ =>
        .refl _

end Task

theorem Plan.recast_ofTasks {tasks tasks' : List Task} (settings : Settings) (history : History)
    (h : List.Forall₂ Task.Recast tasks tasks') :
    (ofTasks settings history tasks).Recast (ofTasks settings history tasks') := by
  have hwalks : List.Forall₂ Walk.Recast (tasks.map (Task.plan settings history))
      (tasks'.map (Task.plan settings history)) := by
    rw [List.forall₂_map_left_iff, List.forall₂_map_right_iff]
    exact h.imp fun _ _ ht => ht.plan
  exact (Recast.refl _).andThen fun sources =>
    (recast_sequence hwalks .root sources).andThen fun _ => .refl _

/-- Vertices that differ in that the task of the first one is recast. -/
inductive Vertex.Recast : Vertex → Vertex → Prop where
  | intro {v : Vertex} {task : Task} : v.task.Recast task → Recast v { v with task := task }

/-- Graphs with recast tasks in their vertices and the same edges. -/
structure Graph.Recast (g g' : Graph) : Prop where
  vertices : List.Forall₂ Vertex.Recast g.vertices g'.vertices
  edges : g.edges = g'.edges
  links : g.links = g'.links

section

variable {v v' : Vertex} {p p' : Placement} {s s' : Switch (List Task)} {g g' : Graph}

theorem Vertex.Recast.task (h : v.Recast v') : v.task.Recast v'.task := by
  cases h
  assumption

theorem Vertex.Recast.reference_eq (h : v.Recast v') : v.reference = v'.reference :=
  h.task.reference_eq

theorem Vertex.Recast.isExecuted_eq (h : v.Recast v') : v.isExecuted = v'.isExecuted := by
  cases h
  rfl

theorem Vertex.Recast.parent_eq (h : v.Recast v') : v.parent = v'.parent := by
  cases h
  rfl

theorem Vertex.Recast.position_eq (h : v.Recast v') : v.position = v'.position := by
  cases h
  rfl

theorem Placement.Recast.task (h : p.Recast p') : p.task.Recast p'.task := by
  cases h
  assumption

theorem Placement.Recast.sources_eq (h : p.Recast p') : p.sources = p'.sources := by
  cases h
  rfl

theorem Placement.Recast.toVertex (h : p.Recast p') (history : History) :
    (p.toVertex history).Recast (p'.toVertex history) := by
  obtain ⟨htask⟩ := h
  unfold Placement.toVertex
  rw [← htask.reportRef_eq]
  exact .intro (v := p.toVertex history) htask

namespace Switch

theorem head?_eq {tasks tasks' : List Task} (h : List.Forall₂ Task.Recast tasks tasks') :
    head? tasks = head? tasks' := by
  cases h with
  | nil => rfl
  | cons ht _ => exact congrArg some ht.reference_eq

/-- The keys of the first cases that are alike in some way. -/
theorem rel_findKey_eq {σ : Type} {r : σ → σ → Prop} {cases cases' : List (String × σ)}
    {p : String × σ → Bool} (h : List.Forall₂ (CaseRecast r) cases cases')
    (hp : ∀ c c', CaseRecast r c c' → p c = p c') :
    (cases.find? p).map (·.1) = (cases'.find? p).map (·.1) := by
  have hfound := rel_find? h hp
  generalize cases.find? p = found at hfound ⊢
  generalize cases'.find? p = found' at hfound ⊢
  cases hfound with
  | none => rfl
  | some hc => exact congrArg some hc.key_eq

variable (h : s.Recast (List.Forall₂ Task.Recast) s')

include h

theorem Recast.opensDefault_eq (r : String) : s.opensDefault r = s'.opensDefault r := by
  rw [opensDefault, opensDefault, head?_eq h.otherwise]

theorem Recast.caseOpenedBy?_eq (r : String) : s.caseOpenedBy? r = s'.caseOpenedBy? r := by
  exact rel_findKey_eq h.cases fun c c' hc => by rw [head?_eq hc.value]

theorem Recast.openings_eq : s.openings = s'.openings := by
  rw [openings, openings, ← List.forall₂_eq_eq_eq]
  refine List.rel_filterMap (fun tasks tasks' htasks => ?_) h.sequences
  rw [head?_eq htasks]
  cases head? tasks' with
  | none => exact .none
  | some r => exact .some rfl

theorem Recast.taken_eq (history : History) (r : String) :
    s.taken history r = s'.taken history r := by
  rw [taken, taken, h.opensDefault_eq, h.caseOpenedBy?_eq, h.openings_eq]

theorem Recast.caseValue?_eq (r : String) : s.caseValue? r = s'.caseValue? r := by
  have hkeys : (s.cases.find? (·.2.isEmpty)).map (·.1) =
      (s'.cases.find? (·.2.isEmpty)).map (·.1) :=
    rel_findKey_eq h.cases fun c c' hc => rel_isEmpty hc.value
  rw [caseValue?, caseValue?, h.opensDefault_eq, h.caseOpenedBy?_eq, rel_isEmpty h.otherwise, hkeys]

end Switch

namespace Graph

theorem Recast.references_eq (h : g.Recast g') : g.references = g'.references :=
  rel_map_eq h.vertices fun _ _ hv => hv.reference_eq

theorem Recast.contains_eq (h : g.Recast g') (r : String) : g.contains r = g'.contains r := by
  rw [Bool.eq_iff_iff, contains_iff, contains_iff, h.references_eq]

theorem Recast.vertex? (h : g.Recast g') (r : String) :
    Option.Rel Vertex.Recast (g.vertex? r) (g'.vertex? r) :=
  rel_find? h.vertices fun v v' hv => by rw [hv.reference_eq]

theorem Recast.putVertex (h : g.Recast g') (hv : v.Recast v') :
    (g.putVertex v).Recast (g'.putVertex v') := by
  unfold Graph.putVertex
  rw [h.contains_eq, hv.reference_eq]
  split
  · refine ⟨?_, h.edges, h.links⟩
    dsimp only
    rw [List.forall₂_map_left_iff, List.forall₂_map_right_iff]
    refine h.vertices.imp fun u u' hu => ?_
    rw [hu.reference_eq]
    split
    · exact hv
    · exact hu
  · exact ⟨List.rel_append h.vertices (.cons hv .nil), h.edges, h.links⟩

theorem Recast.putEdge (h : g.Recast g') (source target : String) (label : EdgeLabel) :
    Outcome.Rel Eq Recast (g.putEdge source target label) (g'.putEdge source target label) := by
  unfold Graph.putEdge
  rw [h.contains_eq, h.contains_eq, h.edges, h.links]
  cases g'.contains source
  · exact .error rfl
  cases g'.contains target
  · exact .error rfl
  cases g'.edges.any (·.joins source target)
  · exact .ok ⟨h.vertices, rfl, rfl⟩
  · exact .ok ⟨h.vertices, rfl, rfl⟩

theorem Recast.edgeFrom_eq (h : g.Recast g') (hp : p.Recast p') (history : History)
    (source : String) : p.edgeFrom history g source = p'.edgeFrom history g' source := by
  have hexecuted : ∀ latest, p.isExecuted latest = p'.isExecuted latest := by
    cases hp
    exact fun _ => rfl
  have hvertex := h.vertex? source
  unfold Placement.edgeFrom
  generalize g.vertex? source = found at hvertex ⊢
  generalize g'.vertex? source = found' at hvertex ⊢
  cases hvertex with
  | none => rfl
  | @some v v' hv =>
    have hswitch := hv.task.kind.switch?
    dsimp only
    rw [hp.task.reportRef_eq, hp.task.reference_eq, hv.isExecuted_eq]
    generalize v.task.kind.switch? = o at hswitch ⊢
    generalize v'.task.kind.switch? = o' at hswitch ⊢
    cases hswitch with
    | none => rw [hexecuted]
    | some hs =>
      dsimp only
      rw [hs.caseValue?_eq, hs.taken_eq]

theorem Recast.draw (h : g.Recast g') (hp : p.Recast p') (history : History) :
    Outcome.Rel Eq Recast (g.draw history p) (g'.draw history p') := by
  unfold Graph.draw
  simp only [h.edgeFrom_eq hp, hp.sources_eq, hp.task.reference_eq]
  refine Outcome.Rel.bind (Outcome.Rel.of_eq rfl) fun edges edges' hedges => ?_
  subst hedges
  refine Outcome.Rel.foldlM (List.forall₂_same.mpr fun _ _ => rfl)
    (h.putVertex (hp.toVertex history)) fun g g' edge edge' hg hedge => ?_
  subst hedge
  exact hg.putEdge edge.1 _ edge.2

theorem Recast.unlink (h : g.Recast g') (q : Edge → Bool) : (g.unlink q).Recast (g'.unlink q) := by
  refine ⟨h.vertices, ?_, h.links⟩
  rw [Graph.unlink, Graph.unlink, h.edges, h.links]

end Graph

end

section

variable {α β : Type} {R : α → β → Prop} {as : List α} {bs : List β}

theorem rel_swapErase (h : List.Forall₂ R as bs) (i : Nat) :
    List.Forall₂ R (swapErase as i) (swapErase bs i) := by
  have hlast : Option.Rel R as.getLast? bs.getLast? := by
    rw [List.getLast?_eq_getElem?, List.getLast?_eq_getElem?, h.length_eq]
    exact rel_getElem? h _
  unfold swapErase
  rw [h.length_eq]
  generalize as.getLast? = last at hlast ⊢
  generalize bs.getLast? = last' at hlast ⊢
  cases hlast with
  | none => exact h
  | some hab =>
    dsimp only
    split
    · have hset := rel_set h hab i
      rw [List.dropLast_eq_take, List.dropLast_eq_take, hset.length_eq]
      exact List.forall₂_take _ hset
    · exact h

theorem rel_swapEraseP {p : α → Bool} {q : β → Bool} (h : List.Forall₂ R as bs)
    (hpq : ∀ a b, R a b → p a = q b) :
    List.Forall₂ R (swapEraseP p as) (swapEraseP q bs) := by
  have hfound : as.findIdx? p = bs.findIdx? q := by
    induction h with
    | nil => rfl
    | cons hab _ ih => rw [List.findIdx?_cons, List.findIdx?_cons, hpq _ _ hab, ih]
  unfold swapEraseP
  rw [hfound]
  cases bs.findIdx? q with
  | none => exact h
  | some i => exact rel_swapErase h i

end

namespace Graph

variable {g g' : Graph}

theorem Recast.eraseVertex (h : g.Recast g') (r : String) :
    (g.eraseVertex r).Recast (g'.eraseVertex r) := by
  have hlinks := (h.unlink (·.source == r)).unlink (·.target == r)
  exact ⟨rel_swapEraseP hlinks.vertices fun v v' hv => by rw [hv.reference_eq], hlinks.edges,
    hlinks.links⟩

/-- The graphs of a tree and of a recast tree are drawn alike, or the drawing stops with one
error. -/
theorem recast_ofTasks {tasks tasks' : List Task} (settings : Settings) (history : History)
    (h : List.Forall₂ Task.Recast tasks tasks') :
    Outcome.Rel Eq Recast (ofTasks settings history tasks) (ofTasks settings history tasks') := by
  unfold ofTasks ofSteps
  have hempty : empty.Recast empty := ⟨.nil, rfl, rfl⟩
  refine (Outcome.Rel.foldlM (Plan.recast_ofTasks settings history h).steps hempty
    fun g g' step step' hg hstep => ?_).bind fun g g' hg => ?_
  · cases hstep with
    | draw hp => exact hg.draw hp history
    | halt error => exact .error rfl
  · rw [inDegree, inDegree, hg.edges]
    split
    · exact .ok (hg.eraseVertex finalBubble)
    · exact .ok hg

end Graph

end Flowchart

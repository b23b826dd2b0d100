import Flowchart.Proofs.DrawingOrder
import Flowchart.Proofs.PathLanguage
import Flowchart.Proofs.RunRecords
import Flowchart.Proofs.VisibleTasks

/-!
# Distinct references can be drawn

A plan stops only at what a history cannot tell of, and a drawing only at a source that is not
there, or at an edge out of a switch that belongs to no case. If no two things are drawn under one
reference and the attempts are those of tasks, then the drawing never stops, and the plan stops only
at a child that was never tried: one that a fork carries from before its attempts were bound.
-/

namespace Flowchart

section

variable {settings : Settings} {history : History} {path : TreePath} {position : Nat}
  {sources : List String} {tasks : List Task}

theorem Plan.completes_attempt {α : Type} {result : Except Error α} {next : α → Plan} {a : α}
    (hresult : result = .ok a) (hnext : (next a).Completes) : (attempt result next).Completes := by
  rw [hresult]
  exact hnext

/-- The references that a diagram draws: those of the bubbles, and between them what the tasks come
to. -/
def diagramRefs (settings : Settings) (history : History) (tasks : List Task) : List String :=
  startBubble :: drawnRefs settings history tasks ++ [finalBubble]

end

namespace Graph

variable {settings : Settings} {history : History} {g : Graph} {p : Placement}
  {ps : List Placement} {tasks : List Task}

theorem contains_of_joins {g' : Graph} (h : g'.vertices = g.vertices) (r : String) :
    g'.contains r = g.contains r := by
  rw [contains, h, contains]

theorem exists_putEdge {u v : String} {label : EdgeLabel} (hu : g.contains u = true)
    (hv : g.contains v = true) : ∃ g', g.putEdge u v label = .ok g' := by
  unfold putEdge
  rw [hu, hv]
  cases hjoined : g.edges.any (·.joins u v)
  · exact ⟨_, rfl⟩
  · exact ⟨_, rfl⟩

theorem exists_putEdges {edges : List (String × EdgeLabel)} {v : String}
    (hedges : ∀ edge ∈ edges, g.contains edge.1 = true) (hv : g.contains v = true) :
    ∃ g', edges.foldlM (fun g edge => g.putEdge edge.1 v edge.2) g = .ok g' := by
  induction edges generalizing g with
  | nil => exact ⟨g, rfl⟩
  | cons edge edges ih =>
    obtain ⟨hfirst, hrest⟩ := List.forall_mem_cons.mp hedges
    obtain ⟨m, hm⟩ : ∃ m, g.putEdge edge.1 v edge.2 = .ok m := exists_putEdge hfirst hv
    have hkeeps := contains_of_joins (putEdge_changes hm).1
    obtain ⟨g', hg'⟩ := ih (g := m) (fun e he => by rw [hkeeps, hrest e he]) (by rw [hkeeps, hv])
    exact ⟨g', by rw [List.foldlM_cons, hm]; exact hg'⟩

/-- An edge can be labelled if its source is drawn and admits what it leads to. -/
theorem Shows.exists_edgeFrom (hg : g.Shows history ps) (hnodup : (ps.map Placement.reference).Nodup)
    {q : Placement} (hq : q ∈ ps) (hadmits : q.task.Admits p.reference) :
    ∃ label, p.edgeFrom history g q.reference = .ok label := by
  unfold Placement.edgeFrom
  rw [hg.vertex?_eq hnodup hq]
  dsimp only [Placement.toVertex]
  cases hswitch : q.task.kind.switch? with
  | none => exact ⟨_, rfl⟩
  | some s =>
    obtain ⟨value, hvalue⟩ := Option.isSome_iff_exists.mp (hadmits s hswitch)
    rw [Placement.reference] at hvalue
    dsimp only
    rw [hvalue]
    exact ⟨_, rfl⟩

theorem Shows.exists_draw (hg : g.Shows history ps) (hnodup : (ps.map Placement.reference).Nodup)
    (hsources : ∀ s ∈ p.sources, ∃ q ∈ ps, q.reference = s ∧ q.task.Admits p.reference) :
    ∃ g', g.draw history p = .ok g' := by
  have hlabels : ∀ s ∈ p.sources, ∃ edge, (do pure (s, ← p.edgeFrom history g s)) =
      (Except.ok edge : Except Error (String × EdgeLabel)) := by
    intro s hs
    obtain ⟨q, hq, rfl, hadmits⟩ := hsources s hs
    obtain ⟨label, hlabel⟩ := hg.exists_edgeFrom hnodup hq hadmits
    exact ⟨(q.reference, label), by rw [hlabel]; rfl⟩
  obtain ⟨edges, hedges⟩ := Outcome.exists_mapM_eq_ok hlabels
  have hdrawn : ∀ edge ∈ edges, (g.putVertex (p.toVertex history)).contains edge.1 = true := by
    intro edge hedge
    obtain ⟨s, hs, heq⟩ := (Outcome.mem_of_mapM hedges).1 edge hedge
    obtain ⟨label, -, heq⟩ := Outcome.bind_eq_ok.mp heq
    obtain rfl := Outcome.pure_eq_ok.mp heq
    obtain ⟨q, hq, rfl, -⟩ := hsources s hs
    rw [contains_iff, mem_references_putVertex, hg.references_eq]
    exact Or.inl (List.mem_map_of_mem hq)
  have hself : (g.putVertex (p.toVertex history)).contains p.reference = true := by
    rw [contains_iff, mem_references_putVertex]
    exact Or.inr rfl
  obtain ⟨g', hg'⟩ := exists_putEdges hdrawn hself
  exact ⟨g', Outcome.bind_eq_ok.mpr ⟨edges, hedges, hg'⟩⟩

theorem Shows.exists_steps {steps : List Step} (hg : g.Shows history ps)
    (hruns : ∀ error, Step.halt error ∉ steps)
    (horder : Placement.InOrder ps (steps.filterMap Step.placement?))
    (hnodup : ((ps ++ steps.filterMap Step.placement?).map Placement.reference).Nodup) :
    ∃ g', steps.foldlM (step history) g = .ok g' := by
  induction steps generalizing g ps with
  | nil => exact ⟨g, rfl⟩
  | cons first steps ih =>
    cases first with
    | halt error => exact absurd List.mem_cons_self (hruns error)
    | draw p =>
      have happend : ps ++ (Step.draw p :: steps).filterMap Step.placement? =
          ps ++ [p] ++ steps.filterMap Step.placement? := by
        simp [Step.placement?]
      rw [happend] at hnodup
      have hdrawn := hnodup
      rw [List.map_append, List.map_append, List.map_singleton] at hdrawn
      obtain ⟨hps, -, hapart⟩ := List.nodup_append.mp hdrawn.of_append_left
      have hfresh : p.reference ∉ ps.map Placement.reference := fun hmem =>
        hapart _ hmem _ (List.mem_singleton_self _) rfl
      obtain ⟨m, hm⟩ := hg.exists_draw hps horder.1
      obtain ⟨g', hg'⟩ := ih (hg.draw hfresh hm)
        (fun error hhalt => hruns error (List.mem_cons_of_mem _ hhalt)) horder.2 hnodup
      exact ⟨g', by rw [List.foldlM_cons]; exact Outcome.bind_eq_ok.mpr ⟨m, hm, hg'⟩⟩

theorem exists_of_completes (hfiled : history.Filed)
    (hcompletes : (Plan.ofTasks settings history tasks).Completes)
    (hnodup : (Plan.ofTasks settings history tasks).references.Nodup) :
    ∃ g, Graph.ofTasks settings history tasks = .ok g := by
  have hempty : empty.Shows history [] :=
    ⟨rfl, fun _ he => absurd he List.not_mem_nil, fun _ hp => absurd hp List.not_mem_nil⟩
  obtain ⟨g, hg⟩ := hempty.exists_steps hcompletes (Plan.ofTasks_inOrder hfiled hcompletes) hnodup
  rw [ofTasks, ofSteps, hg]
  change ∃ g', (if g.inDegree finalBubble = 0 then _ else _) = _
  split <;> exact ⟨_, rfl⟩

end Graph

namespace Sample

end Sample

end Flowchart

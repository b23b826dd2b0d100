import Flowchart.Drawing
import Flowchart.Proofs.Placements

/-!
# Relabelled graphs

A graph finds its vertices by their references and its edges by their ends. Whatever else stands in
them may be changed before a vertex or an edge is put in or taken out, or after that.
-/

namespace Flowchart

section

variable {α β : Type} {f : α → β}

theorem swapErase_map (as : List α) (i : Nat) :
    swapErase (as.map f) i = (swapErase as i).map f := by
  unfold swapErase
  rw [List.getLast?_map, List.length_map]
  cases as.getLast? with
  | none => rfl
  | some last =>
    dsimp only [Option.map_some]
    split
    · rw [← List.map_set, List.map_dropLast]
    · rfl

theorem swapEraseP_map {p : β → Bool} {q : α → Bool} (h : ∀ a, p (f a) = q a) (as : List α) :
    swapEraseP p (as.map f) = (swapEraseP q as).map f := by
  have hfound : (as.map f).findIdx? p = as.findIdx? q := by
    rw [List.findIdx?_map]
    exact congrArg (as.findIdx? ·) (funext h)
  unfold swapEraseP
  rw [hfound]
  cases as.findIdx? q with
  | none => rfl
  | some i => exact swapErase_map as i

end

def Edge.relabel (k : EdgeLabel → EdgeLabel) (e : Edge) : Edge := { e with label := k e.label }

namespace Graph

/-- The graph with something else in its vertices and its edges. -/
def relabel (f : Vertex → Vertex) (k : EdgeLabel → EdgeLabel) (g : Graph) : Graph where
  vertices := g.vertices.map f
  edges := g.edges.map (Edge.relabel k)
  links := g.links

variable {f : Vertex → Vertex} {k : EdgeLabel → EdgeLabel}

theorem any_joins_relabel (g : Graph) (u v : String) :
    (g.relabel f k).edges.any (·.joins u v) = g.edges.any (·.joins u v) := List.any_map

theorem inDegree_relabel (g : Graph) (r : String) :
    (g.relabel f k).inDegree r = g.inDegree r := List.countP_map

theorem unlink_relabel {p : Edge → Bool} (hp : ∀ e, p (e.relabel k) = p e) (g : Graph) :
    (g.unlink p).relabel f k = (g.relabel f k).unlink p := by
  have herased : ∀ (serials : List Nat) (edges : List Edge),
      (serials.foldl (fun edges serial => swapEraseP (fun e => e.serial == serial && p e) edges)
        edges).map (Edge.relabel k) =
      serials.foldl (fun edges serial => swapEraseP (fun e => e.serial == serial && p e) edges)
        (edges.map (Edge.relabel k)) := by
    intro serials
    induction serials with
    | nil => exact fun edges => rfl
    | cons serial serials ih =>
      intro edges
      have hfirst := swapEraseP_map (f := Edge.relabel k)
        (p := fun e => e.serial == serial && p e) (q := fun e => e.serial == serial && p e)
        (fun e => congrArg (e.serial == serial && ·) (hp e)) edges
      rw [List.foldl_cons, List.foldl_cons, ih, hfirst]
  rw [unlink, relabel, herased]
  rfl

section

variable (hf : ∀ v, (f v).reference = v.reference)

include hf

theorem contains_relabel (g : Graph) (r : String) :
    (g.relabel f k).contains r = g.contains r := by
  rw [contains, contains, relabel, List.any_map]
  exact congrArg g.vertices.any (funext fun v => congrArg (· == r) (hf v))

theorem vertex?_relabel (g : Graph) (r : String) :
    (g.relabel f k).vertex? r = (g.vertex? r).map f := by
  rw [vertex?, vertex?, relabel, List.find?_map]
  exact congrArg (fun p => (g.vertices.find? p).map f) (funext fun v => congrArg (· == r) (hf v))

theorem putVertex_relabel (g : Graph) (v : Vertex) :
    (g.putVertex v).relabel f k = (g.relabel f k).putVertex (f v) := by
  unfold putVertex
  rw [contains_relabel hf, hf]
  split
  · have hreplaced : (g.vertices.map fun u => if u.reference = v.reference then v else u).map f =
        (g.vertices.map f).map fun u => if u.reference = v.reference then f v else u := by
      rw [List.map_map, List.map_map]
      refine List.map_congr_left fun u _ => ?_
      dsimp only [Function.comp_apply]
      rw [hf, apply_ite f]
    rw [relabel, hreplaced]
    rfl
  · rw [relabel, List.map_append]
    rfl

theorem putEdge_relabel (g : Graph) (u v : String) (label : EdgeLabel) :
    (g.putEdge u v label).map (relabel f k) = (g.relabel f k).putEdge u v (k label) := by
  unfold putEdge
  rw [contains_relabel hf, contains_relabel hf, any_joins_relabel]
  cases g.contains u
  · rfl
  cases g.contains v
  · rfl
  cases g.edges.any (·.joins u v)
  · change Except.ok _ = Except.ok _
    rw [relabel, List.map_append]
    rfl
  · have hreplaced : (g.edges.map fun e => if e.joins u v then { e with label := label } else e).map
        (Edge.relabel k) = (g.edges.map (Edge.relabel k)).map fun e =>
          if e.joins u v then { e with label := k label } else e := by
      rw [List.map_map, List.map_map]
      refine List.map_congr_left fun e _ => ?_
      exact apply_ite (Edge.relabel k) _ _ _
    change Except.ok _ = Except.ok _
    rw [relabel, hreplaced]
    rfl

theorem eraseVertex_relabel (g : Graph) (r : String) :
    (g.eraseVertex r).relabel f k = (g.relabel f k).eraseVertex r := by
  have hlinks : ((g.unlink (·.source == r)).unlink (·.target == r)).relabel f k =
      ((g.relabel f k).unlink (·.source == r)).unlink (·.target == r) := by
    rw [unlink_relabel fun _ => rfl, unlink_relabel fun _ => rfl]
  have hvertices : ∀ vs : List Vertex, swapEraseP (·.reference == r) (vs.map f) =
      (swapEraseP (·.reference == r) vs).map f :=
    swapEraseP_map fun v => by rw [hf]
  unfold eraseVertex
  dsimp only
  rw [← hlinks, relabel, relabel, ← hvertices]

/-- What a placement puts in may be changed before or after it is drawn. -/
theorem draw_relabel {history history' : History} {p : Placement} {g : Graph}
    (hvertex : f (p.toVertex history) = p.toVertex history')
    (hlabels : ∀ s ∈ p.sources,
      (p.edgeFrom history g s).map k = p.edgeFrom history' (g.relabel f k) s) :
    (g.draw history p).map (relabel f k) = (g.relabel f k).draw history' p := by
  have hedges : (p.sources.mapM (fun s => do pure (s, ← p.edgeFrom history g s))).map
      (List.map fun edge : String × EdgeLabel => (edge.1, k edge.2)) =
        p.sources.mapM (fun s => do pure (s, ← p.edgeFrom history' (g.relabel f k) s)) := by
    refine Outcome.map_mapM fun s hs => ?_
    rw [← hlabels s hs]
    exact Outcome.map_bind fun label => rfl
  unfold draw
  rw [← hedges, ← hvertex, ← putVertex_relabel hf]
  refine Outcome.map_bind fun edges => Outcome.map_foldlM fun g edge _ => ?_
  exact putEdge_relabel hf g edge.1 _ edge.2

theorem ofTasks_relabel {settings : Settings} {history history' : History} {tasks : List Task}
    (hplan : Plan.ofTasks settings history tasks = Plan.ofTasks settings history' tasks)
    (hdraw : ∀ g : Graph, ∀ p ∈ (Plan.ofTasks settings history tasks).placements,
      (g.draw history p).map (relabel f k) = (g.relabel f k).draw history' p) :
    (ofTasks settings history tasks).map (relabel f k) = ofTasks settings history' tasks := by
  have hsteps : (ofSteps history (Plan.ofTasks settings history tasks).steps).map (relabel f k) =
      ofSteps history' (Plan.ofTasks settings history' tasks).steps := by
    rw [← hplan, ofSteps, ofSteps]
    refine (Outcome.map_foldlM fun g step hstep => ?_).trans (by rw [List.map_id]; rfl)
    cases step with
    | halt error => rfl
    | draw p => exact hdraw g p (List.mem_filterMap.mpr ⟨_, hstep, rfl⟩)
  rw [ofTasks, ofTasks, ← hsteps]
  refine Outcome.map_bind fun g => ?_
  rw [inDegree_relabel]
  split
  · exact congrArg Except.ok (eraseVertex_relabel hf g finalBubble)
  · rfl

end

end Graph

end Flowchart

import Flowchart.Proofs.Bindings
import Flowchart.Proofs.Drawable
import Flowchart.Proofs.SwapErasure
import Mathlib.Data.Set.Card

/-!
# Graphs as maps

A graph is two finite maps: one from references to vertices, and one from ordered pairs of
references to labels. Each change of a graph is a change of these maps, and what is asked of the
graph can be answered from them. Only the order of the vertices and the edges is not in the maps.
-/

namespace Flowchart

structure GraphMaps where
  vertex? : String → Option Vertex
  label? : String → String → Option EdgeLabel

inductive GraphChange where
  | putVertex (v : Vertex)
  | eraseVertex (reference : String)
  | putEdge (source target : String) (label : EdgeLabel)

/-- What a change answers: the vertex that it took out, or an error. -/
abbrev GraphChange.Answer := Except Error (Option Vertex)

/-- Makes changes one after the other. -/
def GraphChange.run {σ : Type} (perform : σ → GraphChange → Answer × σ) :
    σ → List GraphChange → List Answer × σ
  | state, [] => ([], state)
  | state, change :: rest =>
    let (answer, state) := perform state change
    let (answers, state) := run perform state rest
    (answer :: answers, state)

namespace GraphMaps

def empty : GraphMaps := ⟨fun _ => none, fun _ _ => none⟩

def putVertex (m : GraphMaps) (v : Vertex) : GraphMaps where
  vertex? r := if r = v.reference then some v else m.vertex? r
  label? := m.label?

def eraseVertex (m : GraphMaps) (reference : String) : GraphMaps where
  vertex? r := if r = reference then none else m.vertex? r
  label? u v := if u = reference ∨ v = reference then none else m.label? u v

def putEdge (m : GraphMaps) (source target : String) (label : EdgeLabel) :
    Except Error GraphMaps :=
  if m.vertex? source = none then .error (.notFound .vertex source)
  else if m.vertex? target = none then .error (.notFound .vertex target)
  else .ok { m with
    label? := fun u v => if (u, v) = (source, target) then some label else m.label? u v }

def perform (m : GraphMaps) : GraphChange → GraphChange.Answer × GraphMaps
  | .putVertex v => (.ok none, m.putVertex v)
  | .eraseVertex r => (.ok (m.vertex? r), m.eraseVertex r)
  | .putEdge source target label =>
    match m.putEdge source target label with
    | .ok m' => (.ok none, m')
    | .error error => (.error error, m)

def run (changes : List GraphChange) : List GraphChange.Answer × GraphMaps :=
  GraphChange.run perform empty changes

end GraphMaps

/-- Everything that can be asked of a graph. -/
structure GraphView where
  vertices : List Vertex
  /-- The edges by the references that they join. -/
  edges : List (String × String × EdgeLabel)
  vertex? : String → Option Vertex
  contains : String → Bool
  edge? : String → String → Option EdgeLabel
  vertexCount : Nat
  edgeCount : Nat
  inDegree : String → Nat
  successors : String → List String
  predecessors : String → List String

namespace GraphView

variable {view : GraphView} {m : GraphMaps}

def references (view : GraphView) : List String := view.vertices.map (·.reference)

/-- All answers are those of the two maps. -/
structure Agrees (view : GraphView) (m : GraphMaps) : Prop where
  vertex? : ∀ r, view.vertex? r = m.vertex? r
  contains : ∀ r, view.contains r = (m.vertex? r).isSome
  edge? : ∀ u v, view.edge? u v = m.label? u v
  vertexCount : {r | m.vertex? r ≠ none}.encard = view.vertexCount
  edgeCount : {ends : String × String | m.label? ends.1 ends.2 ≠ none}.encard = view.edgeCount
  inDegree : ∀ r, {u | m.label? u r ≠ none}.encard = view.inDegree r
  nodup_vertices : view.references.Nodup
  mem_vertices : ∀ v, v ∈ view.vertices ↔ m.vertex? v.reference = some v
  nodup_edges : (view.edges.map fun edge => (edge.1, edge.2.1)).Nodup
  mem_edges : ∀ u v label, (u, v, label) ∈ view.edges ↔ m.label? u v = some label
  successors : ∀ r, view.successors r = view.references.filter fun s => (m.label? r s).isSome
  predecessors : ∀ r, view.predecessors r = view.references.filter fun s => (m.label? s r).isSome

/-- The order of the edges is not in the maps. -/
theorem Agrees.of_edges_perm (h : view.Agrees m) {edges : List (String × String × EdgeLabel)}
    (hperm : edges.Perm view.edges) : Agrees { view with edges := edges } m :=
  { h with
    nodup_edges := (hperm.map _).nodup_iff.mpr h.nodup_edges
    mem_edges := fun u v label => hperm.mem_iff.trans (h.mem_edges u v label) }

end GraphView

def Edge.touches (e : Edge) (reference : String) : Bool :=
  e.source == reference || e.target == reference

namespace Graph

/-- Vertices and edges are told apart, edges join vertices that are there, and the numbers of the
edges say in which order they were linked. -/
structure Consistent (g : Graph) : Prop where
  references : g.references.Nodup
  ends : (g.edges.map Edge.ends).Nodup
  closed : ∀ e ∈ g.edges, e.source ∈ g.references ∧ e.target ∈ g.references
  serials : (g.edges.map (·.serial)).Nodup
  linked : ∀ e ∈ g.edges, e.serial < g.links

def maps (g : Graph) : GraphMaps := ⟨g.vertex?, g.edge?⟩

def view (g : Graph) : GraphView where
  vertices := g.vertices
  edges := g.edges.map fun e => (e.source, e.target, e.label)
  vertex? := g.vertex?
  contains := g.contains
  edge? := g.edge?
  vertexCount := g.vertexCount
  edgeCount := g.edgeCount
  inDegree := g.inDegree
  successors := g.successors
  predecessors := g.predecessors

def perform (g : Graph) : GraphChange → GraphChange.Answer × Graph
  | .putVertex v => (.ok none, g.putVertex v)
  | .eraseVertex r => (.ok (g.vertex? r), g.eraseVertex r)
  | .putEdge source target label =>
    match g.putEdge source target label with
    | .ok g' => (.ok none, g')
    | .error error => (.error error, g)

variable {g g' : Graph} {v : Vertex} {r u w : String} {label : EdgeLabel}

theorem Consistent.empty : Consistent Graph.empty :=
  ⟨List.nodup_nil, List.nodup_nil, nofun, List.nodup_nil, nofun⟩

/-- What is found by a key, where no two entries have one key. -/
theorem find?_key {α κ : Type} {q : α → Bool} {key : α → κ} {as : List α} {a : α} {k : κ}
    (hq : ∀ a, q a = true ↔ key a = k) (h : (as.map key).Nodup) :
    as.find? q = some a ↔ a ∈ as ∧ key a = k := by
  constructor
  · intro hfound
    exact ⟨List.mem_of_find?_eq_some hfound, (hq a).mp (List.find?_some hfound)⟩
  · rintro ⟨ha, rfl⟩
    obtain ⟨b, hb⟩ := Option.isSome_iff_exists.mp (List.find?_isSome.mpr ⟨a, ha, (hq a).mpr rfl⟩)
    have hkey := (hq b).mp (List.find?_some hb)
    rw [hb, List.inj_on_of_nodup_map h (List.mem_of_find?_eq_some hb) ha hkey]

theorem joins_iff_ends {e : Edge} : e.joins u w = true ↔ e.ends = (u, w) := by
  rw [Edge.joins_iff, Edge.ends, Prod.mk.injEq]

theorem vertex?_eq_some (h : g.Consistent) :
    g.vertex? r = some v ↔ v ∈ g.vertices ∧ v.reference = r :=
  find?_key (fun _ => beq_iff_eq) h.references

theorem edge?_eq_some (h : g.Consistent) :
    g.edge? u w = some label ↔ ∃ e ∈ g.edges, e.ends = (u, w) ∧ e.label = label := by
  rw [edge?, Option.map_eq_some_iff]
  simp only [find?_key (fun _ => joins_iff_ends) h.ends, and_assoc]

theorem isSome_vertex? : (g.vertex? r).isSome = g.contains r := by
  rw [Bool.eq_iff_iff, vertex?, List.find?_isSome, contains, List.any_eq_true]

theorem vertex?_eq_none : g.vertex? r = none ↔ g.contains r = false := by
  rw [← isSome_vertex?, Option.isSome_eq_false_iff, Option.isNone_iff_eq_none]

theorem references_putVertex (g : Graph) (v : Vertex) :
    (g.putVertex v).references = recordRef g.references v.reference := by
  unfold putVertex recordRef
  split
  · next hcontains =>
    rw [if_pos (contains_iff.mp hcontains), references, List.map_map]
    refine List.map_congr_left fun x _ => ?_
    dsimp only [Function.comp_apply]
    split
    · next heq => exact heq.symm
    · rfl
  · next hfresh =>
    rw [if_neg (mt contains_iff.mpr hfresh), references, List.map_append]
    rfl

theorem vertex?_putVertex :
    (g.putVertex v).vertex? r = if r = v.reference then some v else g.vertex? r := by
  unfold putVertex
  split
  · next hcontains =>
    have hsame : ((fun x : Vertex => x.reference == r) ∘
        fun x => if x.reference = v.reference then v else x) = fun x => x.reference == r := by
      funext x
      dsimp only [Function.comp_apply]
      split
      · next heq => rw [heq]
      · rfl
    rw [vertex?, List.find?_map, hsame]
    change (g.vertex? r).map _ = _
    cases hr : g.vertex? r with
    | none =>
      have hne : r ≠ v.reference := by
        rintro rfl
        rw [vertex?_eq_none.mp hr] at hcontains
        cases hcontains
      rw [if_neg hne]
      rfl
    | some x =>
      obtain ⟨-, rfl⟩ := vertex?_ok hr
      rw [Option.map_some]
      split <;> rfl
  · next hfresh =>
    rw [Bool.not_eq_true] at hfresh
    rw [vertex?, List.find?_append, List.find?_singleton]
    change (g.vertex? r).or _ = _
    by_cases heq : r = v.reference
    · rw [if_pos heq, heq, vertex?_eq_none.mpr hfresh, beq_self_eq_true]
      rfl
    · rw [if_neg heq, beq_false_of_ne (Ne.symm heq)]
      exact Option.or_none

theorem edges_putVertex (g : Graph) (v : Vertex) :
    (g.putVertex v).edges = g.edges ∧ (g.putVertex v).links = g.links := by
  unfold putVertex
  split <;> exact ⟨rfl, rfl⟩

theorem maps_putVertex (g : Graph) (v : Vertex) : (g.putVertex v).maps = g.maps.putVertex v := by
  have hvertex : (g.putVertex v).vertex? = (g.maps.putVertex v).vertex? :=
    funext fun r => vertex?_putVertex
  have hedge : (g.putVertex v).edge? = g.edge? := by
    funext u w
    rw [edge?, (edges_putVertex g v).1]
    rfl
  rw [maps, hvertex, hedge]
  rfl

theorem Consistent.putVertex (h : g.Consistent) (v : Vertex) : (g.putVertex v).Consistent := by
  obtain ⟨hedges, hlinks⟩ := edges_putVertex g v
  refine ⟨?_, hedges ▸ h.ends, ?_, hedges ▸ h.serials, hedges ▸ hlinks ▸ h.linked⟩
  · rw [references_putVertex]
    exact nodup_recordRef h.references _
  · rw [hedges]
    intro e he
    obtain ⟨hsource, htarget⟩ := h.closed e he
    exact ⟨mem_references_putVertex.mpr (Or.inl hsource),
      mem_references_putVertex.mpr (Or.inl htarget)⟩

theorem edge?_putEdge {a b : String} (h : g.putEdge u w label = .ok g') :
    g'.edge? a b = if (a, b) = (u, w) then some label else g.edge? a b := by
  obtain ⟨-, -, rfl⟩ := putEdge_ok h
  split
  · next hany =>
    have hsame : ((fun e : Edge => e.joins a b) ∘
        fun e : Edge => if e.joins u w then { e with label := label } else e) =
          fun e => e.joins a b := by
      funext e
      dsimp only [Function.comp_apply]
      split <;> rfl
    rw [edge?, List.find?_map, hsame, Option.map_map]
    cases hfound : g.edges.find? (·.joins a b) with
    | none =>
      have hne : (a, b) ≠ (u, w) := by
        rintro ⟨⟩
        obtain ⟨e, he, hjoins⟩ := List.any_eq_true.mp hany
        exact List.find?_eq_none.mp hfound e he hjoins
      rw [if_neg hne, edge?, hfound]
      rfl
    | some e =>
      have hjoins := joins_iff_ends.mp (List.find?_some (p := fun e : Edge => e.joins a b) hfound)
      rw [edge?, hfound, Option.map_some, Option.map_some, Function.comp_apply, ← hjoins]
      by_cases heq : e.joins u w = true
      · rw [if_pos heq, if_pos (joins_iff_ends.mp heq)]
      · rw [if_neg heq, if_neg (mt joins_iff_ends.mpr heq)]
  · next hapart =>
    have hnew : Edge.joins ⟨u, w, label, g.links⟩ a b = true ↔ (a, b) = (u, w) :=
      joins_iff_ends.trans eq_comm
    rw [edge?, List.find?_append, List.find?_singleton]
    by_cases heq : (a, b) = (u, w)
    · have hnone : g.edges.find? (·.joins a b) = none := by
        obtain ⟨rfl, rfl⟩ := Prod.mk.inj heq
        exact List.find?_eq_none.mpr fun e he hjoins =>
          hapart (List.any_eq_true.mpr ⟨e, he, hjoins⟩)
      rw [hnone, if_pos (hnew.mpr heq), if_pos heq]
      rfl
    · rw [if_neg (mt hnew.mp heq), if_neg heq, Option.or_none]
      rfl

theorem maps_putEdge (g : Graph) (u w : String) (label : EdgeLabel) :
    (g.putEdge u w label).map maps = g.maps.putEdge u w label := by
  have hmissing : ∀ {r}, g.contains r = false → g.maps.vertex? r = none := vertex?_eq_none.mpr
  have hthere : ∀ {r}, g.contains r = true → ¬ g.maps.vertex? r = none := fun hr hnone => by
    rw [vertex?_eq_none.mp hnone] at hr
    cases hr
  rw [GraphMaps.putEdge]
  cases hu : g.contains u with
  | false =>
    rw [if_pos (hmissing hu), putEdge, hu]
    rfl
  | true =>
    rw [if_neg (hthere hu)]
    cases hw : g.contains w with
    | false =>
      rw [if_pos (hmissing hw), putEdge, hu, hw]
      rfl
    | true =>
      obtain ⟨g', hput⟩ := exists_putEdge hu hw
      have hvertex : g'.vertex? = g.vertex? := by
        funext r
        rw [vertex?, (putEdge_changes hput).1]
        rfl
      have hedge : g'.edge? = fun a b => if (a, b) = (u, w) then some label else g.edge? a b :=
        funext fun a => funext fun b => edge?_putEdge hput
      rw [if_neg (hthere hw), hput]
      change Except.ok g'.maps = _
      rw [maps, hvertex, hedge]
      rfl

theorem Consistent.putEdge (h : g.Consistent) (hput : g.putEdge u w label = .ok g') :
    g'.Consistent := by
  have hends := putEdge_ends hput h.ends
  obtain ⟨hu, hw, rfl⟩ := putEdge_ok hput
  split at hends
  · next hany =>
    have hsame : ∀ e : Edge, (if e.joins u w then { e with label := label } else e).source =
          e.source ∧ (if e.joins u w then { e with label := label } else e).target = e.target ∧
        (if e.joins u w then { e with label := label } else e).serial = e.serial := by
      intro e
      split <;> exact ⟨rfl, rfl, rfl⟩
    have hserials : (g.edges.map fun e : Edge =>
        if e.joins u w then { e with label := label } else e).map (·.serial) =
          g.edges.map (·.serial) := by
      rw [List.map_map]
      exact List.map_congr_left fun e _ => (hsame e).2.2
    rw [if_pos hany]
    refine ⟨h.references, hends, ?_, hserials ▸ h.serials, ?_⟩ <;> intro e he <;>
      obtain ⟨e', he', rfl⟩ := List.mem_map.mp he
    · rw [(hsame e').1, (hsame e').2.1]
      exact h.closed e' he'
    · rw [(hsame e').2.2]
      exact h.linked e' he'
  · next hapart =>
    rw [if_neg hapart]
    have hnumber : g.links ∉ g.edges.map (·.serial) := by
      intro hmem
      obtain ⟨e, he, heq⟩ := List.mem_map.mp hmem
      exact absurd (h.linked e he) (by omega)
    refine ⟨h.references, hends, ?_, ?_, ?_⟩
    · intro e he
      rcases List.mem_append.mp he with he | he
      · exact h.closed e he
      · rw [List.mem_singleton.mp he]
        exact ⟨contains_iff.mp hu, contains_iff.mp hw⟩
    · rw [List.map_append, List.map_singleton, ← List.concat_eq_append, List.nodup_concat]
      exact ⟨hnumber, h.serials⟩
    · intro e he
      rcases List.mem_append.mp he with he | he
      · exact Nat.lt_succ_of_lt (h.linked e he)
      · rw [List.mem_singleton.mp he]
        exact Nat.lt_succ_self g.links

theorem edges_eraseVertex (h : g.Consistent) (r : String) : (g.eraseVertex r).edges.Perm
    (g.edges.filter fun e => !e.touches r) := by
  have hfirst : (g.unlink (·.source == r)).edges.Perm (g.edges.filter fun e => !(e.source == r)) :=
    foldl_range_perm _ h.serials h.linked
  have hserials : ((g.unlink (·.source == r)).edges.map (·.serial)).Nodup :=
    (hfirst.map _).nodup_iff.mpr ((List.filter_sublist.map _).nodup h.serials)
  have hlinked : ∀ e ∈ (g.unlink (·.source == r)).edges, e.serial < g.links := fun e he =>
    h.linked e (List.mem_of_mem_filter (hfirst.mem_iff.mp he))
  refine (foldl_range_perm _ hserials hlinked).trans ((hfirst.filter _).trans ?_)
  rw [List.filter_filter]
  refine List.Perm.of_eq (List.filter_congr fun e _ => ?_)
  rw [Edge.touches, Bool.not_or, Bool.and_comm]

theorem mem_edges_eraseVertex (h : g.Consistent) {e : Edge} :
    e ∈ (g.eraseVertex r).edges ↔ e ∈ g.edges ∧ ¬ (e.source = r ∨ e.target = r) := by
  rw [(edges_eraseVertex h r).mem_iff, List.mem_filter]
  simp [Edge.touches]

theorem vertices_eraseVertex (h : g.Consistent) (r : String) : (g.eraseVertex r).vertices.Perm
    (g.vertices.filter fun v => !(v.reference == r)) := by
  refine swapEraseP_perm ((List.pairwise_map.mp h.references).imp fun hne => ?_)
  rintro ⟨hv, hw⟩
  exact hne ((beq_iff_eq.mp hv).trans (beq_iff_eq.mp hw).symm)

theorem mem_vertices_eraseVertex (h : g.Consistent) :
    v ∈ (g.eraseVertex r).vertices ↔ v ∈ g.vertices ∧ v.reference ≠ r := by
  rw [(vertices_eraseVertex h r).mem_iff, List.mem_filter]
  simp

theorem Consistent.eraseVertex (h : g.Consistent) (r : String) : (g.eraseVertex r).Consistent := by
  have hvertices := vertices_eraseVertex h r
  have hedges := edges_eraseVertex h r
  refine ⟨?_, ?_, ?_, ?_, ?_⟩
  · exact (hvertices.map _).nodup_iff.mpr ((List.filter_sublist.map _).nodup h.references)
  · exact (hedges.map _).nodup_iff.mpr ((List.filter_sublist.map _).nodup h.ends)
  · intro e he
    obtain ⟨he, hapart⟩ := (mem_edges_eraseVertex h).mp he
    have hkept : ∀ s ∈ g.references, s ≠ r → s ∈ (g.eraseVertex r).references := by
      intro s hs hne
      obtain ⟨v, hv, rfl⟩ := List.mem_map.mp hs
      exact List.mem_map_of_mem ((mem_vertices_eraseVertex h).mpr ⟨hv, hne⟩)
    rw [not_or] at hapart
    obtain ⟨hsource, htarget⟩ := h.closed e he
    exact ⟨hkept _ hsource hapart.1, hkept _ htarget hapart.2⟩
  · exact (hedges.map _).nodup_iff.mpr ((List.filter_sublist.map _).nodup h.serials)
  · exact fun e he => h.linked e ((mem_edges_eraseVertex h).mp he).1

theorem maps_eraseVertex (h : g.Consistent) (r : String) :
    (g.eraseVertex r).maps = g.maps.eraseVertex r := by
  have h' := h.eraseVertex r
  have hvertex : (g.eraseVertex r).vertex? = (g.maps.eraseVertex r).vertex? := by
    funext s
    refine Option.ext fun v => ?_
    rw [vertex?_eq_some h', mem_vertices_eraseVertex h, GraphMaps.eraseVertex]
    change _ ↔ (if s = r then none else g.vertex? s) = some v
    split
    · next heq =>
      rw [heq]
      exact iff_of_false (fun hv => hv.1.2 hv.2) nofun
    · next hne =>
      rw [vertex?_eq_some h, and_right_comm]
      exact and_iff_left_of_imp fun hv => hv.2 ▸ hne
  have hedge : (g.eraseVertex r).edge? = (g.maps.eraseVertex r).label? := by
    funext u w
    refine Option.ext fun label => ?_
    rw [edge?_eq_some h', GraphMaps.eraseVertex]
    change _ ↔ (if u = r ∨ w = r then none else g.edge? u w) = some label
    simp only [mem_edges_eraseVertex h]
    split
    · next heq =>
      refine iff_of_false ?_ nofun
      rintro ⟨e, ⟨-, hapart⟩, hends, -⟩
      obtain ⟨rfl, rfl⟩ := Prod.mk.inj hends
      exact hapart heq
    · next hapart =>
      rw [edge?_eq_some h]
      refine exists_congr fun e => ⟨fun he => ⟨he.1.1, he.2⟩, fun he => ⟨⟨he.1, ?_⟩, he.2⟩⟩
      obtain ⟨rfl, rfl⟩ := Prod.mk.inj he.2.1
      exact hapart
  rw [maps, hvertex, hedge]

/-- A change of a graph is a change of its maps, with one answer. -/
theorem perform_maps (h : g.Consistent) (change : GraphChange) :
    (g.perform change).1 = (g.maps.perform change).1 ∧
      (g.perform change).2.maps = (g.maps.perform change).2 ∧
      (g.perform change).2.Consistent := by
  cases change with
  | putVertex v => exact ⟨rfl, maps_putVertex g v, h.putVertex v⟩
  | eraseVertex r => exact ⟨rfl, maps_eraseVertex h r, h.eraseVertex r⟩
  | putEdge u w label =>
    rw [perform, GraphMaps.perform, ← maps_putEdge]
    cases hput : g.putEdge u w label with
    | error error => exact ⟨rfl, rfl, h⟩
    | ok g' => exact ⟨rfl, rfl, h.putEdge hput⟩

theorem run_maps (h : g.Consistent) (changes : List GraphChange) :
    (GraphChange.run perform g changes).1 =
        (GraphChange.run GraphMaps.perform g.maps changes).1 ∧
      (GraphChange.run perform g changes).2.maps =
        (GraphChange.run GraphMaps.perform g.maps changes).2 ∧
      (GraphChange.run perform g changes).2.Consistent := by
  induction changes generalizing g with
  | nil => exact ⟨rfl, rfl, h⟩
  | cons change rest ih =>
    obtain ⟨hanswer, hmaps, hconsistent⟩ := perform_maps h change
    obtain ⟨hanswers, hmaps', hconsistent'⟩ := ih hconsistent
    rw [hmaps] at hanswers hmaps'
    refine ⟨?_, hmaps', hconsistent'⟩
    exact congrArg₂ List.cons hanswer hanswers

/-! ### The order of the vertices

Erasing swaps the last vertex into the gap, so the order in which vertices came is lost with the
first one that is taken out, and not before.
-/

theorem references_putEdge (hput : g.putEdge u w label = .ok g') :
    g'.references = g.references := by
  rw [references, (putEdge_changes hput).1]
  rfl

/-- Nothing is moved where nothing is taken out. -/
theorem vertices_eraseVertex_of_none (h : g.vertex? r = none) :
    (g.eraseVertex r).vertices = g.vertices := by
  have hnone : g.vertices.findIdx? (·.reference == r) = none := by
    rw [List.findIdx?_eq_none_iff]
    exact fun v hv => Bool.not_eq_true _ ▸ List.find?_eq_none.mp h v hv
  change swapEraseP (·.reference == r) g.vertices = g.vertices
  rw [swapEraseP, hnone]

end Graph

/-- The reference under which a change puts a vertex in. -/
def GraphChange.reference? : GraphChange → Option String
  | putVertex v => some v.reference
  | _ => none

namespace Graph

variable {g : Graph}

/-- As long as no vertex is taken out, they are in the order in which they first came. -/
theorem references_run (h : g.Consistent) {changes : List GraphChange}
    (hkept : ∀ v, .ok (some v) ∉ (GraphChange.run perform g changes).1) :
    (GraphChange.run perform g changes).2.references =
      (changes.filterMap GraphChange.reference?).foldl recordRef g.references := by
  induction changes generalizing g with
  | nil => rfl
  | cons change rest ih =>
    have hrest := ih (perform_maps h change).2.2 fun v hv => hkept v (List.mem_cons_of_mem _ hv)
    have hfirst : ∀ v, (g.perform change).1 ≠ .ok (some v) := fun v hv =>
      hkept v (hv ▸ List.mem_cons_self)
    refine hrest.trans ?_
    cases change with
    | putVertex v => exact congrArg (List.foldl recordRef · _) (references_putVertex g v)
    | eraseVertex r =>
      have hnone : g.vertex? r = none :=
        Option.eq_none_iff_forall_ne_some.mpr fun v hv => hfirst v (congrArg Except.ok hv)
      exact congrArg (fun vs : List Vertex => List.foldl recordRef (vs.map (·.reference)) _)
        (vertices_eraseVertex_of_none hnone)
    | putEdge u w label =>
      rw [perform]
      cases hput : g.putEdge u w label with
      | error error => rfl
      | ok g' => exact congrArg (List.foldl recordRef · _) (references_putEdge hput)

theorem encard_of_nodup {α : Type} {s : Set α} {as : List α} (h : as.Nodup)
    (hmem : ∀ a, a ∈ as ↔ a ∈ s) : s.encard = as.length := by
  classical
  have hs : s = (as.toFinset : Set α) := by
    ext a
    rw [Finset.mem_coe, List.mem_toFinset, hmem]
  rw [hs, Set.encard_coe_eq_coe_finsetCard, List.toFinset_card_of_nodup h]

/-- Entries that differ by a key differ by what determines the key among some of them. -/
theorem nodup_map_filter {α β κ : Type} {key : α → κ} {f : α → β} {q : α → Bool} {as : List α}
    (h : (as.map key).Nodup)
    (hkey : ∀ a ∈ as, ∀ b ∈ as, q a = true → q b = true → f a = f b → key a = key b) :
    ((as.filter q).map f).Nodup := by
  refine (h.of_map.filter q).map_on fun a ha b hb heq => ?_
  obtain ⟨ha, hqa⟩ := List.mem_filter.mp ha
  obtain ⟨hb, hqb⟩ := List.mem_filter.mp hb
  exact List.inj_on_of_nodup_map h ha hb (hkey a ha b hb hqa hqb heq)

theorem mem_references {r : String} : r ∈ g.references ↔ g.vertex? r ≠ none := by
  rw [Ne, vertex?_eq_none, Bool.not_eq_false, contains_iff]

theorem vertex?_of_not_mem {r : String} (hr : r ∉ g.references) : g.vertex? r = none :=
  not_not.mp (mt mem_references.mpr hr)

theorem contains_of_not_mem {r : String} (hr : r ∉ g.references) : g.contains r = false :=
  vertex?_eq_none.mp (vertex?_of_not_mem hr)

theorem isSome_edge? (u w : String) : (g.edge? u w).isSome = g.edges.any (·.joins u w) := by
  rw [Bool.eq_iff_iff, edge?, Option.isSome_map, List.find?_isSome, List.any_eq_true]

theorem mem_ends (ends : String × String) :
    ends ∈ g.edges.map Edge.ends ↔ g.edge? ends.1 ends.2 ≠ none := by
  rw [List.mem_map, ← Option.isSome_iff_ne_none, isSome_edge?, List.any_eq_true]
  exact exists_congr fun e => and_congr_right fun _ => joins_iff_ends.symm

/-- All that is asked of a graph can be answered from its maps. -/
theorem Consistent.view_agrees (h : g.Consistent) : g.view.Agrees g.maps where
  vertex? _ := rfl
  contains _ := isSome_vertex?.symm
  edge? _ _ := rfl
  vertexCount := by
    have hcount : g.vertexCount = g.references.length := (List.length_map _).symm
    rw [view, hcount]
    exact encard_of_nodup h.references fun r => mem_references
  edgeCount := by
    have hcount : g.edgeCount = (g.edges.map Edge.ends).length := (List.length_map _).symm
    rw [view, hcount]
    exact encard_of_nodup h.ends mem_ends
  inDegree r := by
    have hcount : g.view.inDegree r =
        ((g.edges.filter (·.target == r)).map (·.source)).length := by
      rw [List.length_map, ← List.countP_eq_length_filter]
      rfl
    have hnodup : ((g.edges.filter (·.target == r)).map (·.source)).Nodup :=
      nodup_map_filter h.ends fun e _ e' _ he he' hsource =>
        Prod.ext hsource ((beq_iff_eq.mp he).trans (beq_iff_eq.mp he').symm)
    rw [hcount]
    refine encard_of_nodup hnodup fun u => Iff.trans ?_ (mem_ends (u, r))
    simp only [List.mem_map, List.mem_filter, beq_iff_eq, Edge.ends, Prod.mk.injEq, and_assoc]
    exact exists_congr fun e => and_congr_right fun _ => and_comm
  nodup_vertices := h.references
  mem_vertices v := ((vertex?_eq_some h).trans (and_iff_left rfl)).symm
  nodup_edges := by
    rw [view, List.map_map]
    exact h.ends
  mem_edges u w label := by
    rw [view, List.mem_map]
    change _ ↔ g.edge? u w = some label
    rw [edge?_eq_some h]
    refine exists_congr fun e => and_congr_right fun _ => ?_
    rw [Edge.ends, Prod.mk.injEq, Prod.mk.injEq, Prod.mk.injEq, and_assoc]
  successors r := List.filter_congr fun s _ => (isSome_edge? r s).symm
  predecessors r := List.filter_congr fun s _ => (isSome_edge? s r).symm

end Graph

end Flowchart

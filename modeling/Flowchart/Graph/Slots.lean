import Flowchart.Graph.Basic

/-!
# Graphs with numbered slots

A slot graph keeps its vertices in slots that are numbered without gaps, and its edges lead from
slot to slot. When a vertex is taken out, the last one moves into its slot. `SlotGraph` is what is
asked of such a graph, and `Slots` is one that keeps two lists. `IndexedGraph` finds the slot of a
vertex by its reference.
-/

namespace Flowchart

/-- An edge between two slots. -/
structure Arc where
  source : Nat
  target : Nat
  label : EdgeLabel
  deriving DecidableEq, Repr

namespace Arc

def joins (a : Arc) (source target : Nat) : Bool := a.source == source && a.target == target

/-- What becomes of an arc when the vertex of slot `last` moves to the slot `slot`. -/
def move (last slot : Nat) (a : Arc) : Arc where
  source := if a.source = last then slot else a.source
  target := if a.target = last then slot else a.target
  label := a.label

end Arc

class SlotGraph (σ : Type) where
  empty : σ
  /-- The vertices, slot by slot. -/
  vertices : σ → List Vertex
  arcs : σ → List Arc
  /-- Puts a vertex into a new slot, and tells its number. -/
  append : σ → Vertex → σ × Nat
  replace : σ → (slot : Nat) → Vertex → σ
  /-- Takes out a vertex with all its arcs. -/
  remove? : σ → (slot : Nat) → Option (Vertex × σ)
  /-- Puts an arc in, or relabels one that joins the slots already. -/
  link : σ → (source target : Nat) → EdgeLabel → σ
  label? : σ → (source target : Nat) → Option EdgeLabel
  leaving : σ → (slot : Nat) → List Arc
  entering : σ → (slot : Nat) → List Arc

structure IndexedGraph (σ : Type) where
  slots : σ
  /-- The slot of each reference. -/
  index : Dict Nat

namespace IndexedGraph

variable {σ : Type} [SlotGraph σ]

def empty : IndexedGraph σ := ⟨SlotGraph.empty, []⟩

def vertices (g : IndexedGraph σ) : List Vertex := SlotGraph.vertices g.slots

def isEmpty (g : IndexedGraph σ) : Bool := g.vertices.isEmpty

def vertexCount (g : IndexedGraph σ) : Nat := g.vertices.length

def edgeCount (g : IndexedGraph σ) : Nat := (SlotGraph.arcs g.slots).length

def slot? (g : IndexedGraph σ) (reference : String) : Option Nat := Dict.get? g.index reference

def slot (g : IndexedGraph σ) (reference : String) : Except Error Nat :=
  match g.slot? reference with
  | some slot => pure slot
  | none => throw (.notFound .vertex reference)

def contains (g : IndexedGraph σ) (reference : String) : Bool := Dict.contains g.index reference

def vertex? (g : IndexedGraph σ) (reference : String) : Option Vertex := do
  g.vertices[← g.slot? reference]?

def edge? (g : IndexedGraph σ) (source target : String) : Option EdgeLabel := do
  SlotGraph.label? g.slots (← g.slot? source) (← g.slot? target)

/-- The reference of the vertex in a slot. -/
def name (g : IndexedGraph σ) (slot : Nat) : String :=
  (g.vertices[slot]?.map (·.reference)).getD ""

/-- The edges, with the references that they join. -/
def edges (g : IndexedGraph σ) : List (String × String × EdgeLabel) :=
  (SlotGraph.arcs g.slots).map fun a => (g.name a.source, g.name a.target, a.label)

/-- The references of some slots, each once and in the order of the slots. -/
def names (g : IndexedGraph σ) (slots : List Nat) : List String :=
  slots.mergeSort.eraseReps.map g.name

def successors (g : IndexedGraph σ) (reference : String) : List String :=
  match g.slot? reference with
  | some slot => g.names ((SlotGraph.leaving g.slots slot).map (·.target))
  | none => []

def predecessors (g : IndexedGraph σ) (reference : String) : List String :=
  match g.slot? reference with
  | some slot => g.names ((SlotGraph.entering g.slots slot).map (·.source))
  | none => []

def inDegree (g : IndexedGraph σ) (reference : String) : Nat :=
  match g.slot? reference with
  | some slot => (SlotGraph.entering g.slots slot).length
  | none => 0

/-- Puts a vertex in. A vertex with its reference is replaced and keeps its edges. -/
def putVertex (g : IndexedGraph σ) (v : Vertex) : IndexedGraph σ :=
  match g.slot? v.reference with
  | some slot => { g with slots := SlotGraph.replace g.slots slot v }
  | none =>
    let (slots, slot) := SlotGraph.append g.slots v
    ⟨slots, Dict.put g.index v.reference slot⟩

/-- Takes out a vertex with its edges, and notes the slot of the vertex that moves. -/
def eraseVertex (g : IndexedGraph σ) (reference : String) : Option Vertex × IndexedGraph σ :=
  match g.slot? reference with
  | none => (none, g)
  | some slot =>
    let index := Dict.erase g.index reference
    match SlotGraph.remove? g.slots slot with
    | none => (none, { g with index := index })
    | some (v, slots) =>
      match (SlotGraph.vertices slots)[slot]? with
      | some moved => (some v, ⟨slots, Dict.put index moved.reference slot⟩)
      | none => (some v, ⟨slots, index⟩)

/-- Puts an edge between two vertices in. An edge that joins them already gets the new label. -/
def putEdge (g : IndexedGraph σ) (source target : String) (label : EdgeLabel) :
    Except Error (IndexedGraph σ) := do
  let sourceSlot ← g.slot source
  let targetSlot ← g.slot target
  pure { g with slots := SlotGraph.link g.slots sourceSlot targetSlot label }

end IndexedGraph

structure Link extends Arc where
  /-- How many arcs had been linked before this one. -/
  serial : Nat

structure Slots where
  vertices : List Vertex
  links : List Link
  /-- How many arcs were ever linked. -/
  linked : Nat

namespace Slots

/-- Takes out the arcs with `p`, the one linked last first. -/
def unlink (s : Slots) (p : Link → Bool) : List Link :=
  (List.range s.linked).reverse.foldl
    (fun links serial => swapEraseP (fun l => l.serial == serial && p l) links) s.links

def remove? (s : Slots) (slot : Nat) : Option (Vertex × Slots) :=
  s.vertices[slot]?.map fun v =>
    let kept := { s with links := s.unlink (·.source == slot) }
    (v, {
      vertices := swapErase s.vertices slot
      links := (kept.unlink (·.target == slot)).map fun l =>
        { l with toArc := l.move (s.vertices.length - 1) slot }
      linked := s.linked })

def link (s : Slots) (source target : Nat) (label : EdgeLabel) : Slots :=
  match s.links.findIdx? (·.joins source target) with
  | some i => { s with links := s.links.modify i fun l => { l with label := label } }
  | none =>
    { s with
      links := s.links ++ [⟨⟨source, target, label⟩, s.linked⟩]
      linked := s.linked + 1 }

instance : SlotGraph Slots where
  empty := ⟨[], [], 0⟩
  vertices := vertices
  arcs s := s.links.map (·.toArc)
  append s v := ({ s with vertices := s.vertices ++ [v] }, s.vertices.length)
  replace s slot v := { s with vertices := s.vertices.set slot v }
  remove? := remove?
  link := link
  label? s source target := (s.links.find? (·.joins source target)).map (·.label)
  leaving s slot := (s.links.map (·.toArc)).filter (·.source == slot)
  entering s slot := (s.links.map (·.toArc)).filter (·.target == slot)

end Slots

end Flowchart

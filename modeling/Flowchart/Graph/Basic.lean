import Flowchart.Error
import Flowchart.Graph.Vertex

/-!
# Graphs

A graph lists its vertices and its edges. Both are told apart by references, and the lists are in
the order in which the entries were first put in. When an entry is taken out of a list, the last
one moves into its place.
-/

namespace Flowchart

structure Edge where
  source : String
  target : String
  label : EdgeLabel
  /-- How many edges had been linked before this one. -/
  serial : Nat
  deriving DecidableEq, Repr

structure Graph where
  vertices : List Vertex
  edges : List Edge
  /-- How many edges were ever linked. -/
  links : Nat
  deriving DecidableEq

/-- Takes out the element at `i`, and moves the last element there. -/
def swapErase {α : Type} (as : List α) (i : Nat) : List α :=
  match as.getLast? with
  | some last => if i < as.length then (as.set i last).dropLast else as
  | none => as

/-- Takes out the first element with `p`, in the same way. -/
def swapEraseP {α : Type} (p : α → Bool) (as : List α) : List α :=
  match as.findIdx? p with
  | some i => swapErase as i
  | none => as

namespace Edge

def joins (e : Edge) (source target : String) : Bool := e.source == source && e.target == target

end Edge

namespace Graph

def empty : Graph := ⟨[], [], 0⟩

def isEmpty (g : Graph) : Bool := g.vertices.isEmpty

def vertexCount (g : Graph) : Nat := g.vertices.length

def edgeCount (g : Graph) : Nat := g.edges.length

def references (g : Graph) : List String := g.vertices.map (·.reference)

def vertex? (g : Graph) (reference : String) : Option Vertex :=
  g.vertices.find? (·.reference == reference)

def contains (g : Graph) (reference : String) : Bool :=
  g.vertices.any (·.reference == reference)

def edge? (g : Graph) (source target : String) : Option EdgeLabel :=
  (g.edges.find? (·.joins source target)).map (·.label)

/-- The references that edges from `reference` lead to, in the order of the vertices. -/
def successors (g : Graph) (reference : String) : List String :=
  g.references.filter fun r => g.edges.any (·.joins reference r)

/-- The references that edges to `reference` come from, in the order of the vertices. -/
def predecessors (g : Graph) (reference : String) : List String :=
  g.references.filter fun r => g.edges.any (·.joins r reference)

def inDegree (g : Graph) (reference : String) : Nat :=
  g.edges.countP (·.target == reference)

/-- Puts a vertex in. A vertex with its reference is replaced and keeps its edges. -/
def putVertex (g : Graph) (v : Vertex) : Graph :=
  if g.contains v.reference then
    { g with vertices := g.vertices.map fun u => if u.reference = v.reference then v else u }
  else
    { g with vertices := g.vertices ++ [v] }

/-- Puts an edge between two vertices in. An edge that joins them already gets the new label. -/
def putEdge (g : Graph) (source target : String) (label : EdgeLabel) : Except Error Graph := do
  if !g.contains source then throw (.notFound .vertex source)
  if !g.contains target then throw (.notFound .vertex target)
  if g.edges.any (·.joins source target) then
    pure { g with
      edges := g.edges.map fun e => if e.joins source target then { e with label := label } else e }
  else
    pure { g with
      edges := g.edges ++ [⟨source, target, label, g.links⟩]
      links := g.links + 1 }

/-- Takes out the edges with `p`, the one linked last first. -/
def unlink (g : Graph) (p : Edge → Bool) : Graph :=
  { g with
    edges := (List.range g.links).reverse.foldl
      (fun edges serial => swapEraseP (fun e => e.serial == serial && p e) edges) g.edges }

/-- Takes out a vertex: first the edges that leave it, then those that enter it, then itself. -/
def eraseVertex (g : Graph) (reference : String) : Graph :=
  let g := g.unlink (·.source == reference)
  let g := g.unlink (·.target == reference)
  { g with vertices := swapEraseP (·.reference == reference) g.vertices }

end Graph

end Flowchart

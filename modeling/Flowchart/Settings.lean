import Flowchart.Error

/-!
# Settings of a diagram

What can be chosen about how a diagram is drawn.
-/

namespace Flowchart

structure Settings where
  /-- A dynamic fork with this many children, or more, is drawn with one vertex for all of them. -/
  collapseLimit : Nat
  one_le_collapseLimit : 1 ≤ collapseLimit := by decide
  deriving DecidableEq

namespace Settings

def standard : Settings where
  collapseLimit := 3

instance : Inhabited Settings := ⟨standard⟩

def ofLimit (limit : Nat) : Except Error Settings :=
  if h : 1 ≤ limit then pure ⟨limit, h⟩ else throw .zeroLimit

end Settings

end Flowchart

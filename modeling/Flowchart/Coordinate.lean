import Flowchart.Error
import Flowchart.Json.Field

/-!
# Coordinates of tasks

A task is addressed by the id of one of its attempts or by its reference, and never by both.
-/

namespace Flowchart

/-- A coordinate as it is given, which may have no part or both. -/
structure Coordinate where
  id : Option String
  reference : Option String
  deriving DecidableEq, Repr

/-- A coordinate that has exactly one part. -/
inductive Address where
  | id (id : String)
  | reference (reference : String)
  deriving DecidableEq, Repr

namespace Coordinate

def ofId (id : String) : Coordinate := ⟨some id, none⟩

def ofReference (reference : String) : Coordinate := ⟨none, some reference⟩

def address (c : Coordinate) : Except Error Address :=
  match c.id, c.reference with
  | some id, none => pure (.id id)
  | none, some reference => pure (.reference reference)
  | _, _ => throw .ambiguousCoordinate

def idField : Field (Option String) := .optional "id" Doc.string .str

def referenceField : Field (Option String) := .optional "ref" Doc.string .str

def toJson (c : Coordinate) : Json :=
  .obj (idField.written c.id ++ referenceField.written c.reference)

def ofDoc (d : Doc) : Except Fault Coordinate := do
  let members ← d.record .value [idField.check, referenceField.check]
  pure { id := ← idField.get members, reference := ← referenceField.get members }

end Coordinate

end Flowchart

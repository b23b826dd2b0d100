import Flowchart.Task.Decoding
import Flowchart.Task.Equality

/-!
# Workflow definitions

A definition is a named root sequence of tasks. Settings that nothing here reads are kept.
-/

namespace Flowchart

structure Definition where
  name : String
  description : Option String
  version : Option Nat
  schemaVersion : Option Nat
  tasks : List Task
  inputs : List String
  outputs : Dict Json
  owner : Option String
  extra : Dict Json
  deriving DecidableEq

namespace Definition

def ofTasks (name : String) (tasks : List Task) : Definition where
  name := name
  description := none
  version := none
  schemaVersion := none
  tasks := tasks
  inputs := []
  outputs := []
  owner := none
  extra := []

def nameField : Field String := .required "name" Doc.string .str

def descriptionField : Field (Option String) := .optional "description" Doc.string .str

def versionField : Field (Option Nat) := .optional "version" Doc.unsigned32 .nat

def schemaVersionField : Field (Option Nat) := .optional "schemaVersion" Doc.unsigned32 .nat

def tasksField : Field (List Task) :=
  .defaulted "tasks" Task.sequenceOfDoc Task.sequenceToJson []

def inputsField : Field (List String) :=
  .many "inputParameters" (Doc.list Doc.string) Json.strings

def outputsField : Field (Dict Json) := .dict "outputParameters"

def ownerField : Field (Option String) := .optional "ownerEmail" Doc.string .str

def checks : List Check :=
  [nameField.check, descriptionField.check, versionField.check, schemaVersionField.check,
    tasksField.check, inputsField.check, outputsField.check, ownerField.check]

def toJson (d : Definition) : Json :=
  .obj (nameField.written d.name ++ descriptionField.written d.description ++
    versionField.written d.version ++ schemaVersionField.written d.schemaVersion ++
    tasksField.written d.tasks ++ inputsField.written d.inputs ++
    outputsField.written d.outputs ++ ownerField.written d.owner ++ d.extra)

def ofMembers (members : Members) : Except Fault Definition := do
  let others ← Doc.memberValues (members.filter fun m => (Dict.get? checks m.1).isNone)
  pure {
    name := ← nameField.get members
    description := ← descriptionField.get members
    version := ← versionField.get members
    schemaVersion := ← schemaVersionField.get members
    tasks := ← tasksField.get members
    inputs := ← inputsField.get members
    outputs := ← outputsField.get members
    owner := ← ownerField.get members
    extra := Dict.ofEntries others }

/-- A definition is read from an object only. -/
def ofDoc (d : Doc) : Except Fault Definition := do
  ofMembers (← d.object (Members.taken checks))

end Definition

end Flowchart

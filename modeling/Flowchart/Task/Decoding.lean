import Flowchart.Task.Encoding

/-!
# Reading tasks

The fields of a kind are looked at only after the whole object of the task was met: `type` says
which fields there are, and it may come last. All members that are neither of every task nor of the
task's own kind are kept.
-/

namespace Flowchart

/-- What a document reads as, in each place that a task has for documents. -/
structure Reading where
  task : Except Fault Task
  tasks : Except Fault (List Task)
  branches : Except Fault (List (List Task))
  cases : Except Fault (List (String × List Task))

namespace Reading

def refused (fault : Fault) : Reading :=
  ⟨throw fault, throw fault, throw fault, throw fault⟩

/-- A missing sequence, or list of sequences, is empty. -/
def get {α : Type} (part : Reading → Except Fault (List α)) (readings : List (String × Reading))
    (key : String) : Except Fault (List α) :=
  match Dict.get? readings key with
  | some reading => part reading
  | none => pure []

end Reading

namespace Kind

/-- The type of a kind that stands alone is given by its name. -/
def typeOfName (d : Doc) : Except Fault TaskType := do
  let s ← d.string
  match TaskType.ofKinds.find? (·.name == s) with
  | some type => pure type
  | none => throw .shape

/-- The type of a kind that stands in a task is given by its name or by its number. -/
def typeOfDoc : Doc → Except Fault TaskType
  | .int n =>
    if n < 0 then throw .shape
    else match TaskType.ofKinds[n.toNat]? with
      | some type => pure type
      | none => throw .shape
  | d => typeOfName d

def ofFields (type : TaskType) (members : Members) (readings : List (String × Reading)) :
    Except Fault (Kind (List Task)) := do
  match type with
  | .simple => pure (worker .simple)
  | .http => pure (worker .http)
  | .inline => pure (worker .inline)
  | .wait => pure (worker .wait)
  | .terminate => pure terminate
  | .join => pure (join (← joinOnField.get members))
  | .exclusiveJoin => pure (exclusiveJoin (← joinOnField.get members))
  | .subWorkflow => pure (subWorkflow (← subWorkflowField.get members))
  | .event => pure (event (← sinkField.get members))
  | .setVariable => pure (worker .setVariable)
  | .jsonJqTransform => pure (worker .jsonJqTransform)
  | .human => pure (worker .human)
  | .forkJoin => pure (fork (← Reading.get (·.branches) readings branchesKey))
  | .forkJoinDynamic =>
    pure (dynamicFork (← tasksParamField.get members) (← inputParamField.get members))
  | .switch => pure (switch .switch (← switchOfFields))
  | .decision => pure (switch .decision (← switchOfFields))
  | .doWhile =>
    pure (loop (← conditionField.get members) (← Reading.get (·.tasks) readings bodyKey))
  | .terminal => pure (marker .terminal)
  | .doWhileEnd => pure (loopEnd (← loopField.get members))
  | .dynamicForkChildren => pure (marker .dynamicForkChildren)
  | .loopChildren => pure (marker .loopChildren)
  | .fork | .other _ => throw .shape
where
  switchOfFields : Except Fault (Switch (List Task)) := do
    pure {
      evaluator := ← evaluatorField.get members
      expression := ← expressionField.get members
      caseParam := ← caseParamField.get members
      cases := ← Reading.get (·.cases) readings casesKey
      otherwise := ← Reading.get (·.tasks) readings defaultKey }

def repeats (keys : List String) (members : Members) : Bool :=
  keys.any fun key => 1 < members.countP (·.1 == key)

/-- Reads the kind from among all the members of a task. -/
def ofMembers (typeOf : Doc → Except Fault TaskType) (members : Members)
    (readings : List (String × Reading)) : Except Fault (Kind (List Task)) := do
  match Dict.get? members typeKey with
  | none => throw .shape
  | some d =>
    let type ← typeOf d
    if repeats (typeKey :: type.fieldKeys) members then throw .shape
    ofFields type members readings

end Kind

namespace Task

def checks : List Check :=
  [nameField.check, referenceField.check, descriptionField.check, optionalField.check,
    inputsField.check]

def ofMembers (members : Members) (readings : List (String × Reading)) : Except Fault Task := do
  let name ← nameField.get members
  let reference ← referenceField.get members
  let description ← descriptionField.get members
  let optional ← optionalField.get members
  let inputs ← inputsField.get members
  let kind ← Kind.ofMembers Kind.typeOfDoc members readings
  let others ← Doc.memberValues (members.filter fun m => (Dict.get? checks m.1).isNone)
  let own := Kind.typeKey :: kind.type.fieldKeys
  let extra := (Dict.ofEntries others).filter fun m => m.1 ∉ own
  pure { name, reference, description, optional, inputs, kind, extra }

end Task

namespace Reading

def ofArray (items : List Reading) (flaw : Option Flaw) : Reading where
  task := throw .shape
  tasks := do
    let tasks ← items.mapM (·.task)
    Flaw.close flaw
    pure tasks
  branches := do
    let branches ← items.mapM (·.tasks)
    Flaw.close flaw
    pure branches
  cases := throw .shape

def ofObject (members : Members) (flaw : Option Flaw) (readings : List (String × Reading)) :
    Reading where
  task := do
    let members ← Members.taken Task.checks members
    Flaw.close flaw
    Task.ofMembers members readings
  tasks := throw .shape
  branches := throw .shape
  cases := do
    let cases ← readings.mapM fun r => do pure (r.1, ← r.2.tasks)
    Flaw.close flaw
    pure (Dict.ofEntries cases)

/-- An array, or else an object, that is nested too deep to be taken. -/
def ofDeep : Doc → Reading
  | .arr _ _ => ⟨throw .shape, throw .grammar, throw .grammar, throw .shape⟩
  | _ => ⟨throw .grammar, throw .shape, throw .shape, throw .grammar⟩

mutual

def ofDoc : Doc → Reading
  | .arr items flaw => ofArray (ofItems items) flaw
  | .obj members flaw => ofObject members flaw (ofMembers members)
  | .flawed flaw => refused flaw.taken
  | .deep d => ofDeep d
  | .null | .bool _ | .int _ | .decimal _ | .str _ => refused .shape

def ofItems : List Doc → List Reading
  | [] => []
  | d :: rest => ofDoc d :: ofItems rest

def ofMembers : Members → List (String × Reading)
  | [] => []
  | (key, d) :: rest => (key, ofDoc d) :: ofMembers rest

end

end Reading

namespace Task

def ofDoc (d : Doc) : Except Fault Task := (Reading.ofDoc d).task

def sequenceOfDoc (d : Doc) : Except Fault (List Task) := (Reading.ofDoc d).tasks

end Task

namespace Kind

/-- Reads the fields of a kind whose type is known, as an object or as an array. -/
def ofPayload (type : TaskType) : Doc → Except Fault (Kind (List Task))
  | .arr items _ => do
    if type.fieldKeys.length < items.length then throw .shape
    let members := type.fieldKeys.zip items
    ofFields type members (Reading.ofMembers members)
  | d => d.object fun members => do
    if repeats type.fieldKeys members then throw .shape
    ofFields type members (Reading.ofMembers members)

/-- Reads a kind that stands alone. In an array the type comes first. -/
def ofDoc : Doc → Except Fault (Kind (List Task))
  | .arr (tag :: items) flaw => do ofPayload (← typeOfName tag) (.arr items flaw)
  | d => d.object fun members => ofMembers typeOfName members (Reading.ofMembers members)

end Kind

end Flowchart

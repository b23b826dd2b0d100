import Flowchart.Proofs.DecisionGraphs
import Flowchart.Proofs.Sessions

/-!
# Edits of trees with decisions

An edit of a tree and the same edit of the recast tree find the same places, since these are
references and numbers, and what is put in is made from references that are free in both graphs. So
both can be made or neither, and the trees that come of them are recast again. Errors differ only
where they name the type of a switch.
-/

namespace Flowchart

inductive Definition.Recast : Definition → Definition → Prop where
  | intro {w : Definition} {tasks : List Task} : List.Forall₂ Task.Recast w.tasks tasks →
    Recast w { w with tasks := tasks }

inductive Execution.Recast : Execution → Execution → Prop where
  | intro {x : Execution} {definition : Definition} : x.definition.Recast definition →
    Recast x { x with definition := definition }

inductive Run.Recast : Run → Run → Prop where
  | intro {run : Run} {execution : Execution} : run.execution.Recast execution →
    Recast run { run with execution := execution }

/-- Errors that differ, if at all, in the type of a switch that has become a decision. -/
inductive Error.Recast : Error → Error → Prop where
  | same (error : Error) : Recast error error
  | unexpectedType (reference : String) (expected : TaskType) :
    Recast (.unexpectedType reference expected .switch)
      (.unexpectedType reference expected .decision)

/-- Diagrams that differ in that the tasks of the first one are recast, in its definition, in its
execution and in its graph. -/
structure Diagram.Recast (d d' : Diagram) : Prop where
  definition : d.definition.Recast d'.definition
  execution : Option.Rel Execution.Recast d.execution d'.execution
  history : d.history = d'.history
  settings : d.settings = d'.settings
  graph : d.graph.Recast d'.graph

/-- Edits that differ, if at all, in that the task that is put in the place of another is recast. -/
inductive Edit.Recast : Edit → Edit → Prop where
  | same (e : Edit) : Recast e e
  | replace {task task' : Task} (target : String) : task.Recast task' →
    Recast (.replace target task) (.replace target task')

section

variable {w w' : Definition} (h : w.Recast w')

include h

theorem Definition.Recast.tasks : List.Forall₂ Task.Recast w.tasks w'.tasks := by
  cases h
  assumption

theorem Definition.Recast.with_tasks {tasks tasks' : List Task}
    (htasks : List.Forall₂ Task.Recast tasks tasks') :
    Recast { w with tasks := tasks } { w' with tasks := tasks' } := by
  cases h
  exact .intro (w := { w with tasks := tasks }) htasks

end

theorem Error.Recast.category_eq {e e' : Error} (h : e.Recast e') : e.category = e'.category := by
  cases h <;> rfl

theorem Error.Recast.of_eq {e e' : Error} (h : e = e') : e.Recast e' := h ▸ .same e

theorem Outcome.Rel.recast {α β : Type} {R : α → β → Prop} {x : Except Error α} {y : Except Error β}
    (h : Rel Eq R x y) : Rel Error.Recast R x y :=
  h.imp (fun _ _ => .of_eq) fun _ _ => id

namespace Diagram

variable {d d' : Diagram}

theorem recast_draw {definition definition' : Definition} {execution execution' : Option Execution}
    (hdefinition : definition.Recast definition')
    (hexecution : Option.Rel Execution.Recast execution execution') (history : History)
    (settings : Settings) :
    Outcome.Rel Eq Recast (draw definition execution history settings)
      (draw definition' execution' history settings) := by
  cases hdefinition with
  | intro htasks =>
    exact (Graph.recast_ofTasks settings history htasks).bind fun g g' hg =>
      .ok ⟨.intro htasks, hexecution, rfl, rfl, hg⟩

theorem recast_ofDefinition {definition definition' : Definition}
    (h : definition.Recast definition') (settings : Settings) :
    Outcome.Rel Eq Recast (ofDefinition definition settings)
      (ofDefinition definition' settings) :=
  recast_draw h .none .empty settings

theorem recast_ofRun {run run' : Run} (h : run.Recast run') (settings : Settings) :
    Outcome.Rel Eq Recast (ofRun run settings) (ofRun run' settings) := by
  obtain ⟨hexecution⟩ := h
  obtain ⟨hdefinition⟩ := hexecution
  refine Outcome.Rel.bind (Outcome.Rel.of_eq rfl) fun history history' hhistory => ?_
  subst hhistory
  exact recast_draw hdefinition (.some (.intro hdefinition)) history settings

theorem Recast.tasks (h : d.Recast d') : List.Forall₂ Task.Recast d.tasks d'.tasks :=
  h.definition.tasks

theorem Recast.redraw {tasks tasks' : List Task} (h : d.Recast d')
    (htasks : List.Forall₂ Task.Recast tasks tasks') :
    Outcome.Rel Eq Recast (d.redraw tasks) (d'.redraw tasks') := by
  unfold Diagram.redraw
  rw [← h.history, ← h.settings]
  exact recast_draw (h.definition.with_tasks htasks) h.execution d.history d.settings

theorem Recast.freshTasks_eq (h : d.Recast d') (type : TaskType) :
    d.freshTasks type = d'.freshTasks type := by
  have hcount : d.graph.vertexCount = d'.graph.vertexCount := h.graph.vertices.length_eq
  unfold freshTasks freshRef
  simp only [hcount, h.graph.contains_eq]

theorem Recast.freshTasks (h : d.Recast d') (type : TaskType) :
    Outcome.Rel Error.Recast Eq (d.freshTasks type) (d'.freshTasks type) :=
  (Outcome.Rel.of_eq (h.freshTasks_eq type)).recast

/-- One place, in related sequences. -/
structure Located (l l' : Place × List Task × Task) : Prop where
  place : l.1 = l'.1
  sequence : List.Forall₂ Task.Recast l.2.1 l'.2.1
  task : l.2.2.Recast l'.2.2

theorem Recast.locate (h : d.Recast d') (reference : String) :
    Outcome.Rel Error.Recast Located (d.locate reference) (d'.locate reference) := by
  have hvertex := h.graph.vertex? reference
  unfold Diagram.locate
  generalize d.graph.vertex? reference = found at hvertex ⊢
  generalize d'.graph.vertex? reference = found' at hvertex ⊢
  cases hvertex with
  | none => exact .error (.same _)
  | @some v v' hv =>
    have hsequence := v'.parent.get?_recast h.tasks
    dsimp only [pure_bind]
    rw [hv.position_eq, hv.parent_eq, hv.task.reportRef_eq]
    cases v'.position with
    | none => exact .error (.same _)
    | some position =>
      dsimp only [pure_bind]
      generalize v'.parent.get? d.tasks = sequence at hsequence ⊢
      generalize v'.parent.get? d'.tasks = sequence' at hsequence ⊢
      cases hsequence with
      | none => exact .error (.same _)
      | @some sequence sequence' hsequence =>
        have htask := rel_getElem? hsequence position
        dsimp only [pure_bind]
        generalize sequence[position]? = task at htask ⊢
        generalize sequence'[position]? = task' at htask ⊢
        cases htask with
        | none => exact .error (.same _)
        | some htask =>
          dsimp only [pure_bind]
          rw [htask.reference_eq]
          split
          · exact .error (.same _)
          · exact .ok ⟨rfl, hsequence, htask⟩

theorem extent_recast {sequence sequence' : List Task} {task task' : Task}
    (hsequence : List.Forall₂ Task.Recast sequence sequence') (htask : task.Recast task')
    (reference : String) (i : Nat) :
    extent reference sequence i task = extent reference sequence' i task' := by
  have hnext := rel_getElem? hsequence (i + 1)
  unfold extent
  rw [htask.kind.isFork_eq]
  generalize sequence[i + 1]? = next at hnext ⊢
  generalize sequence'[i + 1]? = next' at hnext ⊢
  cases hnext with
  | none => rfl
  | some hjoin =>
    dsimp only
    rw [hjoin.kind.isJoin_eq]

theorem Recast.insertionPlace (h : d.Recast d') (reference : String) :
    Outcome.Rel Error.Recast Eq (d.insertionPlace reference) (d'.insertionPlace reference) := by
  unfold Diagram.insertionPlace
  split
  · exact .ok rfl
  · refine (h.locate reference).bind fun l l' hl => ?_
    obtain ⟨place, sequence, task⟩ := l
    obtain ⟨place', sequence', task'⟩ := l'
    obtain ⟨rfl, hsequence, htask⟩ := hl
    dsimp only
    rw [extent_recast hsequence htask]
    exact (Outcome.Rel.of_eq rfl).recast

end Diagram

theorem Place.modify?_recast (place : Place) {f f' : Task → Task} {tasks tasks' : List Task}
    (h : List.Forall₂ Task.Recast tasks tasks')
    (hf : ∀ t t', t.Recast t' → (f t).Recast (f' t')) :
    Option.Rel (List.Forall₂ Task.Recast) (place.modify? f tasks) (place.modify? f' tasks') := by
  refine relOption_bind (place.path.get?_recast h) fun s s' hs => ?_
  refine relOption_bind (rel_getElem? hs place.index) fun t t' ht => ?_
  exact place.path.modify?_recast h fun s s' hs => rel_set hs (hf t t' ht) place.index

theorem TreePath.prune_recast (p : TreePath) {tasks tasks' : List Task}
    (h : List.Forall₂ Task.Recast tasks tasks') :
    List.Forall₂ Task.Recast (p.prune tasks) (p.prune tasks') := by
  unfold prune
  cases p.owner? with
  | none => exact h
  | some owner =>
    obtain ⟨path, last⟩ := owner
    have hpruned := Place.modify?_recast ⟨path, last.index⟩ h fun t t' ht =>
      ht.with_kind (ht.kind.prune last.branch)
    dsimp only
    generalize Place.modify? _ _ tasks = pruned at hpruned ⊢
    generalize Place.modify? _ _ tasks' = pruned' at hpruned ⊢
    cases hpruned with
    | none => exact h
    | some hpruned => exact hpruned

namespace Kind

variable {inserted : List Task} {k k' : Kind (List Task)}

/-- A change of kinds fits a kind just if it fits the recast kind. -/
def Respects (change : Kind (List Task) → Option (Kind (List Task))) : Prop :=
  ∀ k k', k.Recast (List.Forall₂ Task.Recast) k' →
    Option.Rel (Recast (List.Forall₂ Task.Recast)) (change k) (change k')

theorem relOption_self (o : Option (Kind (List Task))) :
    Option.Rel (Recast (List.Forall₂ Task.Recast)) o o := by
  cases o with
  | none => exact .none
  | some k => exact .some (.refl fun s _ => Task.recasts_refl s)

theorem respects_addBranch? (branch : List Task) : Respects (addBranch? branch) := by
  intro k k' h
  cases h with
  | leaf => exact relOption_self _
  | fork hbranches =>
    exact .some (.fork (List.rel_append hbranches (.cons (Task.recasts_refl branch) .nil)))
  | _ => exact .none

theorem freshCase_eq {cases cases' : List (String × List Task)}
    (h : List.Forall₂ (CaseRecast (List.Forall₂ Task.Recast)) cases cases') :
    freshCase cases = freshCase cases' := by
  have hcontains : ∀ key, Dict.contains cases key = Dict.contains cases' key := fun key => by
    rw [Bool.eq_iff_iff, Dict.contains_iff, Dict.contains_iff, Dict.rel_keys h]
  unfold freshCase
  simp only [h.length_eq, hcontains]

theorem respects_addCase? (branch : List Task) : Respects (addCase? branch) := by
  intro k k' h
  cases h with
  | leaf => exact relOption_self _
  | switch hform hs =>
    obtain ⟨hcases, hotherwise⟩ := hs
    rw [addCase?, addCase?, freshCase_eq hcases]
    refine .some (.switch hform (.intro (List.rel_append hcases ?_) hotherwise))
    exact .cons (.intro (Task.recasts_refl branch)) .nil
  | _ => exact .none

theorem respects_setDefault? (branch : List Task) : Respects (setDefault? branch) := by
  intro k k' h
  cases h with
  | leaf => exact relOption_self _
  | switch hform hs =>
    obtain ⟨hcases, hotherwise⟩ := hs
    exact .some (.switch hform (.intro hcases (Task.recasts_refl branch)))
  | _ => exact .none

theorem respects_setBody? (body : List Task) : Respects (setBody? body) := by
  intro k k' h
  cases h with
  | leaf => exact relOption_self _
  | loop => exact .some (.loop (Task.recasts_refl body))
  | _ => exact .none

end Kind

namespace Diagram

variable {d d' : Diagram}

/-- Trees that are recast, or errors alike. -/
abbrev EditsAlike : Except Error (List Task) → Except Error (List Task) → Prop :=
  Outcome.Rel Error.Recast (List.Forall₂ Task.Recast)

theorem editsAlike_of_option {tasks tasks' : Option (List Task)} {error : Error}
    (h : Option.Rel (List.Forall₂ Task.Recast) tasks tasks') :
    EditsAlike
      (do
        let some tasks := tasks | throw error
        pure tasks)
      (do
        let some tasks := tasks' | throw error
        pure tasks) := by
  cases h with
  | none => exact .error (.same error)
  | some htasks => exact .ok htasks

theorem Recast.spliceAt (h : d.Recast d') (reference : String) (place : Place)
    (inserted : List Task) :
    EditsAlike (d.spliceAt reference place inserted) (d'.spliceAt reference place inserted) := by
  let splice (s : List Task) : List Task := s.take place.index ++ inserted ++ s.drop place.index
  have hsplice : ∀ s s', List.Forall₂ Task.Recast s s' →
      List.Forall₂ Task.Recast (splice s) (splice s') := fun s s' hs =>
    List.rel_append (List.rel_append (List.forall₂_take _ hs) (Task.recasts_refl inserted))
      (List.forall₂_drop _ hs)
  have hspliced := place.path.modify?_recast h.tasks hsplice
  unfold Diagram.spliceAt
  generalize place.path.modify? _ d.tasks = tasks at hspliced ⊢
  generalize place.path.modify? _ d'.tasks = tasks' at hspliced ⊢
  cases hspliced with
  | none => exact .error (.same _)
  | some htasks => exact .ok htasks

theorem Recast.changeKind (h : d.Recast d') (reference : String) (expected : TaskType)
    {change : Kind (List Task) → Option (Kind (List Task))} (hchange : Kind.Respects change) :
    EditsAlike (d.changeKind reference expected change)
      (d'.changeKind reference expected change) := by
  refine (h.locate reference).bind fun l l' hl => ?_
  obtain ⟨place, sequence, task⟩ := l
  obtain ⟨place', sequence', task'⟩ := l'
  obtain ⟨rfl, -, htask⟩ := hl
  have hkind := hchange _ _ htask.kind
  dsimp only at hkind ⊢
  generalize change task.kind = kind at hkind ⊢
  generalize change task'.kind = kind' at hkind ⊢
  cases hkind with
  | none =>
    refine .error ?_
    rcases htask.kind.type with htype | ⟨htype, htype'⟩
    · exact .of_eq (congrArg (Error.unexpectedType reference expected) htype)
    · rw [Task.type, Task.type, htype, htype']
      exact .unexpectedType reference expected
  | some hkind =>
    exact editsAlike_of_option (place.modify?_recast h.tasks fun t t' ht => ht.with_kind hkind)

theorem Recast.remove (h : d.Recast d') (reference : String) :
    EditsAlike (d.remove reference) (d'.remove reference) := by
  refine (h.locate reference).bind fun l l' hl => ?_
  obtain ⟨place, sequence, task⟩ := l
  obtain ⟨place', sequence', task'⟩ := l'
  obtain ⟨rfl, hsequence, htask⟩ := hl
  dsimp only at hsequence htask ⊢
  rw [extent_recast hsequence htask]
  refine (Outcome.Rel.of_eq rfl).recast.bind fun count count' hcount => ?_
  subst hcount
  have hrest := List.rel_append (List.forall₂_take place.index hsequence)
    (List.forall₂_drop (place.index + count) hsequence)
  have htasks := place.path.modify?_recast h.tasks fun _ _ _ => hrest
  rw [rel_isEmpty hrest]
  generalize place.path.modify? _ d.tasks = tasks at htasks ⊢
  generalize place.path.modify? _ d'.tasks = tasks' at htasks ⊢
  cases htasks with
  | none => exact .error (.same _)
  | some htasks =>
    refine .ok ?_
    split
    · exact place.path.prune_recast htasks
    · exact htasks

theorem Recast.replace (h : d.Recast d') (target : String) {task task' : Task}
    (htask : task.Recast task') :
    EditsAlike (d.editedTasks (.replace target task)) (d'.editedTasks (.replace target task')) := by
  refine (h.locate target).bind fun l l' hl => ?_
  obtain ⟨place, sequence, found⟩ := l
  obtain ⟨place', sequence', found'⟩ := l'
  obtain ⟨rfl, -, -⟩ := hl
  exact editsAlike_of_option (place.modify?_recast h.tasks fun _ _ _ => htask)

theorem Recast.changeKind_fresh (h : d.Recast d') (reference : String) (expected type : TaskType)
    {change : List Task → Kind (List Task) → Option (Kind (List Task))}
    (hchange : ∀ inserted, Kind.Respects (change inserted)) :
    EditsAlike (do d.changeKind reference expected (change (← d.freshTasks type)))
      (do d'.changeKind reference expected (change (← d'.freshTasks type))) := by
  refine (h.freshTasks type).bind fun inserted inserted' hinserted => ?_
  subst hinserted
  exact h.changeKind reference expected (hchange inserted)

/-- Related edits make related trees, or fail with errors alike. -/
theorem Recast.editedTasks {e e' : Edit} (h : d.Recast d') (he : e.Recast e') :
    EditsAlike (d.editedTasks e) (d'.editedTasks e') := by
  cases he with
  | replace target htask => exact h.replace target htask
  | same e =>
    cases e with
    | insert target type =>
      refine (h.freshTasks type).bind fun inserted inserted' hinserted => ?_
      refine (h.insertionPlace target).bind fun place place' hplace => ?_
      subst hinserted hplace
      exact h.spliceAt target place inserted
    | addBranch fork type => exact h.changeKind_fresh fork .forkJoin type Kind.respects_addBranch?
    | addCase switch type => exact h.changeKind_fresh switch .switch type Kind.respects_addCase?
    | setDefault switch type =>
      exact h.changeKind_fresh switch .switch type Kind.respects_setDefault?
    | setBody loop type => exact h.changeKind_fresh loop .doWhile type Kind.respects_setBody?
    | delete target => exact h.remove target
    | replace target task => exact h.replace target (Task.Recast.refl task)

theorem Recast.edit {e e' : Edit} (h : d.Recast d') (he : e.Recast e') :
    Outcome.Rel Error.Recast Recast (d.edit e) (d'.edit e') :=
  (h.editedTasks he).bind fun _ _ htasks => (h.redraw htasks).recast

/-- Whether an edit fails or not, the diagrams after it are related again. -/
theorem Recast.perform {e e' : Edit} (h : d.Recast d') (he : e.Recast e') :
    (d.perform e).Recast (d'.perform e') := by
  have hedit := h.edit he
  rw [perform_eq, perform_eq]
  generalize d.edit e = result at hedit ⊢
  generalize d'.edit e' = result' at hedit ⊢
  cases hedit with
  | ok hafter => exact hafter
  | error _ => exact h

theorem Recast.performAll {es es' : List Edit} (h : d.Recast d')
    (hes : List.Forall₂ Edit.Recast es es') : (d.performAll es).Recast (d'.performAll es') := by
  induction hes generalizing d d' with
  | nil => exact h
  | cons he _ ih => exact ih (h.perform he)

/-- Diagrams that stay related while they are edited alike, where an edit of both succeeds, with
related diagrams, or fails, with errors alike. -/
structure EditedAlike (d d' : Diagram) : Prop where
  stay : ∀ es es', List.Forall₂ Edit.Recast es es' → (d.performAll es).Recast (d'.performAll es')
  edit : ∀ es es', List.Forall₂ Edit.Recast es es' → ∀ e e', e.Recast e' →
    Outcome.Rel Error.Recast Recast ((d.performAll es).edit e) ((d'.performAll es').edit e')

theorem Recast.editedAlike (h : d.Recast d') : d.EditedAlike d' where
  stay _ _ hes := h.performAll hes
  edit _ _ hes _ _ he := (h.performAll hes).edit he

end Diagram

/-- The run with other tasks in its definition. -/
def Run.withTasks (run : Run) (tasks : List Task) : Run :=
  { run with execution := { run.execution with
    definition := { run.execution.definition with tasks := tasks } } }

/-- **Decisions.** A tree in which switches become decisions, any of them and at any depth, is
handled like the tree before. It is drawn as a graph with the same edges and with the same vertices
but for those tasks, or the drawing fails with the same error. It is ready for execution or breaks
the same rule first. Each path leads to the same place, or to none. And a diagram of its definition,
or of a run of it, goes on alike under all edits. -/
theorem recast_alike {tasks tasks' : List Task} (h : List.Forall₂ Task.Recast tasks tasks') :
    (∀ settings history, Outcome.Rel Eq Graph.Recast (Graph.ofTasks settings history tasks)
      (Graph.ofTasks settings history tasks')) ∧
    (∀ w : Definition, { w with tasks := tasks }.validate = { w with tasks := tasks' }.validate) ∧
    (∀ p : TreePath, Option.Rel (List.Forall₂ Task.Recast) (p.get? tasks) (p.get? tasks') ∧
      Option.Rel TreePath.PlaceRecast (p.focus? tasks) (p.focus? tasks')) ∧
    (∀ (w : Definition) settings, Outcome.Rel Eq Diagram.EditedAlike
      (Diagram.ofDefinition { w with tasks := tasks } settings)
      (Diagram.ofDefinition { w with tasks := tasks' } settings)) ∧
    ∀ (run : Run) settings, Outcome.Rel Eq Diagram.EditedAlike
      (Diagram.ofRun (run.withTasks tasks) settings)
      (Diagram.ofRun (run.withTasks tasks') settings) := by
  have hdefinition : ∀ w : Definition,
      Definition.Recast { w with tasks := tasks } { w with tasks := tasks' } := fun w =>
    .intro (w := { w with tasks := tasks }) h
  refine ⟨fun settings history => Graph.recast_ofTasks settings history h, fun w => ?_,
    fun p => ⟨p.get?_recast h, p.focus?_recast h⟩, fun w settings => ?_, fun run settings => ?_⟩
  · exact (Definition.validate_recast (w := { w with tasks := tasks }) h).symm
  · exact (Diagram.recast_ofDefinition (hdefinition w) settings).imp (fun _ _ => id)
      fun _ _ hd => hd.editedAlike
  · have hexecution : (run.withTasks tasks).execution.Recast (run.withTasks tasks').execution :=
      .intro (x := (run.withTasks tasks).execution) (hdefinition run.execution.definition)
    have hrun : (run.withTasks tasks).Recast (run.withTasks tasks') := .intro hexecution
    exact (Diagram.recast_ofRun hrun settings).imp (fun _ _ => id)
      fun _ _ hd => hd.editedAlike

namespace Sample

/-- A switch with one case and its default, around two sequences. -/
def routed (form : SwitchForm) (reference : String) (tasks otherwise : List Task) : Task :=
  .ofRef reference (.switch form ⟨some "value-param", none, none, [("a", tasks)], otherwise⟩)

/-- A switch in a case of a switch, in either form. -/
def nestedSwitch (form : SwitchForm) : List Task :=
  [routed .switch "s" [routed form "u" [.ofRef "y" (.worker .simple)] []]
    [.ofRef "x" (.worker .simple)]]

def switchDiagram (form : SwitchForm) : Diagram :=
  (Diagram.ofDefinition (.ofTasks "w" (nestedSwitch form)) .standard).toOption.getD
    ⟨.ofTasks "w" [], none, .empty, .standard, .empty⟩

/-- The diagram after a case was put into the inner switch. -/
def caseAdded (form : SwitchForm) : Diagram :=
  (switchDiagram form).performAll [.addCase "u" .simple]

theorem recast_routed {form form' : SwitchForm} {tasks tasks' : List Task}
    (hform : form.Becomes form') (htasks : List.Forall₂ Task.Recast tasks tasks')
    (reference : String) (otherwise : List Task) :
    (routed form reference tasks otherwise).Recast (routed form' reference tasks' otherwise) :=
  .intro (t := routed form reference tasks otherwise)
    (.switch hform (.intro (.cons (.intro htasks) .nil) (Task.recasts_refl otherwise)))

end Sample

/-- The inner switch becomes a decision. A case can be put into it as before, and a branch cannot,
for which the errors are of one category although they name different types. -/
theorem recast_alike_of_nested :
    List.Forall₂ Task.Recast (Sample.nestedSwitch .switch) (Sample.nestedSwitch .decision) ∧
    Sample.nestedSwitch .switch ≠ Sample.nestedSwitch .decision ∧
    (Sample.switchDiagram .switch).EditedAlike (Sample.switchDiagram .decision) ∧
    (Sample.caseAdded .switch).Recast (Sample.caseAdded .decision) ∧
    Sample.caseAdded .switch ≠ Sample.switchDiagram .switch ∧
    ∃ e e', (Sample.switchDiagram .switch).edit (.addBranch "u" .simple) = .error e ∧
      (Sample.switchDiagram .decision).edit (.addBranch "u" .simple) = .error e' ∧ e ≠ e' ∧
      e.category = e'.category := by
  have hnested : List.Forall₂ Task.Recast (Sample.nestedSwitch .switch)
      (Sample.nestedSwitch .decision) :=
    .cons (Sample.recast_routed (.same .switch)
      (.cons (Sample.recast_routed .decision (Task.recasts_refl _) "u" []) .nil) "s" _) .nil
  have hdrawn : ∀ form, Diagram.ofDefinition (.ofTasks "w" (Sample.nestedSwitch form)) .standard =
      .ok (Sample.switchDiagram form) := fun form =>
    Outcome.eq_ok_of_isOk (by cases form <;> decide +kernel) _
  have halike : (Sample.switchDiagram .switch).EditedAlike (Sample.switchDiagram .decision) := by
    obtain ⟨-, -, -, hdefinitions, -⟩ := recast_alike hnested
    have hrel : Outcome.Rel Eq Diagram.EditedAlike
        (Diagram.ofDefinition (.ofTasks "w" (Sample.nestedSwitch .switch)) .standard)
        (Diagram.ofDefinition (.ofTasks "w" (Sample.nestedSwitch .decision)) .standard) :=
      hdefinitions (.ofTasks "w" []) .standard
    rw [hdrawn, hdrawn] at hrel
    cases hrel
    assumption
  have hbranch := halike.edit [] [] .nil (.addBranch "u" .simple) _ (.same _)
  have herror : ∀ form, (Sample.switchDiagram form).edit (.addBranch "u" .simple) =
      .error (.unexpectedType "u" .forkJoin form.type) := by
    intro form
    cases form <;> decide +kernel
  refine ⟨hnested, by decide +kernel, halike, halike.stay _ _ (.cons (.same _) .nil),
    by decide +kernel, _, _, herror .switch, herror .decision, by decide, ?_⟩
  rw [Diagram.performAll, List.foldl_nil, Diagram.performAll, List.foldl_nil, herror,
    herror] at hbranch
  cases hbranch with
  | error he => exact he.category_eq

end Flowchart

import Flowchart.Proofs.SlotEdits

/-!
# What edits of a single task change

Five edits change the task at a slot and nothing around it. Four of them put a template into it: as
a further branch of a fork, as a further case of a switch, or in the place of a default or a body.
The fifth puts another task in its place.
-/

namespace Flowchart

/-- The reference that an edit goes to. -/
def Edit.target : Edit → String
  | insert target _ | addBranch target _ | addCase target _ | setDefault target _
  | setBody target _ | delete target | replace target _ => target

/-- What an edit makes of the task at its slot. Branches and cases that are there stay in front of
the new one, and a new case has the lowest number that is free, from the number of cases on. -/
inductive Diagram.Reshapes (d : Diagram) : Edit → Task → Task → Prop where
  | addBranch {fork : String} {type : TaskType} {t : Task} {branches : List (List Task)}
      {branch : List Task} : Task.template type (d.freshRef type.stem) = .ok branch →
      t.kind = .fork branches →
      Reshapes d (.addBranch fork type) t { t with kind := .fork (branches ++ [branch]) }
  | addCase {switch : String} {type : TaskType} {t : Task} {form : SwitchForm}
      {s : Switch (List Task)} {branch : List Task} {n : Nat} :
      Task.template type (d.freshRef type.stem) = .ok branch →
      t.kind = .switch form s → s.cases.length ≤ n →
      numberedRef "case" n ∉ Dict.keys s.cases →
      (∀ m, s.cases.length ≤ m → m < n → numberedRef "case" m ∈ Dict.keys s.cases) →
      Reshapes d (.addCase switch type) t { t with
        kind := .switch form { s with cases := s.cases ++ [(numberedRef "case" n, branch)] } }
  | setDefault {switch : String} {type : TaskType} {t : Task} {form : SwitchForm}
      {s : Switch (List Task)} {branch : List Task} :
      Task.template type (d.freshRef type.stem) = .ok branch → t.kind = .switch form s →
      Reshapes d (.setDefault switch type) t
        { t with kind := .switch form { s with otherwise := branch } }
  | setBody {loop : String} {type : TaskType} {t : Task} {condition : Option String}
      {old body : List Task} : Task.template type (d.freshRef type.stem) = .ok body →
      t.kind = .loop condition old →
      Reshapes d (.setBody loop type) t { t with kind := .loop condition body }
  | replace {target : String} {t task : Task} : Reshapes d (.replace target task) t task

namespace Diagram

variable {d after : Diagram} {e : Edit} {t t' : Task}

/-- A template is put in beside paired forks, and the task keeps its own place among them. -/
theorem Reshapes.forksPaired (h : d.Reshapes e t t') (he : ∀ target task, e ≠ .replace target task) :
    t'.kind.role = t.kind.role ∧ ((∀ s ∈ t.kind.sequences, ForksPaired s) →
      ∀ s ∈ t'.kind.sequences, ForksPaired s) := by
  cases h with
  | addBranch htemplate hk =>
    rw [hk]
    refine ⟨rfl, fun h => List.forall_mem_append.mpr ⟨h, ?_⟩⟩
    exact List.forall_mem_singleton.mpr (Task.forksPaired_template htemplate)
  | addCase htemplate hk _ _ _ =>
    rw [hk]
    refine ⟨rfl, fun h => ?_⟩
    simp only [Kind.sequences, Switch.sequences, List.map_append, List.forall_mem_cons,
      List.forall_mem_append] at h ⊢
    exact ⟨h.1, h.2, List.forall_mem_singleton.mpr (Task.forksPaired_template htemplate)⟩
  | setDefault htemplate hk =>
    rw [hk]
    refine ⟨rfl, fun h => List.forall_mem_cons.mpr ⟨Task.forksPaired_template htemplate, ?_⟩⟩
    exact (List.forall_mem_cons.mp h).2
  | setBody htemplate hk =>
    rw [hk]
    exact ⟨rfl, fun _ => List.forall_mem_singleton.mpr (Task.forksPaired_template htemplate)⟩
  | replace => exact absurd rfl (he _ _)

/-- A change of the kind of a task changes this task alone. -/
theorem Reachable.changeKind_frame (hd : d.Reachable) (hkeyed : Throughout Kind.Keyed d.tasks)
    {reference : String} {expected : TaskType}
    {change : Kind (List Task) → Option (Kind (List Task))} {tasks : List Task}
    (h : d.changeKind reference expected change = .ok tasks) :
    ∃ hole before t rest kind, d.HasSlot reference hole before t ∧ change t.kind = some kind ∧
      d.tasks = hole.plug (before ++ t :: rest) ∧
      tasks = hole.plug (before ++ { t with kind := kind } :: rest) := by
  obtain ⟨place, s, t, kind, hlocate, hkind, hmodify⟩ := changeKind_ok h
  obtain ⟨hole, before, rest, hslot, rfl, rfl, htasks⟩ := hd.slot_of_locate hkeyed hlocate
  rw [htasks, hole.modify?_slot] at hmodify
  exact ⟨hole, before, t, rest, kind, hslot, hkind, htasks, (Option.some.inj hmodify).symm⟩

/-- An edit of a single task finds its slot and reshapes what stands there. -/
theorem Reachable.exists_reshapes (hd : d.Reachable) (hkeyed : Throughout Kind.Keyed d.tasks)
    (hinsert : ∀ target type, e ≠ .insert target type) (hdelete : ∀ target, e ≠ .delete target)
    {tasks : List Task} (h : d.editedTasks e = .ok tasks) :
    ∃ hole before t t' rest, d.HasSlot e.target hole before t ∧ d.Reshapes e t t' ∧
      d.tasks = hole.plug (before ++ t :: rest) ∧ tasks = hole.plug (before ++ t' :: rest) := by
  have hentry : ∀ {expected type : TaskType}
      {enter : List Task → Kind (List Task) → Option (Kind (List Task))},
      (d.freshTasks type >>= fun inserted => d.changeKind e.target expected (enter inserted)) =
        .ok tasks →
      (∀ inserted (t : Task) kind, Task.template type (d.freshRef type.stem) = .ok inserted →
        enter inserted t.kind = some kind → d.Reshapes e t { t with kind := kind }) →
      ∃ hole before t t' rest, d.HasSlot e.target hole before t ∧ d.Reshapes e t t' ∧
        d.tasks = hole.plug (before ++ t :: rest) ∧ tasks = hole.plug (before ++ t' :: rest) := by
    intro expected type enter h hreshapes
    obtain ⟨inserted, htemplate, hchange⟩ := Outcome.bind_eq_ok.mp h
    obtain ⟨hole, before, t, rest, kind, hslot, hkind, htasks, hafter⟩ :=
      hd.changeKind_frame hkeyed hchange
    exact ⟨hole, before, t, _, rest, hslot, hreshapes inserted t kind htemplate hkind, htasks,
      hafter⟩
  cases e with
  | insert target type => exact absurd rfl (hinsert target type)
  | delete target => exact absurd rfl (hdelete target)
  | addBranch fork type =>
    refine hentry h fun branch t kind htemplate hkind => ?_
    obtain ⟨branches, hk, rfl⟩ := Kind.addBranch?_eq_some.mp hkind
    exact .addBranch htemplate hk
  | addCase switch type =>
    refine hentry h fun branch t kind htemplate hkind => ?_
    obtain ⟨form, s, hk, rfl⟩ := Kind.addCase?_eq_some.mp hkind
    obtain ⟨n, hkey, hfrom, hfree, hbelow⟩ := Kind.freshCase_spec s.cases
    rw [hkey]
    exact .addCase htemplate hk hfrom hfree hbelow
  | setDefault switch type =>
    refine hentry h fun branch t kind htemplate hkind => ?_
    obtain ⟨form, s, hk, rfl⟩ := Kind.setDefault?_eq_some.mp hkind
    exact .setDefault htemplate hk
  | setBody loop type =>
    refine hentry h fun body t kind htemplate hkind => ?_
    obtain ⟨condition, old, hk, rfl⟩ := Kind.setBody?_eq_some.mp hkind
    exact .setBody htemplate hk
  | replace target task =>
    obtain ⟨place, s, t, hlocate, hmodify⟩ := replace_ok h
    obtain ⟨hole, before, rest, hslot, rfl, rfl, htasks⟩ := hd.slot_of_locate hkeyed hlocate
    rw [htasks, hole.modify?_slot] at hmodify
    exact ⟨hole, before, t, task, rest, hslot, .replace, htasks, (Option.some.inj hmodify).symm⟩

/-- **Edits of a single task.** A branch, a case, a default or a body is put in at its own place in
the task at the slot, or that task is replaced. All that was in the task besides stays in order, and
so do the tree around it and the rest of the definition. A template parts no fork from its join. -/
theorem Reachable.reshape_frame (hd : d.Reachable) (hkeyed : Throughout Kind.Keyed d.tasks)
    (hinsert : ∀ target type, e ≠ .insert target type) (hdelete : ∀ target, e ≠ .delete target)
    (h : d.edit e = .ok after) :
    ∃ hole before t t' rest, d.HasSlot e.target hole before t ∧ d.Reshapes e t t' ∧
      d.tasks = hole.plug (before ++ t :: rest) ∧
      after.tasks = hole.plug (before ++ t' :: rest) ∧
      after = { d.withTasks after.tasks with graph := after.graph } ∧
      ((∀ target task, e ≠ .replace target task) → ForksPaired d.tasks →
        ForksPaired after.tasks) := by
  obtain ⟨hole, before, t, t', rest, hslot, hreshapes, htasks, hafter⟩ :=
    hd.exists_reshapes hkeyed hinsert hdelete (edit_ok h).1
  refine ⟨hole, before, t, t', rest, hslot, hreshapes, htasks, hafter, edit_eq h,
    fun hreplace hpaired => ?_⟩
  rw [htasks] at hpaired
  obtain ⟨hsequence, hplug⟩ := Hole.forksPaired_plug hpaired
  obtain ⟨hrole, hinner⟩ := hreshapes.forksPaired hreplace
  rw [hafter, hplug, forksPaired_exchange hrole hsequence]
  exact hinner ((forksPaired_iff.mp hsequence).2 t (List.mem_append_right _ List.mem_cons_self))

end Diagram

namespace Sample

/-- A switch in a branch of a fork. The first key that a new case would get is in use. -/
def nestedCases : Definition :=
  .ofTasks "w" [.ofRef "f" (.fork [[.ofRef "s" (.switch .switch
      { Switch.empty [] with cases := [("case_1", [.ofRef "a" (.worker .simple)])] })]]),
    .ofRef "j" (.join [])]

def nestedCasesDiagram : Diagram :=
  (Diagram.ofDefinition nestedCases .standard).toOption.getD
    ⟨nestedCases, none, .empty, .standard, .empty⟩

def furtherCaseDiagram : Diagram :=
  (nestedCasesDiagram.edit (.addCase "s" .forkJoin)).toOption.getD nestedCasesDiagram

end Sample

/-- The new case holds a fork with its join, and its key passes over the one that is in use. -/
theorem Diagram.Reachable.reshape_frame_of_case :
    Sample.nestedCasesDiagram.edit (.addCase "s" .forkJoin) = .ok Sample.furtherCaseDiagram ∧
      (∃ hole before t t' rest, Sample.nestedCasesDiagram.HasSlot "s" hole before t ∧
        Sample.nestedCasesDiagram.tasks = hole.plug (before ++ t :: rest) ∧
        Sample.furtherCaseDiagram.tasks = hole.plug (before ++ t' :: rest) ∧
        Sample.nestedCasesDiagram.Reshapes (.addCase "s" .forkJoin) t t') ∧
      Sample.furtherCaseDiagram.graph.edge? "s" "fork_join_0" = some ⟨false, some "case_2"⟩ ∧
      ForksPaired Sample.furtherCaseDiagram.tasks := by
  have hd : Diagram.ofDefinition Sample.nestedCases .standard = .ok Sample.nestedCasesDiagram :=
    Outcome.eq_ok_of_isOk (by decide +kernel) _
  have hedit : Sample.nestedCasesDiagram.edit (.addCase "s" .forkJoin) =
      .ok Sample.furtherCaseDiagram :=
    Outcome.eq_ok_of_isOk (by decide +kernel) _
  obtain ⟨hole, before, t, t', rest, hslot, hreshapes, htasks, hafter, -, hpaired⟩ :=
    Diagram.Reachable.reshape_frame (.ofDefinition hd) (by decide +kernel) (by nofun) (by nofun)
      hedit
  exact ⟨hedit, ⟨hole, before, t, t', rest, hslot, htasks, hafter, hreshapes⟩, by decide +kernel,
    hpaired (by nofun) (by decide +kernel)⟩

end Flowchart

import Flowchart.Proofs.BranchEdits
import Flowchart.Proofs.Walks
import Flowchart.Proofs.Drawable

/-!
# Why edits are refused

An edit of a definition is refused for what it asks for and for nothing else: a template that there
is none of, a slot that the target does not have, or a task that is not of the kind at hand. Once
the tree is changed, it can be drawn, if only no two things in it have one reference.
-/

namespace Flowchart

/-- There are tasks to put in for a new task of the type. -/
def TaskType.HasTemplate (type : TaskType) : Prop :=
  ∃ reference inserted, Task.template type reference = .ok inserted

namespace Edit

/-- What the edit puts in, if anything, has a template. -/
def Supplied (e : Edit) : Prop := ∀ type, e.inserted? = some type → type.HasTemplate

/-- An insertion behind the start bubble goes to the front of the root and asks for no slot. -/
def AtStart (e : Edit) : Prop := ∃ type, e = .insert startBubble type

/-- What the edit asks of the task at its slot, and of the tasks behind that one. -/
def Fits : Edit → Task → List Task → Prop
  | insert _ _, t, rest | delete _, t, rest => t.kind.isFork = true → joinFirst rest = true
  | addBranch _ _, t, _ => t.type = .forkJoin
  | addCase _ _, t, _ | setDefault _ _, t, _ => t.type = .switch ∨ t.type = .decision
  | setBody _ _, t, _ => t.type = .doWhile
  | replace _ _, _, _ => True

/-- What is said of a task that the edit does not fit. -/
def misfit : Edit → Task → Error
  | insert target _, _ | delete target, _ | replace target _, _ => .missingJoin target
  | addBranch fork _, t => .unexpectedType fork .forkJoin t.type
  | addCase switch _, t | setDefault switch _, t => .unexpectedType switch .switch t.type
  | setBody loop _, t => .unexpectedType loop .doWhile t.type

end Edit

namespace Diagram

/-- The edit finds all that it asks for. -/
def Accepts (d : Diagram) (e : Edit) : Prop :=
  e.Supplied ∧ (e.AtStart ∨ ∃ hole before t rest, d.HasSlot e.target hole before t ∧
    d.tasks = hole.plug (before ++ t :: rest) ∧ e.Fits t rest)

/-- The reasons for which an edit is refused. The template is looked at first, then the vertex of
the target, then its slot, and last the task that is there. -/
inductive Refuses (d : Diagram) : Edit → Error → Prop where
  | noTemplate {e : Edit} {type : TaskType} : e.inserted? = some type → ¬ type.HasTemplate →
      Refuses d e (.noTemplate type)
  | notDrawn {e : Edit} : e.Supplied → ¬ e.AtStart → e.target ∉ d.graph.references →
      Refuses d e (.notFound .task e.target)
  | noSlot {e : Edit} {v : Vertex} : e.Supplied → ¬ e.AtStart →
      d.graph.vertex? e.target = some v → v.position = none → Refuses d e (.noSlot e.target)
  | misfit {e : Edit} {hole : Hole} {before rest : List Task} {t : Task} : e.Supplied →
      ¬ e.AtStart → d.HasSlot e.target hole before t → d.tasks = hole.plug (before ++ t :: rest) →
      ¬ e.Fits t rest → Refuses d e (e.misfit t)

end Diagram

/-- Whether there is a template does not hang on the reference. -/
theorem Task.template_of_hasTemplate {type : TaskType} (h : type.HasTemplate)
    (reference : String) : ∃ inserted, template type reference = .ok inserted := by
  obtain ⟨r, inserted, h⟩ := h
  cases type <;> cases h <;> exact ⟨_, rfl⟩

theorem Task.template_of_not_hasTemplate {type : TaskType} (h : ¬ type.HasTemplate)
    (reference : String) : template type reference = .error (.noTemplate type) := by
  cases htemplate : template type reference with
  | ok inserted => exact absurd ⟨reference, inserted, htemplate⟩ h
  | error error => cases type <;> cases htemplate <;> rfl

namespace Kind

variable {k : Kind (List Task)} {inserted : List Task}

theorem type_eq_forkJoin : k.type = .forkJoin ↔ ∃ branches, k = .fork branches := by
  constructor
  · cases k with
    | fork branches => exact fun _ => ⟨branches, rfl⟩
    | worker w => cases w <;> exact nofun
    | marker m => cases m <;> exact nofun
    | switch form s => cases form <;> exact nofun
    | _ => exact nofun
  · rintro ⟨branches, rfl⟩
    rfl

theorem type_eq_switch :
    k.type = .switch ∨ k.type = .decision ↔ ∃ form s, k = .switch form s := by
  constructor
  · cases k with
    | switch form s => exact fun _ => ⟨form, s, rfl⟩
    | worker w => cases w <;> rintro (h | h) <;> cases h
    | marker m => cases m <;> rintro (h | h) <;> cases h
    | _ => rintro (h | h) <;> cases h
  · rintro ⟨form, s, rfl⟩
    cases form
    · exact Or.inl rfl
    · exact Or.inr rfl

theorem isSome_addBranch? : (k.addBranch? inserted).isSome = true ↔ k.type = .forkJoin := by
  rw [type_eq_forkJoin]
  cases k <;> simp [addBranch?]

theorem isSome_addCase? : (k.addCase? inserted).isSome = true ↔
    k.type = .switch ∨ k.type = .decision := by
  rw [type_eq_switch]
  cases k <;> simp [addCase?]

theorem isSome_setDefault? : (k.setDefault? inserted).isSome = true ↔
    k.type = .switch ∨ k.type = .decision := by
  rw [type_eq_switch]
  cases k <;> simp [setDefault?]

theorem isSome_setBody? : (k.setBody? inserted).isSome = true ↔ k.type = .doWhile := by
  rw [type_eq_doWhile]
  cases k <;> simp [setBody?]

end Kind

namespace Diagram

variable {d : Diagram} {e : Edit} {error : Error} {reference : String} {hole : Hole}
  {before rest : List Task} {t : Task}

/-- The slot of a vertex is where its task is located. -/
theorem HasSlot.locate (h : d.HasSlot reference hole before t)
    (htasks : d.tasks = hole.plug (before ++ t :: rest))
    (hends : Throughout (·.type ≠ .doWhileEnd) d.tasks) :
    d.locate reference = .ok (⟨hole.path, before.length⟩, before ++ t :: rest, t) := by
  obtain ⟨v, hv, hpath, hposition, hdrawn⟩ := h
  have hs : hole.path.get? d.tasks = some (before ++ t :: rest) := by
    rw [htasks]
    exact hole.get?_plug _
  have hend := (throughout_iff.mp (hends.follow? hs) t (by simp)).1
  exact locate_of_vertex hv hposition hpath hs (getElem?_middle before rest t)
    (hdrawn.reportRef_eq hend).symm

theorem locate_of_not_drawn (h : reference ∉ d.graph.references) :
    d.locate reference = .error (.notFound .task reference) := by
  have hnone : d.graph.vertex? reference = none := by
    refine Option.eq_none_iff_forall_ne_some.mpr fun v hv => h ?_
    obtain ⟨hmem, rfl⟩ := Graph.vertex?_ok hv
    exact List.mem_map_of_mem hmem
  rw [locate, hnone]
  rfl

theorem locate_of_no_slot {v : Vertex} (hv : d.graph.vertex? reference = some v)
    (h : v.position = none) : d.locate reference = .error (.noSlot reference) := by
  rw [locate, hv]
  dsimp only
  rw [h]
  rfl

/-- A target is not drawn, or its vertex has no place, or it has a slot. -/
theorem Reachable.slot_cases (hd : d.Reachable) (hkeyed : Throughout Kind.Keyed d.tasks)
    (hends : Throughout (·.type ≠ .doWhileEnd) d.tasks) (reference : String) :
    reference ∉ d.graph.references ∨
      (∃ v, d.graph.vertex? reference = some v ∧ v.position = none) ∨
      ∃ hole before t rest, d.HasSlot reference hole before t ∧
        d.tasks = hole.plug (before ++ t :: rest) := by
  by_cases hdrawn : reference ∈ d.graph.references
  · obtain ⟨v, hv⟩ := Graph.exists_vertex? hdrawn
    refine Or.inr ?_
    cases hposition : v.position with
    | none => exact Or.inl ⟨v, hv, hposition⟩
    | some i =>
      obtain ⟨s, u, hleads, hu, hdrawn⟩ :=
        Graph.recorded hd.graph_eq hkeyed (List.mem_of_find?_eq_some hv) hposition
      have hlocate : d.locate reference = .ok (⟨v.parent, i⟩, s, u) :=
        locate_of_vertex hv hposition rfl hleads.follow? hu
          (hdrawn.reportRef_eq (hends.of_leads hleads hu)).symm
      obtain ⟨hole, before, rest, hslot, -, rfl, htasks⟩ := hd.slot_of_locate hkeyed hlocate
      exact Or.inr ⟨hole, before, u, rest, hslot, htasks⟩
  · exact Or.inl hdrawn

/-! ### What an edit makes of its slot

Once an edit has found its task, one question is left, and one error if the answer is no. The tasks
around the slot matter only where a fork must have its join behind it.
-/

theorem extent_eq (reference : String) (before rest : List Task) (t : Task) :
    extent reference (before ++ t :: rest) before.length t =
      if t.kind.isFork = true → joinFirst rest = true
        then .ok (if t.kind.isFork then 2 else 1) else .error (.missingJoin reference) := by
  have hbehind : (before ++ t :: rest)[before.length + 1]? = rest.head? := by
    rw [List.getElem?_append_right (Nat.le_add_right _ _), Nat.add_sub_cancel_left,
      List.getElem?_cons_succ, List.head?_eq_getElem?]
  rw [extent, hbehind]
  by_cases hfork : t.kind.isFork = true
  · rw [if_pos hfork, if_pos hfork]
    cases rest with
    | nil => exact (if_neg fun h => absurd (h hfork) (by nofun)).symm
    | cons join rest =>
      by_cases hjoin : join.kind.isJoin = true
      · exact (if_pos hjoin).trans (if_pos fun _ => hjoin).symm
      · exact (if_neg hjoin).trans (if_neg fun h => hjoin (h hfork)).symm
  · rw [if_neg hfork, if_neg hfork, if_pos fun h => absurd h hfork]
    rfl

/-- A change of the kind of a task goes through if it fits that kind. -/
theorem changeKind_eq {expected : TaskType}
    {change : Kind (List Task) → Option (Kind (List Task))}
    (hlocate : d.locate reference = .ok (⟨hole.path, before.length⟩, before ++ t :: rest, t))
    (htasks : d.tasks = hole.plug (before ++ t :: rest)) :
    d.changeKind reference expected change =
      match change t.kind with
      | some kind => .ok (hole.plug (before ++ { t with kind := kind } :: rest))
      | none => .error (.unexpectedType reference expected t.type) := by
  refine (Outcome.bind_of_ok hlocate).trans ?_
  dsimp only
  cases change t.kind with
  | none => rfl
  | some kind =>
    dsimp only
    rw [htasks, hole.modify?_slot]
    rfl

/-- Whether an edit goes through hangs on whether the task at its slot fits. -/
structure Settles (result : Except Error (List Task)) (fits : Prop) (error : Error) : Prop where
  ok : fits → ∃ tasks, result = .ok tasks
  error : ¬ fits → result = .error error

theorem settles_changeKind {expected : TaskType} {fits : Prop}
    {change : Kind (List Task) → Option (Kind (List Task))}
    (hlocate : d.locate reference = .ok (⟨hole.path, before.length⟩, before ++ t :: rest, t))
    (htasks : d.tasks = hole.plug (before ++ t :: rest))
    (hfits : (change t.kind).isSome = true ↔ fits) :
    Settles (d.changeKind reference expected change) fits
      (.unexpectedType reference expected t.type) := by
  rw [← hfits, changeKind_eq hlocate htasks]
  cases change t.kind with
  | none => exact ⟨nofun, fun _ => rfl⟩
  | some kind => exact ⟨fun _ => ⟨_, rfl⟩, fun h => absurd rfl h⟩

theorem spliceAt_plug {s inserted : List Task} {i : Nat} (htasks : d.tasks = hole.plug s) :
    d.spliceAt reference ⟨hole.path, i⟩ inserted =
      .ok (hole.plug (s.take i ++ inserted ++ s.drop i)) := by
  rw [spliceAt, htasks, hole.modify?_plug]
  rfl

theorem settles_insertion {target : String} {inserted : List Task} (hstart : target ≠ startBubble)
    (hlocate : d.locate target = .ok (⟨hole.path, before.length⟩, before ++ t :: rest, t))
    (htasks : d.tasks = hole.plug (before ++ t :: rest)) :
    Settles (d.insertionPlace target >>= fun place => d.spliceAt target place inserted)
      (t.kind.isFork = true → joinFirst rest = true) (.missingJoin target) := by
  have hplace : d.insertionPlace target =
      (extent target (before ++ t :: rest) before.length t >>= fun count =>
        pure ⟨hole.path, before.length + count⟩) := by
    rw [insertionPlace, if_neg hstart]
    exact Outcome.bind_of_ok hlocate
  rw [hplace, extent_eq]
  constructor
  · intro hfits
    rw [if_pos hfits]
    exact ⟨_, spliceAt_plug htasks⟩
  · intro hmisfit
    rw [if_neg hmisfit]
    rfl

theorem settles_removal {target : String}
    (hlocate : d.locate target = .ok (⟨hole.path, before.length⟩, before ++ t :: rest, t))
    (htasks : d.tasks = hole.plug (before ++ t :: rest)) :
    Settles (d.remove target) (t.kind.isFork = true → joinFirst rest = true)
      (.missingJoin target) := by
  constructor
  · intro hfits
    have hcount := extent_eq target before rest t
    rw [if_pos hfits] at hcount
    have hmodify := hole.modify?_plug (fun _ => (before ++ t :: rest).take before.length ++
      (before ++ t :: rest).drop (before.length + if t.kind.isFork then 2 else 1))
      (before ++ t :: rest)
    rw [← htasks] at hmodify
    exact ⟨_, remove_of_locate hlocate hcount hmodify⟩
  · intro hmisfit
    refine (Outcome.bind_of_ok hlocate).trans (Outcome.bind_of_error ?_)
    dsimp only
    rw [extent_eq, if_neg hmisfit]

/-- At its slot an edit goes through if the task there fits, and is refused for that task if not. -/
theorem settles_editedTasks (hsupplied : e.Supplied) (hstart : ¬ e.AtStart)
    (hlocate : d.locate e.target = .ok (⟨hole.path, before.length⟩, before ++ t :: rest, t))
    (htasks : d.tasks = hole.plug (before ++ t :: rest)) :
    Settles (d.editedTasks e) (e.Fits t rest) (e.misfit t) := by
  have htemplate : ∀ {type : TaskType}, e.inserted? = some type →
      ∃ inserted, d.freshTasks type = .ok inserted :=
    fun {type} h => Task.template_of_hasTemplate (hsupplied type h) _
  have hentry : ∀ {expected type : TaskType}
      {enter : List Task → Kind (List Task) → Option (Kind (List Task))} {fits : Prop},
      e.inserted? = some type → (∀ inserted, (enter inserted t.kind).isSome = true ↔ fits) →
      Settles (d.freshTasks type >>= fun inserted => d.changeKind e.target expected (enter inserted))
        fits (.unexpectedType e.target expected t.type) := by
    intro expected type enter fits h hfits
    obtain ⟨inserted, hinserted⟩ := htemplate h
    rw [Outcome.bind_of_ok hinserted]
    exact settles_changeKind hlocate htasks (hfits inserted)
  cases e with
  | insert target type =>
    obtain ⟨inserted, hinserted⟩ := htemplate rfl
    rw [editedTasks, Outcome.bind_of_ok hinserted]
    exact settles_insertion (fun heq => hstart ⟨type, by rw [heq]⟩) hlocate htasks
  | addBranch fork type => exact hentry rfl fun _ => Kind.isSome_addBranch?
  | addCase switch type => exact hentry rfl fun _ => Kind.isSome_addCase?
  | setDefault switch type => exact hentry rfl fun _ => Kind.isSome_setDefault?
  | setBody loop type => exact hentry rfl fun _ => Kind.isSome_setBody?
  | delete target => exact settles_removal hlocate htasks
  | replace target task =>
    refine ⟨fun _ => ⟨hole.plug (before ++ task :: rest), ?_⟩, fun h => absurd trivial h⟩
    refine (Outcome.bind_of_ok hlocate).trans ?_
    dsimp only
    rw [htasks, hole.modify?_slot]
    rfl

/-- Nothing is done before there is a template. -/
theorem editedTasks_of_noTemplate {type : TaskType} (he : e.inserted? = some type)
    (h : ¬ type.HasTemplate) : d.editedTasks e = .error (.noTemplate type) := by
  have hnone : d.freshTasks type = .error (.noTemplate type) :=
    Task.template_of_not_hasTemplate h _
  rcases editedTasks_entry he with ⟨target, rfl⟩ | ⟨host, expected, enter, branch, -, -, heq⟩
  · exact Outcome.bind_of_error hnone
  · rw [(heq d).1]
    exact Outcome.bind_of_error hnone

/-- An edit with a template that does not find its target is refused for that. -/
theorem editedTasks_of_locate (hsupplied : e.Supplied) (hstart : ¬ e.AtStart)
    (hlocate : d.locate e.target = .error error) : d.editedTasks e = .error error := by
  have hafter : ∀ {type : TaskType} {f : List Task → Except Error (List Task)},
      e.inserted? = some type → (∀ inserted, f inserted = .error error) →
      (d.freshTasks type >>= f) = .error error := by
    intro type f h hf
    obtain ⟨inserted, hinserted⟩ := Task.template_of_hasTemplate (hsupplied type h)
      (d.freshRef type.stem)
    exact (Outcome.bind_of_ok hinserted).trans (hf inserted)
  cases e with
  | insert target type =>
    refine hafter rfl fun inserted => Outcome.bind_of_error ?_
    rw [insertionPlace, if_neg fun heq => hstart ⟨type, by rw [heq]⟩]
    exact Outcome.bind_of_error hlocate
  | addBranch | addCase | setDefault | setBody =>
    exact hafter rfl fun inserted => Outcome.bind_of_error hlocate
  | delete | replace => exact Outcome.bind_of_error hlocate

theorem editedTasks_of_start (hsupplied : e.Supplied) (hstart : e.AtStart) :
    ∃ tasks, d.editedTasks e = .ok tasks := by
  obtain ⟨type, rfl⟩ := hstart
  obtain ⟨inserted, hinserted⟩ := Task.template_of_hasTemplate (hsupplied type rfl)
    (d.freshRef type.stem)
  exact ⟨_, Outcome.bind_eq_ok.mpr ⟨inserted, hinserted, rfl⟩⟩

theorem Accepts.editedTasks (h : d.Accepts e) (hends : Throughout (·.type ≠ .doWhileEnd) d.tasks) :
    ∃ tasks, d.editedTasks e = .ok tasks := by
  obtain ⟨hsupplied, hplace⟩ := h
  by_cases hstart : e.AtStart
  · exact editedTasks_of_start hsupplied hstart
  · obtain ⟨hole, before, t, rest, hslot, htasks, hfits⟩ := hplace.resolve_left hstart
    exact (settles_editedTasks hsupplied hstart (hslot.locate htasks hends) htasks).ok hfits

theorem Refuses.editedTasks (h : d.Refuses e error)
    (hends : Throughout (·.type ≠ .doWhileEnd) d.tasks) : d.editedTasks e = .error error := by
  cases h with
  | noTemplate he hnone => exact editedTasks_of_noTemplate he hnone
  | notDrawn hsupplied hstart hdrawn =>
    exact editedTasks_of_locate hsupplied hstart (locate_of_not_drawn hdrawn)
  | noSlot hsupplied hstart hv hposition =>
    exact editedTasks_of_locate hsupplied hstart (locate_of_no_slot hv hposition)
  | misfit hsupplied hstart hslot htasks hmisfit =>
    have hlocate := hslot.locate htasks hends
    exact (settles_editedTasks hsupplied hstart hlocate htasks).error hmisfit

/-- Whatever is asked is either at hand or missing for one of the reasons. -/
theorem Reachable.accepts_or_refuses (hd : d.Reachable) (hkeyed : Throughout Kind.Keyed d.tasks)
    (hends : Throughout (·.type ≠ .doWhileEnd) d.tasks) (e : Edit) :
    d.Accepts e ∨ ∃ error, d.Refuses e error := by
  by_cases hsupplied : e.Supplied
  · by_cases hstart : e.AtStart
    · exact Or.inl ⟨hsupplied, Or.inl hstart⟩
    · rcases hd.slot_cases hkeyed hends e.target with hdrawn | ⟨v, hv, hposition⟩ |
        ⟨hole, before, t, rest, hslot, htasks⟩
      · exact Or.inr ⟨_, .notDrawn hsupplied hstart hdrawn⟩
      · exact Or.inr ⟨_, .noSlot hsupplied hstart hv hposition⟩
      · by_cases hfits : e.Fits t rest
        · exact Or.inl ⟨hsupplied, Or.inr ⟨hole, before, t, rest, hslot, htasks, hfits⟩⟩
        · exact Or.inr ⟨_, .misfit hsupplied hstart hslot htasks hfits⟩
  · obtain ⟨type, h⟩ := not_forall.mp hsupplied
    obtain ⟨he, hnone⟩ := Classical.not_imp.mp h
    exact Or.inr ⟨_, .noTemplate he hnone⟩

/-- A changed tree of a definition is drawn if no two things in it have one reference. -/
theorem Reachable.exists_redraw (hd : d.Reachable) (hdefinition : d.execution = none)
    {tasks : List Task}
    (hnodup : (Plan.ofTasks d.settings d.history tasks).references.Nodup) :
    ∃ after, d.redraw tasks = .ok after := by
  have hempty := hd.history_eq_empty hdefinition
  rw [hempty] at hnodup
  obtain ⟨g, hg⟩ := Graph.exists_of_completes History.Filed.empty
    (Plan.ofTasks_draws_walk d.settings tasks).completes hnodup
  rw [redraw, draw, hempty]
  exact ⟨_, Outcome.bind_of_ok hg⟩

/-- **Refusals.** An edit of a definition succeeds exactly if what it puts in has a template and its
target has a slot with a task that the edit fits. Else it is refused for the first of these that is
not so. Drawing the changed tree refuses nothing, if no two things in that tree have one
reference. -/
theorem Reachable.edit_accepted_iff (hd : d.Reachable) (hdefinition : d.execution = none)
    (hkeyed : Throughout Kind.Keyed d.tasks) (hends : Throughout (·.type ≠ .doWhileEnd) d.tasks)
    (hnodup : ∀ tasks, d.editedTasks e = .ok tasks →
      (Plan.ofTasks d.settings d.history tasks).references.Nodup) :
    ((∃ after, d.edit e = .ok after) ↔ d.Accepts e) ∧
      ∀ error, d.edit e = .error error ↔ d.Refuses e error := by
  have haccepted : d.Accepts e → ∃ after, d.edit e = .ok after := by
    intro haccepts
    obtain ⟨tasks, htasks⟩ := haccepts.editedTasks hends
    obtain ⟨after, hafter⟩ := hd.exists_redraw hdefinition (hnodup tasks htasks)
    exact ⟨after, (Outcome.bind_of_ok htasks).trans hafter⟩
  have hrefused : ∀ error, d.Refuses e error → d.edit e = .error error :=
    fun error hrefuses => Outcome.bind_of_error (hrefuses.editedTasks hends)
  refine ⟨⟨?_, haccepted⟩, fun error => ⟨fun herror => ?_, hrefused error⟩⟩
  · rintro ⟨after, hafter⟩
    rcases hd.accepts_or_refuses hkeyed hends e with haccepts | ⟨error, hrefuses⟩
    · exact haccepts
    · rw [hrefused error hrefuses] at hafter
      cases hafter
  · rcases hd.accepts_or_refuses hkeyed hends e with haccepts | ⟨error', hrefuses⟩
    · obtain ⟨after, hafter⟩ := haccepted haccepts
      rw [hafter] at herror
      cases herror
    · rw [hrefused error' hrefuses] at herror
      obtain rfl := Except.error.inj herror
      exact hrefuses

end Diagram

/-- A fork stands before its join and can be deleted. It is no switch, and gets no further case. -/
theorem Diagram.Reachable.edit_accepted_iff_of_fork :
    Sample.nestedCasesDiagram.Accepts (.delete "f") ∧
      (∃ after, Sample.nestedCasesDiagram.edit (.delete "f") = .ok after) ∧
      Sample.nestedCasesDiagram.Refuses (.addCase "f" .simple)
        (.unexpectedType "f" .switch .forkJoin) := by
  have hd : Diagram.ofDefinition Sample.nestedCases .standard = .ok Sample.nestedCasesDiagram :=
    Outcome.eq_ok_of_isOk (by decide +kernel) _
  have hdelete : Sample.nestedCasesDiagram.editedTasks (.delete "f") = .ok [] := by decide +kernel
  have hcase : Sample.nestedCasesDiagram.editedTasks (.addCase "f" .simple) =
      .error (.unexpectedType "f" .switch .forkJoin) := by
    decide +kernel
  have hafter : ∃ after, Sample.nestedCasesDiagram.edit (.delete "f") = .ok after :=
    ⟨_, Outcome.eq_ok_of_isOk (by decide +kernel) Sample.nestedCasesDiagram⟩
  refine ⟨?_, hafter, ?_⟩
  · refine (Diagram.Reachable.edit_accepted_iff (.ofDefinition hd) rfl (by decide +kernel)
      (by decide +kernel) fun tasks htasks => ?_).1.mp hafter
    obtain rfl := Except.ok.inj (hdelete.symm.trans htasks)
    decide +kernel
  · refine ((Diagram.Reachable.edit_accepted_iff (.ofDefinition hd) rfl (by decide +kernel)
      (by decide +kernel) fun tasks htasks => ?_).2 _).mp (Outcome.bind_of_error hcase)
    rw [hcase] at htasks
    cases htasks

end Flowchart

import Flowchart.Proofs.Deletions
import Flowchart.Proofs.Entries
import Flowchart.Proofs.Sessions

/-!
# What edits keep up

A requirement on kinds is to hold of all tasks of a tree. Each change that an edit makes of a tree
is one of a sequence, where tasks come and go, or one of the kind of a task. So a requirement is
kept up by all edits if the changes of kinds do not break it.
-/

namespace Flowchart

/-- The kinds of all tasks of a tree, at any depth, have `P`. -/
def Throughout (P : Kind (List Task) → Prop) (tasks : List Task) : Prop :=
  ∀ t ∈ listing tasks, P t.kind

instance (P : Kind (List Task) → Prop) [DecidablePred P] (tasks : List Task) :
    Decidable (Throughout P tasks) :=
  inferInstanceAs (Decidable (∀ t ∈ listing tasks, P t.kind))

/-- The tasks that come into the tree from outside. -/
def Edit.supplied : Edit → List Task
  | .replace _ task => [task]
  | _ => []

namespace Kind

/-- A requirement that the changes of a kind do not break. -/
structure Kept (P : Kind (List Task) → Prop) : Prop where
  set {k : Kind (List Task)} {branch : Branch} {s : List Task} : P k → P (k.set branch s)
  prune {k : Kind (List Task)} {branch : Branch} : P k → P (k.prune branch)
  enter {enter : List Task → Kind (List Task) → Option (Kind (List Task))}
    {branch : Kind (List Task) → Branch} {s : List Task} {k k' : Kind (List Task)} :
    Entry enter branch → P k → enter s k = some k' → P k'
  template {type : TaskType} {reference : String} {inserted : List Task} :
    Task.template type reference = .ok inserted → ∀ t ∈ inserted, P t.kind

end Kind

section

variable {P : Kind (List Task) → Prop} {tasks tasks' s s' : List Task}

theorem throughout_iff : Throughout P tasks ↔
    ∀ t ∈ tasks, P t.kind ∧ ∀ s ∈ t.kind.sequences, Throughout P s := by
  constructor
  · intro h t ht
    refine ⟨h t (mem_listing.mpr ⟨t, ht, Task.mem_family.mpr (Or.inl rfl)⟩), fun s hs u hu => ?_⟩
    exact h u (mem_listing.mpr ⟨t, ht, Task.mem_family.mpr (Or.inr ⟨s, hs, hu⟩)⟩)
  · intro h u hu
    obtain ⟨t, ht, hu⟩ := mem_listing.mp hu
    rcases Task.mem_family.mp hu with rfl | ⟨s, hs, hu⟩
    · exact (h u ht).1
    · exact (h t ht).2 s hs u hu

theorem throughout_nil : Throughout P [] :=
  throughout_iff.mpr fun _ ht => absurd ht List.not_mem_nil

/-- Tasks from a tree with `P` make one. -/
theorem Throughout.of_subset (h : Throughout P s) (hsub : ∀ t ∈ s', t ∈ s) : Throughout P s' :=
  throughout_iff.mpr fun t ht => throughout_iff.mp h t (hsub t ht)

theorem throughout_append : Throughout P (s ++ s') ↔ Throughout P s ∧ Throughout P s' := by
  rw [throughout_iff, throughout_iff, throughout_iff]
  exact List.forall_mem_append

theorem Throughout.set {i : Nat} {t : Task} (h : Throughout P s) (ht : P t.kind)
    (hinner : ∀ q ∈ t.kind.sequences, Throughout P q) : Throughout P (s.set i t) := by
  refine throughout_iff.mpr fun u hu => ?_
  rcases List.mem_or_eq_of_mem_set hu with hu | rfl
  · exact throughout_iff.mp h u hu
  · exact ⟨ht, hinner⟩

theorem Throughout.follow? {segments : List Segment} (h : Throughout P tasks)
    (hs : TreePath.follow? segments tasks = some s) : Throughout P s := by
  induction segments generalizing tasks with
  | nil =>
    obtain rfl := Option.some.inj hs
    exact h
  | cons segment rest ih =>
    obtain ⟨t, q, ht, hq, hs⟩ := TreePath.follow?_cons_eq_some.mp hs
    obtain ⟨-, hinner⟩ := throughout_iff.mp h t (List.mem_of_getElem? ht)
    exact ih (hinner q (Kind.mem_sequences_of_get? hq)) hs

variable (hP : Kind.Kept P)

include hP

theorem Throughout.change? {f : List Task → List Task} {segments : List Segment}
    (h : Throughout P tasks) (htasks' : TreePath.change? f segments tasks = some tasks')
    (hs : TreePath.follow? segments tasks = some s) (hf : Throughout P (f s)) :
    Throughout P tasks' := by
  induction segments generalizing tasks tasks' with
  | nil =>
    obtain rfl := Option.some.inj hs
    obtain rfl := Option.some.inj htasks'
    exact hf
  | cons segment rest ih =>
    obtain ⟨t, q, q', ht, hq, hq', rfl⟩ := TreePath.change?_cons htasks'
    rw [TreePath.follow?_cons ht hq] at hs
    obtain ⟨left, right, hsequences, hset⟩ := Kind.sequences_set hq
    obtain ⟨hkind, hinner⟩ := throughout_iff.mp h t (List.mem_of_getElem? ht)
    rw [hsequences, List.forall_mem_append, List.forall_mem_cons] at hinner
    refine h.set (hP.set hkind) ?_
    dsimp only
    rw [hset, List.forall_mem_append, List.forall_mem_cons]
    exact ⟨hinner.1, ih hinner.2.1 hq' hs, hinner.2.2⟩

theorem Throughout.modify? {place : Place} {change : Task → Task} {t : Task}
    (h : Throughout P tasks) (htasks' : place.modify? change tasks = some tasks')
    (hs : place.path.get? tasks = some s) (ht : s[place.index]? = some t)
    (hkind : P (change t).kind) (hinner : ∀ q ∈ (change t).kind.sequences, Throughout P q) :
    Throughout P tasks' := by
  rw [Place.modify?_eq hs ht] at htasks'
  exact h.change? hP htasks' hs ((h.follow? hs).set hkind hinner)

theorem Throughout.prune {path : TreePath} (h : Throughout P tasks) :
    Throughout P (path.prune tasks) := by
  unfold TreePath.prune
  split
  · exact h
  · next owner last _ =>
    cases hmodify : Place.modify? ⟨owner, last.index⟩
        (fun t => { t with kind := t.kind.prune last.branch }) tasks with
    | none => exact h
    | some tasks' =>
      obtain ⟨s, t, hs, ht, -⟩ := Place.modify?_eq_some.mp hmodify
      obtain ⟨hkind, hinner⟩ := throughout_iff.mp (h.follow? hs) t (List.mem_of_getElem? ht)
      exact h.modify? hP hmodify hs ht (hP.prune hkind) fun q hq =>
        hinner q (Kind.mem_sequences_prune hq)

theorem Throughout.template {type : TaskType} {reference : String} {inserted : List Task}
    (h : Task.template type reference = .ok inserted) : Throughout P inserted := by
  refine throughout_iff.mpr fun t ht => ⟨hP.template h t ht, fun s hs => ?_⟩
  suffices hempty : s = [] by
    rw [hempty]
    exact throughout_nil
  rcases Task.template_ok h with ⟨u, rfl, -, -, hflat, -⟩ | ⟨u, rfl, -, -, hnone, -⟩
  · rw [List.mem_singleton.mp ht] at hs
    exact List.flatten_eq_nil_iff.mp hflat s hs
  · rcases List.mem_cons.mp ht with rfl | ht
    · rw [hnone] at hs
      cases hs
    · rw [List.mem_singleton.mp ht] at hs
      cases hs

end

namespace Diagram

variable {P : Kind (List Task) → Prop} {d after : Diagram} {e : Edit} {tasks : List Task}

theorem throughout_changeKind (hP : Kind.Kept P) (h : Throughout P d.tasks)
    {reference : String} {expected type : TaskType}
    {enter : List Task → Kind (List Task) → Option (Kind (List Task))}
    {branch : Kind (List Task) → Branch} (hentry : Kind.Entry enter branch)
    (htasks : (d.freshTasks type >>= fun inserted =>
      d.changeKind reference expected (enter inserted)) = .ok tasks) : Throughout P tasks := by
  obtain ⟨inserted, hinserted, hchange⟩ := Outcome.bind_eq_ok.mp htasks
  obtain ⟨place, s, t, kind, hlocate, hkind, hmodify⟩ := changeKind_ok hchange
  obtain ⟨-, -, -, -, hs, ht, -⟩ := locate_ok hlocate
  obtain ⟨hold, hinner⟩ := throughout_iff.mp (h.follow? hs) t (List.mem_of_getElem? ht)
  refine h.modify? hP hmodify hs ht (hP.enter hentry hold hkind) fun q hq => ?_
  rcases hentry.mem_sequences hkind hq with rfl | hq
  · exact Throughout.template hP hinserted
  · exact hinner q hq

/-- What holds throughout a tree is kept up by every edit, if the tasks that come with it have
it. -/
theorem throughout_editedTasks (hP : Kind.Kept P) (h : Throughout P d.tasks)
    (hsupplied : Throughout P e.supplied) (htasks : d.editedTasks e = .ok tasks) :
    Throughout P tasks := by
  cases e with
  | insert target type =>
    obtain ⟨inserted, hinserted, htasks⟩ := Outcome.bind_eq_ok.mp htasks
    obtain ⟨place, -, htasks⟩ := Outcome.bind_eq_ok.mp htasks
    have hmodify := spliceAt_ok htasks
    obtain ⟨s, hs⟩ := TreePath.follow?_of_change? hmodify
    refine h.change? hP hmodify hs ?_
    have hsequence := h.follow? hs
    rw [throughout_append, throughout_append]
    exact ⟨⟨hsequence.of_subset fun t ht => List.mem_of_mem_take ht,
      Throughout.template hP hinserted⟩, hsequence.of_subset fun t ht => List.mem_of_mem_drop ht⟩
  | addBranch target type => exact throughout_changeKind hP h .addBranch htasks
  | addCase target type => exact throughout_changeKind hP h .addCase htasks
  | setDefault target type => exact throughout_changeKind hP h .setDefault htasks
  | setBody target type => exact throughout_changeKind hP h .setBody htasks
  | delete target =>
    obtain ⟨place, s, t, count, shortened, hlocate, -, hmodify, rfl⟩ := remove_ok htasks
    obtain ⟨-, -, -, -, hs, -, -⟩ := locate_ok hlocate
    have hshortened : Throughout P shortened := by
      refine h.change? hP hmodify hs ?_
      have hsequence := h.follow? hs
      rw [throughout_append]
      exact ⟨hsequence.of_subset fun t ht => List.mem_of_mem_take ht,
        hsequence.of_subset fun t ht => List.mem_of_mem_drop ht⟩
    split
    · exact hshortened.prune hP
    · exact hshortened
  | replace target task =>
    obtain ⟨place, s, t, hlocate, hmodify⟩ := replace_ok htasks
    obtain ⟨-, -, -, -, hs, ht, -⟩ := locate_ok hlocate
    obtain ⟨hkind, hinner⟩ := throughout_iff.mp hsupplied task List.mem_cons_self
    exact h.modify? hP hmodify hs ht hkind hinner

theorem throughout_perform (hP : Kind.Kept P) (h : Throughout P d.tasks)
    (hsupplied : Throughout P e.supplied) : Throughout P (d.perform e).tasks := by
  rw [perform_eq]
  cases hedit : d.edit e with
  | error error => exact h
  | ok after => exact throughout_editedTasks hP h hsupplied (edit_ok hedit).1

theorem throughout_performAll (hP : Kind.Kept P) {es : List Edit} (h : Throughout P d.tasks)
    (hsupplied : ∀ e ∈ es, Throughout P e.supplied) : Throughout P (d.performAll es).tasks := by
  induction es generalizing d with
  | nil => exact h
  | cons e es ih =>
    obtain ⟨he, hes⟩ := List.forall_mem_cons.mp hsupplied
    exact ih (throughout_perform hP h he) hes

end Diagram

namespace Kind

/-- No two cases of a switch have the same key, as they are meant to be a dictionary. -/
def Keyed (k : Kind (List Task)) : Prop := ∀ s ∈ k.switch?, (Dict.keys s.cases).Nodup

instance : DecidablePred Keyed := fun k =>
  inferInstanceAs (Decidable (∀ s ∈ k.switch?, (Dict.keys s.cases).Nodup))

theorem keyed_of_switch?_eq_none {k : Kind (List Task)} (h : k.switch? = none) : k.Keyed := by
  intro s hs
  rw [h] at hs
  cases hs

theorem keyed_kept : Kept Keyed where
  set {k branch s} h := by
    unfold set
    split
    · exact fun _ hs => h _ hs
    · next form switch key =>
      rintro _ ⟨⟩
      rw [Dict.keys_adjust]
      exact h switch rfl
    · next form switch =>
      rintro _ ⟨⟩
      exact h switch rfl
    · exact fun _ hs => h _ hs
    · exact h
  prune {k branch} h := by
    unfold prune
    split
    · exact fun _ hs => h _ hs
    · next form switch key =>
      rintro _ ⟨⟩
      exact (h switch rfl).sublist (List.filter_sublist.map _)
    · exact h
  enter {enter branch s k k'} hentry h heq := by
    cases hentry <;> cases k <;> cases heq
    case addCase form switch =>
      rintro _ ⟨⟩
      rw [Dict.keys, List.map_append, List.map_cons, List.map_nil, List.nodup_append]
      refine ⟨h switch rfl, List.nodup_singleton _, ?_⟩
      rintro key hkey _ hfresh rfl
      rw [List.mem_singleton.mp hfresh] at hkey
      exact freshCase_not_mem switch.cases hkey
    case setDefault form switch =>
      rintro _ ⟨⟩
      exact h switch rfl
    all_goals exact keyed_of_switch?_eq_none rfl
  template {type reference inserted} h := by
    cases type <;> cases h <;> exact of_decide_eq_true rfl

theorem isNotLoopEnd_kept : Kept (·.type ≠ .doWhileEnd) where
  set h := by rwa [type_set]
  prune h := by rwa [type_prune]
  enter hentry h heq := by rwa [hentry.type_eq heq]
  template {type reference inserted} h := by
    cases type <;> cases h <;> exact of_decide_eq_true rfl

end Kind

end Flowchart

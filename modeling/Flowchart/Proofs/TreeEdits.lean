import Flowchart.Diagram.Edit
import Flowchart.Proofs.Outcomes

/-!
# References in a changed tree

A path that resolves splits the references of a tree into those of the sequence at its end, those
before it and those after it. Changing that sequence leaves the other references where they are.
-/

namespace Flowchart

/-- The references of all tasks of a sequence, at any depth, depth first. -/
def treeRefs (tasks : List Task) : List String := (listing tasks).map (·.reference)

def Kind.treeRefs (kind : Kind (List Task)) : List String :=
  kind.sequences.flatMap Flowchart.treeRefs

@[simp] theorem treeRefs_nil : treeRefs [] = [] := rfl

theorem treeRefs_append (s s' : List Task) : treeRefs (s ++ s') = treeRefs s ++ treeRefs s' := by
  rw [treeRefs, listing, List.flatMap_append, List.map_append]
  rfl

theorem treeRefs_cons (t : Task) (rest : List Task) :
    treeRefs (t :: rest) = t.reference :: t.kind.treeRefs ++ treeRefs rest := by
  rw [treeRefs, listing, List.flatMap_cons, List.map_append, Task.family_eq, List.map_cons,
    Task.descendants, List.map_flatMap]
  rfl

/-- `as'` is `as` with `new` in the place of `old`. -/
def Swaps {α : Type} (old new as as' : List α) : Prop :=
  ∃ before after, as = before ++ old ++ after ∧ as' = before ++ new ++ after

namespace Swaps

variable {α : Type} {old new middle middle' as as' : List α}

theorem whole : Swaps old new old new :=
  ⟨[], [], (List.append_nil old).symm, (List.append_nil new).symm⟩

theorem trans (h : Swaps middle middle' as as') (h' : Swaps old new middle middle') :
    Swaps old new as as' := by
  obtain ⟨before, after, rfl, rfl⟩ := h
  obtain ⟨left, right, rfl, rfl⟩ := h'
  refine ⟨before ++ left, right ++ after, ?_, ?_⟩ <;> simp only [List.append_assoc]

/-- New entries stay apart from the old ones if none of them is left among those. -/
theorem nodup_iff (h : Swaps old new as as') (has : as.Nodup) (hnew : new.Nodup) :
    as'.Nodup ↔ ∀ a ∈ new, a ∈ as → a ∈ old := by
  obtain ⟨before, after, rfl, rfl⟩ := h
  simp only [List.nodup_append, List.mem_append] at has ⊢
  obtain ⟨⟨hbefore, -, hbeforeOld⟩, hafter, hapart⟩ := has
  constructor
  · rintro ⟨⟨-, -, hbeforeNew⟩, -, hapart'⟩ a ha ((hmem | hmem) | hmem)
    · exact absurd rfl (hbeforeNew a hmem a ha)
    · exact hmem
    · exact absurd rfl (hapart' a (Or.inr ha) a hmem)
  · intro hleft
    refine ⟨⟨hbefore, hnew, ?_⟩, hafter, ?_⟩
    · rintro a ha b hb rfl
      exact hbeforeOld a ha a (hleft a hb (Or.inl (Or.inl ha))) rfl
    · rintro a (ha | ha) b hb rfl
      · exact hapart a (Or.inl ha) a hb rfl
      · exact hapart a (Or.inr (hleft a ha (Or.inr hb))) a hb rfl

end Swaps

namespace Dict

variable {α : Type}

/-- The first entry under a key is the one that is looked up and changed. -/
theorem split_of_get? {d : Dict α} {key : String} {a : α} (h : get? d key = some a) :
    ∃ before after, d = before ++ (key, a) :: after ∧
      ∀ f, adjust d key f = before ++ (key, f a) :: after := by
  induction d with
  | nil => cases h
  | cons entry rest ih =>
    obtain ⟨k, b⟩ := entry
    rw [get?_cons] at h
    by_cases hk : k = key
    · rw [if_pos hk] at h
      obtain rfl := Option.some.inj h
      subst hk
      refine ⟨[], rest, rfl, fun f => ?_⟩
      rw [adjust, if_pos rfl, List.nil_append]
    · rw [if_neg hk] at h
      obtain ⟨before, after, rfl, hadjust⟩ := ih h
      refine ⟨(k, b) :: before, after, rfl, fun f => ?_⟩
      rw [adjust, if_neg hk, hadjust, List.cons_append]

end Dict

theorem split_of_getElem? {α : Type} {as : List α} {i : Nat} {a : α} (h : as[i]? = some a) :
    ∃ before after, as = before ++ a :: after ∧ before.length = i ∧
      ∀ b, as.set i b = before ++ b :: after := by
  obtain ⟨hi, rfl⟩ := List.getElem?_eq_some_iff.mp h
  refine ⟨as.take i, as.drop (i + 1), ?_, ?_, fun b => ?_⟩
  · rw [List.getElem_cons_drop, List.take_append_drop]
  · exact List.length_take_of_le (Nat.le_of_lt hi)
  · rw [List.set_eq_take_append_cons_drop, if_pos hi]

/-- The branch that is looked up is the one that is changed, and the others stay in place. -/
theorem Kind.sequences_set {σ : Type} {k : Kind σ} {branch : Branch} {s : σ}
    (h : k.get? branch = some s) :
    ∃ before after, k.sequences = before ++ s :: after ∧
      ∀ s', (k.set branch s').sequences = before ++ s' :: after := by
  unfold Kind.get? at h
  split at h
  · next branches i =>
    obtain ⟨before, after, heq, -, hset⟩ := split_of_getElem? h
    exact ⟨before, after, heq, hset⟩
  · next form switch key =>
    obtain ⟨before, after, heq, hadjust⟩ := Dict.split_of_get? h
    refine ⟨switch.otherwise :: before.map (·.2), after.map (·.2), ?_, fun s' => ?_⟩
    · rw [Kind.sequences, Switch.sequences, heq, List.map_append, List.map_cons, List.cons_append]
    · rw [Kind.set, Kind.sequences, Switch.sequences]
      simp only [hadjust, List.map_append, List.map_cons, List.cons_append]
  · next form switch =>
    obtain rfl := Option.some.inj h
    exact ⟨[], switch.cases.map (·.2), rfl, fun _ => rfl⟩
  · next condition body =>
    obtain rfl := Option.some.inj h
    exact ⟨[], [], rfl, fun _ => rfl⟩
  · cases h

variable {f : List Task → List Task} {segments : List Segment} {tasks tasks' : List Task}

theorem TreePath.follow?_cons {segment : Segment} {task : Task} {s : List Task}
    (htask : tasks[segment.index]? = some task) (hs : task.kind.get? segment.branch = some s) :
    follow? (segment :: segments) tasks = follow? segments s := by
  rw [follow?, htask]
  change (do follow? segments (← task.kind.get? segment.branch)) = _
  rw [hs]
  rfl

/-- A change along a path goes through one branch of one task. -/
theorem TreePath.change?_cons {segment : Segment}
    (h : change? f (segment :: segments) tasks = some tasks') :
    ∃ task s s', tasks[segment.index]? = some task ∧ task.kind.get? segment.branch = some s ∧
      change? f segments s = some s' ∧
      tasks' = tasks.set segment.index { task with kind := task.kind.set segment.branch s' } := by
  rw [change?] at h
  obtain ⟨task, htask, h⟩ := Option.bind_eq_some_iff.mp h
  obtain ⟨s, hs, h⟩ := Option.bind_eq_some_iff.mp h
  obtain ⟨s', hs', h⟩ := Option.bind_eq_some_iff.mp h
  exact ⟨task, s, s', htask, hs, hs', (Option.some.inj h).symm⟩

theorem treeRefs_change? (h : TreePath.change? f segments tasks = some tasks') :
    ∃ s, TreePath.follow? segments tasks = some s ∧
      Swaps (treeRefs s) (treeRefs (f s)) (treeRefs tasks) (treeRefs tasks') := by
  induction segments generalizing tasks tasks' with
  | nil =>
    obtain rfl := Option.some.inj h
    exact ⟨tasks, rfl, Swaps.whole⟩
  | cons segment rest ih =>
    obtain ⟨task, q, q', htask, hq, hq', rfl⟩ := TreePath.change?_cons h
    obtain ⟨s, hs, hswaps⟩ := ih hq'
    obtain ⟨left, right, hsequences, hset⟩ := Kind.sequences_set hq
    obtain ⟨front, back, htasks, -, hset'⟩ := split_of_getElem? htask
    refine ⟨s, ?_, Swaps.trans ⟨treeRefs front ++ task.reference :: left.flatMap treeRefs,
      right.flatMap treeRefs ++ treeRefs back, ?_, ?_⟩ hswaps⟩
    · rw [TreePath.follow?_cons htask hq, hs]
    · rw [htasks, treeRefs_append, treeRefs_cons, Kind.treeRefs, hsequences, List.flatMap_append,
        List.flatMap_cons]
      simp only [List.append_assoc, List.cons_append]
    · rw [hset', treeRefs_append, treeRefs_cons, Kind.treeRefs, hset, List.flatMap_append,
        List.flatMap_cons]
      simp only [List.append_assoc, List.cons_append]

/-- A task is changed by changing the sequence that it is in. -/
theorem Place.modify?_eq_some {place : Place} {change : Task → Task} :
    place.modify? change tasks = some tasks' ↔ ∃ s t, place.path.get? tasks = some s ∧
      s[place.index]? = some t ∧
        place.path.modify? (fun s => s.set place.index (change t)) tasks = some tasks' := by
  constructor
  · intro h
    obtain ⟨s, hs, h⟩ := Option.bind_eq_some_iff.mp h
    obtain ⟨t, ht, h⟩ := Option.bind_eq_some_iff.mp h
    exact ⟨s, t, hs, ht, h⟩
  · rintro ⟨s, t, hs, ht, h⟩
    exact Option.bind_eq_some_iff.mpr ⟨s, hs, Option.bind_eq_some_iff.mpr ⟨t, ht, h⟩⟩

theorem Place.modify?_eq {place : Place} {change : Task → Task} {tasks s : List Task} {t : Task}
    (hs : place.path.get? tasks = some s) (ht : s[place.index]? = some t) :
    place.modify? change tasks =
      place.path.modify? (fun s => s.set place.index (change t)) tasks := by
  refine Option.ext fun tasks' => Place.modify?_eq_some.trans ⟨?_, fun h => ⟨s, t, hs, ht, h⟩⟩
  rintro ⟨s', t', hs', ht', h⟩
  obtain rfl : s' = s := Option.some.inj (hs'.symm.trans hs)
  obtain rfl : t' = t := Option.some.inj (ht'.symm.trans ht)
  exact h

/-- Changing one task, but not its reference, changes the references inside it only. -/
theorem treeRefs_modify? {place : Place} {change : Task → Task} {s : List Task} {t : Task}
    (hs : place.path.get? tasks = some s) (ht : s[place.index]? = some t)
    (hchange : (change t).reference = t.reference)
    (h : place.modify? change tasks = some tasks') :
    Swaps t.kind.treeRefs (change t).kind.treeRefs (treeRefs tasks) (treeRefs tasks') := by
  rw [Place.modify?_eq hs ht] at h
  obtain ⟨s', hs', hswaps⟩ := treeRefs_change? h
  obtain rfl : s' = s := Option.some.inj (hs'.symm.trans hs)
  obtain ⟨front, back, heq, -, hset⟩ := split_of_getElem? ht
  refine hswaps.trans ⟨treeRefs front ++ [t.reference], treeRefs back, ?_, ?_⟩
  · rw [heq, treeRefs_append, treeRefs_cons]
    simp only [List.append_assoc, List.cons_append, List.nil_append]
  · rw [hset, treeRefs_append, treeRefs_cons, hchange]
    simp only [List.append_assoc, List.cons_append, List.nil_append]

namespace Diagram

variable {d : Diagram} {reference : String} {place : Place} {s tasks : List Task} {t : Task}

/-- What is located is the task at the place that the vertex tells. -/
theorem locate_ok (h : d.locate reference = .ok (place, s, t)) :
    ∃ v, d.graph.vertex? reference = some v ∧ v.parent = place.path ∧
      v.position = some place.index ∧ place.path.get? d.tasks = some s ∧
      s[place.index]? = some t ∧ t.reference = v.task.reportRef := by
  unfold locate at h
  cases hv : d.graph.vertex? reference with
  | none =>
    rw [hv] at h
    cases h
  | some v =>
    rw [hv] at h
    simp only at h
    cases hposition : v.position with
    | none =>
      rw [hposition] at h
      cases h
    | some position =>
      rw [hposition] at h
      simp only at h
      cases hs : v.parent.get? d.tasks with
      | none =>
        rw [hs] at h
        cases h
      | some sequence =>
        rw [hs] at h
        simp only at h
        cases ht : sequence[position]? with
        | none =>
          rw [ht] at h
          cases h
        | some task =>
          rw [ht] at h
          simp only at h
          split at h
          · cases h
          · next href =>
            cases h
            exact ⟨v, rfl, rfl, hposition, hs, ht, Decidable.not_not.mp href⟩

theorem locate_of_vertex {v : Vertex} (hv : d.graph.vertex? reference = some v)
    (hi : v.position = some place.index) (hpath : v.parent = place.path)
    (hs : place.path.get? d.tasks = some s) (ht : s[place.index]? = some t)
    (href : t.reference = v.task.reportRef) : d.locate reference = .ok (place, s, t) := by
  unfold locate
  rw [hv]
  simp only [hi, hpath, hs, ht]
  rw [if_neg (not_not_intro href)]
  rfl

theorem changeKind_ok {expected : TaskType} {change : Kind (List Task) → Option (Kind (List Task))}
    (h : d.changeKind reference expected change = .ok tasks) :
    ∃ place s t kind, d.locate reference = .ok (place, s, t) ∧ change t.kind = some kind ∧
      place.modify? (fun t => { t with kind := kind }) d.tasks = some tasks := by
  rw [changeKind, Outcome.bind_eq_ok] at h
  obtain ⟨⟨place, s, t⟩, hlocate, h⟩ := h
  refine ⟨place, s, t, ?_⟩
  dsimp only at h
  cases hkind : change t.kind with
  | none =>
    rw [hkind] at h
    cases h
  | some kind =>
    rw [hkind] at h
    simp only at h
    cases hmodify : place.modify? (fun t => { t with kind := kind }) d.tasks with
    | none =>
      rw [hmodify] at h
      cases h
    | some tasks' =>
      rw [hmodify] at h
      cases h
      exact ⟨kind, hlocate, rfl, hmodify⟩

/-- What is put in the place of a task is put where that task is located. -/
theorem replace_ok (h : d.editedTasks (.replace reference t) = .ok tasks) :
    ∃ place s u, d.locate reference = .ok (place, s, u) ∧
      place.modify? (fun _ => t) d.tasks = some tasks := by
  obtain ⟨⟨place, s, u⟩, hlocate, h⟩ := Outcome.bind_eq_ok.mp h
  refine ⟨place, s, u, hlocate, ?_⟩
  dsimp only at h
  cases hmodify : place.modify? (fun _ => t) d.tasks with
  | none =>
    rw [hmodify] at h
    cases h
  | some tasks' =>
    rw [hmodify] at h
    exact congrArg some (Outcome.pure_eq_ok.mp h)

theorem spliceAt_ok {inserted : List Task} (h : d.spliceAt reference place inserted = .ok tasks) :
    place.path.modify? (fun s => s.take place.index ++ inserted ++ s.drop place.index) d.tasks =
      some tasks := by
  unfold spliceAt at h
  split at h
  · next htasks =>
    cases h
    exact htasks
  · cases h

end Diagram

end Flowchart

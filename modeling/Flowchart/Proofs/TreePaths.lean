import Flowchart.Proofs.TreeEdits

/-!
# The place that a path leads to

A path that resolves leaves a hole in the tree: what is put there is found there again, it can be
changed there again, and the tree around it stays. Each step of a path goes through one branch of
one task, so the branches of a kind come first.
-/

namespace Flowchart

section

variable {α : Type} (before after : List α) (a : α)

theorem getElem?_middle : (before ++ a :: after)[before.length]? = some a := by
  rw [List.getElem?_append_right (Nat.le_refl _), Nat.sub_self, List.getElem?_cons_zero]

theorem set_middle (b : α) : (before ++ a :: after).set before.length b = before ++ b :: after := by
  rw [List.set_append_right _ _ (Nat.le_refl _), Nat.sub_self, List.set_cons_zero]

theorem eraseIdx_middle : (before ++ a :: after).eraseIdx before.length = before ++ after := by
  rw [List.eraseIdx_append_of_length_le (Nat.le_refl _), Nat.sub_self, List.eraseIdx_cons_zero]

end

namespace Dict

variable {α : Type}

section

variable {left right : Dict α} {key : String}

theorem get?_middle (h : key ∉ keys left) (a : α) :
    get? (left ++ (key, a) :: right) key = some a := by
  induction left with
  | nil => rw [List.nil_append, get?_cons, if_pos rfl]
  | cons entry rest ih =>
    rw [keys_cons, List.mem_cons, not_or] at h
    rw [List.cons_append, get?_cons, if_neg (Ne.symm h.1), ih h.2]

theorem adjust_middle (h : key ∉ keys left) (a : α) (f : α → α) :
    adjust (left ++ (key, a) :: right) key f = left ++ (key, f a) :: right := by
  induction left with
  | nil => rw [List.nil_append, adjust, if_pos rfl, List.nil_append]
  | cons entry rest ih =>
    rw [keys_cons, List.mem_cons, not_or] at h
    rw [List.cons_append, adjust, if_neg (Ne.symm h.1), ih h.2, List.cons_append]

theorem erase_eq_self {d : Dict α} (h : key ∉ keys d) : erase d key = d := by
  refine List.filter_eq_self.mpr fun entry hentry => bne_iff_ne.mpr ?_
  rintro rfl
  exact h (List.mem_map_of_mem hentry)

theorem erase_middle (hleft : key ∉ keys left) (hright : key ∉ keys right) (a : α) :
    erase (left ++ (key, a) :: right) key = left ++ right := by
  have hkept : erase left key ++ erase right key = left ++ right := by
    rw [erase_eq_self hleft, erase_eq_self hright]
  rw [erase, List.filter_append, List.filter_cons_of_neg (by simp)]
  exact hkept

end

theorem adjust_adjust (d : Dict α) (key : String) (f g : α → α) :
    adjust (adjust d key f) key g = adjust d key (g ∘ f) := by
  induction d with
  | nil => rfl
  | cons entry rest ih =>
    obtain ⟨k, a⟩ := entry
    by_cases hk : k = key
    · simp [adjust, hk]
    · simp [adjust, hk, ih]

theorem adjust_self {d : Dict α} {key : String} {a : α} (h : get? d key = some a) :
    adjust d key (fun _ => a) = d := by
  obtain ⟨before, after, rfl, hadjust⟩ := split_of_get? h
  exact hadjust _

end Dict

namespace Kind

variable {σ : Type} {k : Kind σ} {branch : Branch} {s : σ}

theorem mem_sequences_of_get? (h : k.get? branch = some s) : s ∈ k.sequences := by
  obtain ⟨before, after, heq, -⟩ := sequences_set h
  rw [heq]
  exact List.mem_append_right _ List.mem_cons_self

theorem type_set (k : Kind σ) (branch : Branch) (s : σ) : (k.set branch s).type = k.type := by
  unfold set
  split <;> rfl

theorem type_prune (k : Kind σ) (branch : Branch) : (k.prune branch).type = k.type := by
  unfold prune
  split <;> rfl

theorem get?_set (h : k.get? branch = some s) (s' : σ) :
    (k.set branch s').get? branch = some s' := by
  unfold get? at h
  split at h
  · exact List.getElem?_set_self (List.getElem?_eq_some_iff.mp h).1
  · next form switch key =>
    change Dict.get? (Dict.adjust switch.cases key fun _ => s') key = some s'
    rw [Dict.get?_adjust, if_pos rfl, h, Option.map_some]
  · rfl
  · rfl
  · cases h

theorem set_set (h : k.get? branch = some s) (s' s'' : σ) :
    (k.set branch s').set branch s'' = k.set branch s'' := by
  unfold get? at h
  split at h
  · simp only [set, List.set_set]
  · simp only [set, Dict.adjust_adjust]
    rfl
  · rfl
  · rfl
  · cases h

theorem set_self (h : k.get? branch = some s) : k.set branch s = k := by
  unfold get? at h
  split at h
  · next branches i =>
    obtain ⟨hi, rfl⟩ := List.getElem?_eq_some_iff.mp h
    rw [set, List.set_getElem_self]
  · rw [set, Dict.adjust_self h]
  · obtain rfl := Option.some.inj h
    rfl
  · obtain rfl := Option.some.inj h
    rfl
  · cases h

end Kind

theorem Task.with_kind_eq {t : Task} {k : Kind (List Task)} (h : k = t.kind) :
    { t with kind := k } = t := by
  cases t
  subst h
  rfl

namespace TreePath

variable {segments rest : List Segment} {tasks s : List Task}

theorem follow?_cons_eq_some {segment : Segment} :
    follow? (segment :: rest) tasks = some s ↔ ∃ t q, tasks[segment.index]? = some t ∧
      t.kind.get? segment.branch = some q ∧ follow? rest q = some s := by
  constructor
  · intro h
    rw [follow?] at h
    obtain ⟨t, ht, h⟩ := Option.bind_eq_some_iff.mp h
    obtain ⟨q, hq, hs⟩ := Option.bind_eq_some_iff.mp h
    exact ⟨t, q, ht, hq, hs⟩
  · rintro ⟨t, q, ht, hq, hs⟩
    rw [follow?_cons ht hq, hs]

theorem change?_of_cons {segment : Segment} {f : List Task → List Task} {t : Task}
    {q q' : List Task} (ht : tasks[segment.index]? = some t)
    (hq : t.kind.get? segment.branch = some q) (hchange : change? f rest q = some q') :
    change? f (segment :: rest) tasks =
      some (tasks.set segment.index { t with kind := t.kind.set segment.branch q' }) := by
  rw [change?, ht]
  change (do
    let inner ← change? f rest (← t.kind.get? segment.branch)
    pure (tasks.set segment.index { t with kind := t.kind.set segment.branch inner })) = _
  rw [hq]
  change (do
    let inner ← change? f rest q
    pure (tasks.set segment.index { t with kind := t.kind.set segment.branch inner })) = _
  rw [hchange]
  rfl

/-- The hole that a path leaves in the tree around the sequence at its end. -/
theorem exists_hole (h : follow? segments tasks = some s) :
    ∃ plug : List Task → List Task, plug s = tasks ∧ ∀ s', follow? segments (plug s') = some s' ∧
      ∀ f, change? f segments (plug s') = some (plug (f s')) := by
  induction segments generalizing tasks with
  | nil =>
    obtain rfl := Option.some.inj h
    exact ⟨id, rfl, fun s' => ⟨rfl, fun f => rfl⟩⟩
  | cons segment rest ih =>
    obtain ⟨t, q, ht, hq, hs⟩ := follow?_cons_eq_some.mp h
    obtain ⟨plug, hplug, hinner⟩ := ih hs
    obtain ⟨hindex, heq⟩ := List.getElem?_eq_some_iff.mp ht
    refine ⟨fun s' => tasks.set segment.index
      { t with kind := t.kind.set segment.branch (plug s') }, ?_, fun s' => ⟨?_, fun f => ?_⟩⟩
    · have hself : tasks.set segment.index t = tasks := by rw [← heq, List.set_getElem_self]
      have hkind : t.kind.set segment.branch (plug s) = t.kind := by rw [hplug, Kind.set_self hq]
      dsimp only
      rw [Task.with_kind_eq hkind, hself]
    · obtain ⟨hfollow, -⟩ := hinner s'
      rw [follow?_cons (List.getElem?_set_self hindex) (Kind.get?_set hq _), hfollow]
    · obtain ⟨-, hchange⟩ := hinner s'
      rw [change?_of_cons (List.getElem?_set_self hindex) (Kind.get?_set hq _) (hchange f),
        List.set_set, Kind.set_set hq]

theorem follow?_of_change? {f : List Task → List Task} {tasks' : List Task}
    (h : change? f segments tasks = some tasks') : ∃ s, follow? segments tasks = some s := by
  obtain ⟨s, hs, -⟩ := treeRefs_change? h
  exact ⟨s, hs⟩

/-- A path that resolves can be changed at its end, by whatever is put there. -/
theorem exists_change? (f : List Task → List Task) (h : follow? segments tasks = some s) :
    ∃ tasks', change? f segments tasks = some tasks' ∧
      change? (fun _ => f s) segments tasks = some tasks' := by
  obtain ⟨plug, rfl, hplug⟩ := exists_hole h
  exact ⟨plug (f s), (hplug s).2 f, (hplug s).2 fun _ => f s⟩

/-- What was changed is found at the end of the path. -/
theorem follow?_change? {f : List Task → List Task} {tasks' : List Task}
    (h : change? f segments tasks = some tasks') (hs : follow? segments tasks = some s) :
    follow? segments tasks' = some (f s) := by
  obtain ⟨plug, rfl, hplug⟩ := exists_hole hs
  obtain rfl := Option.some.inj (((hplug s).2 f).symm.trans h)
  exact (hplug (f s)).1

theorem follow?_append (segments segments' : List Segment) (tasks : List Task) :
    follow? (segments ++ segments') tasks = (follow? segments tasks).bind (follow? segments') := by
  induction segments generalizing tasks with
  | nil => rfl
  | cons segment rest ih =>
    cases ht : tasks[segment.index]? with
    | none => simp [follow?, ht]
    | some t =>
      cases hq : t.kind.get? segment.branch with
      | none => simp [follow?, ht, hq]
      | some q => rw [List.cons_append, follow?_cons ht hq, follow?_cons ht hq, ih]

/-- A change at the end of two paths is a change at the end of the first. -/
theorem change?_append {segments' : List Segment} {f : List Task → List Task} {s' : List Task}
    (hs : follow? segments tasks = some s) (hs' : change? f segments' s = some s') :
    change? f (segments ++ segments') tasks = change? (fun _ => s') segments tasks := by
  induction segments generalizing tasks with
  | nil =>
    obtain rfl := Option.some.inj hs
    exact hs'
  | cons segment rest ih =>
    obtain ⟨t, q, ht, hq, hs⟩ := follow?_cons_eq_some.mp hs
    obtain ⟨plug, rfl, hplug⟩ := exists_hole hs
    have hchange := (hplug s).2 fun _ => s'
    rw [List.cons_append, change?_of_cons ht hq hchange,
      change?_of_cons ht hq ((ih hs).trans hchange)]

/-- A branch of a task is changed by changing the sequence that the task is in. -/
theorem modify?_child {path : TreePath} {i : Nat} {branch : Branch} {f : List Task → List Task}
    {t : Task} {q : List Task} (hs : path.get? tasks = some s) (ht : s[i]? = some t)
    (hq : t.kind.get? branch = some q) : (path.child i branch).modify? f tasks =
      path.modify? (fun _ => s.set i { t with kind := t.kind.set branch (f q) }) tasks :=
  change?_append hs (change?_of_cons ht hq rfl)

theorem get?_child_eq_some {path : TreePath} {i : Nat} {branch : Branch} :
    (path.child i branch).get? tasks = some s ↔ ∃ q t, path.get? tasks = some q ∧
      q[i]? = some t ∧ t.kind.get? branch = some s := by
  have hlast : ∀ q, follow? [⟨i, branch⟩] q = some s ↔
      ∃ t, q[i]? = some t ∧ t.kind.get? branch = some s := by
    intro q
    rw [follow?_cons_eq_some]
    constructor
    · rintro ⟨t, _, ht, hs, ⟨⟩⟩
      exact ⟨t, ht, hs⟩
    · rintro ⟨t, ht, hs⟩
      exact ⟨t, s, ht, hs, rfl⟩
  rw [get?, child, follow?_append, Option.bind_eq_some_iff]
  constructor
  · rintro ⟨q, hq, h⟩
    obtain ⟨t, ht, hs⟩ := (hlast q).mp h
    exact ⟨q, t, hq, ht, hs⟩
  · rintro ⟨q, t, hq, ht, hs⟩
    exact ⟨q, hq, (hlast q).mpr ⟨t, ht, hs⟩⟩

theorem prune_root (tasks : List Task) : root.prune tasks = tasks := rfl

theorem prune_child (path : TreePath) (i : Nat) (branch : Branch) (tasks : List Task) :
    (path.child i branch).prune tasks = (Place.modify? ⟨path, i⟩
      (fun t => { t with kind := t.kind.prune branch }) tasks).getD tasks := by
  have howner : (path.child i branch).owner? = some (path, ⟨i, branch⟩) := by
    rw [owner?, child, List.getLast?_concat, List.dropLast_concat]
    rfl
  rw [prune, howner]

end TreePath

end Flowchart

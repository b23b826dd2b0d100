import Flowchart.Proofs.TreePaths

/-!
# Paths as lenses

What a path finds in a tree can be replaced there, and the replacement is seen by the paths through
that place and by no others. Two paths part at the first segment in which they differ: there they go
into different tasks of one sequence, or into different branches of one task.
-/

namespace Flowchart

namespace Kind

variable {σ : Type} {k : Kind σ} {branch other : Branch}

/-- The place of a branch holds what is looked up there, and puts things there. -/
theorem focus?_eq (k : Kind σ) (branch : Branch) :
    k.focus? branch = (k.get? branch).map fun s => (s, k.set branch) := by
  cases k with
  | fork branches =>
    cases branch with
    | fork i =>
      rw [focus?, get?]
      rfl
    | _ => rfl
  | switch form s =>
    cases branch with
    | case key =>
      rw [focus?, get?]
      rfl
    | _ => rfl
  | loop condition body => cases branch <;> rfl
  | _ => rfl

/-- A branch that is set leaves all other branches alone. -/
theorem get?_set_of_ne (k : Kind σ) (h : other ≠ branch) (s : σ) :
    (k.set branch s).get? other = k.get? other := by
  cases k with
  | fork branches =>
    cases branch with
    | fork i =>
      cases other with
      | fork j =>
        have hij : i ≠ j := fun heq => h (heq ▸ rfl)
        simp only [set, get?, List.getElem?_set_ne hij]
      | _ => rfl
    | _ => rfl
  | switch form switch =>
    cases branch with
    | case key =>
      cases other with
      | case key' =>
        have hkeys : key ≠ key' := fun heq => h (heq ▸ rfl)
        simp only [set, get?, Dict.get?_adjust, if_neg hkeys]
      | _ => rfl
    | default =>
      cases other with
      | default => exact absurd rfl h
      | _ => rfl
    | _ => rfl
  | loop condition body =>
    cases branch with
    | loopBody =>
      cases other with
      | loopBody => exact absurd rfl h
      | _ => rfl
    | _ => rfl
  | _ => rfl

/-- Two kinds of task that differ in nothing but the sequence of one branch. -/
structure AgreeBut (k : Kind σ) (branch : Branch) (k' : Kind σ) : Prop where
  others : ∀ other ≠ branch, k'.get? other = k.get? other
  rest : ∀ s, k'.set branch s = k.set branch s

theorem agreeBut_set {s : σ} (h : k.get? branch = some s) (s' : σ) :
    k.AgreeBut branch (k.set branch s') where
  others _ hne := k.get?_set_of_ne hne s'
  rest s'' := set_set h s' s''

end Kind

namespace TreePath

variable {segments : List Segment} {tasks tasks' s : List Task} {f : List Task → List Task}

theorem enter?_cons {segment : Segment} {rest : List Segment} {t : Task} {q : List Task}
    (ht : tasks[segment.index]? = some t) (hq : t.kind.get? segment.branch = some q) :
    enter? (segment :: rest) tasks = (enter? rest q).map fun place =>
      (place.1, fun new => tasks.set segment.index
        { t with kind := t.kind.set segment.branch (place.2 new) }) := by
  rw [enter?, ht]
  simp only [bind, Option.bind, Kind.focus?_eq, hq, Option.map_some]
  cases enter? rest q <;> rfl

/-- The place at the end of a path is there exactly if the path resolves, and it holds the sequence
that the path resolves to. -/
theorem map_enter? (segments : List Segment) (tasks : List Task) :
    (enter? segments tasks).map (·.1) = follow? segments tasks := by
  induction segments generalizing tasks with
  | nil => rfl
  | cons segment rest ih =>
    cases ht : tasks[segment.index]? with
    | none => simp [enter?, follow?, ht]
    | some t =>
      cases hq : t.kind.get? segment.branch with
      | none => simp [enter?, follow?, ht, hq, Kind.focus?_eq]
      | some q => rw [enter?_cons ht hq, follow?_cons ht hq, ← ih, Option.map_map]; rfl

/-- A sequence is changed by putting the changed one into its place. -/
theorem change?_eq_enter? (f : List Task → List Task) (segments : List Segment)
    (tasks : List Task) :
    change? f segments tasks = (enter? segments tasks).map fun place => place.2 (f place.1) := by
  induction segments generalizing tasks with
  | nil => rfl
  | cons segment rest ih =>
    cases ht : tasks[segment.index]? with
    | none => simp [enter?, change?, ht]
    | some t =>
      cases hq : t.kind.get? segment.branch with
      | none => simp [enter?, change?, ht, hq, Kind.focus?_eq]
      | some q =>
        cases hplace : enter? rest q with
        | none => simp [enter?_cons ht hq, change?, ht, hq, ih, hplace]
        | some place => simp [enter?_cons ht hq, change?, ht, hq, ih, hplace]

theorem change?_self (hs : follow? segments tasks = some s)
    (h : change? f segments tasks = some tasks') :
    change? (fun _ => s) segments tasks' = some tasks := by
  obtain ⟨plug, rfl, hplug⟩ := exists_hole hs
  obtain rfl := Option.some.inj (((hplug s).2 f).symm.trans h)
  exact (hplug (f s)).2 fun _ => s

/-- Paths that part from the path of a change do not see it. -/
theorem follow?_change?_of_apart {segments' : List Segment}
    (h : change? f segments tasks = some tasks') (hleft : ¬ segments <+: segments')
    (hright : ¬ segments' <+: segments) : follow? segments' tasks' = follow? segments' tasks := by
  induction segments generalizing tasks tasks' segments' with
  | nil => exact absurd List.nil_prefix hleft
  | cons segment rest ih =>
    cases segments' with
    | nil => exact absurd List.nil_prefix hright
    | cons segment' rest' =>
      obtain ⟨t, q, q', ht, hq, hq', rfl⟩ := change?_cons h
      obtain ⟨hindex, -⟩ := List.getElem?_eq_some_iff.mp ht
      by_cases hsame : segment'.index = segment.index
      · have ht' : (tasks.set segment.index { t with kind := t.kind.set segment.branch q' })[
            segment'.index]? = some { t with kind := t.kind.set segment.branch q' } := by
          rw [hsame, List.getElem?_set_self hindex]
        by_cases hbranch : segment'.branch = segment.branch
        · -- one segment, so that the paths part further down
          obtain rfl : segment' = segment := by
            cases segment
            cases segment'
            simp_all
          rw [List.prefix_cons_inj] at hleft hright
          rw [follow?_cons ht' (Kind.get?_set hq q'), follow?_cons ht hq, ih hq' hleft hright]
        · have hget := t.kind.get?_set_of_ne hbranch q'
          rw [← hsame] at ht
          cases hother : t.kind.get? segment'.branch with
          | none => simp [follow?, ht, ht', hget, hother]
          | some other =>
            rw [follow?_cons ht' (hget.trans hother), follow?_cons ht hother]
      · have hkept : (tasks.set segment.index { t with kind := t.kind.set segment.branch q' })[
            segment'.index]? = tasks[segment'.index]? :=
          List.getElem?_set_ne (Ne.symm hsame)
        rw [follow?, follow?, hkept]

/-- A sequence on the way to a change differs in the task that the path goes through, and that task
differs in the branch that the path takes. -/
theorem exists_along {front back : List Segment} {segment : Segment}
    (h : change? f (front ++ segment :: back) tasks = some tasks') :
    ∃ before t after k, follow? front tasks = some (before ++ t :: after) ∧
      follow? front tasks' = some (before ++ { t with kind := k } :: after) ∧
      before.length = segment.index ∧ t.kind.AgreeBut segment.branch k := by
  obtain ⟨s, hs⟩ := follow?_of_change? h
  rw [follow?_append] at hs
  obtain ⟨outer, houter, hinner⟩ := Option.bind_eq_some_iff.mp hs
  obtain ⟨outer', hchange, -⟩ := exists_change? f hinner
  rw [change?_append houter hchange] at h
  obtain ⟨t, q, q', ht, hq, -, rfl⟩ := change?_cons hchange
  obtain ⟨before, after, rfl, hindex, -⟩ := split_of_getElem? ht
  refine ⟨before, t, after, _, houter, ?_, hindex, Kind.agreeBut_set hq q'⟩
  rw [follow?_change? h houter, ← hindex, set_middle]

/-- The trees before and after the sequence `old` at the end of a path was replaced by `new`. -/
structure Exchanged (p : TreePath) (old new tasks tasks' : List Task) : Prop where
  here : p.get? tasks' = some new
  back : p.modify? (fun _ => old) tasks' = some tasks
  apart : ∀ other : TreePath, ¬ p.segments <+: other.segments →
    ¬ other.segments <+: p.segments → other.get? tasks' = other.get? tasks
  along : ∀ front segment back, p.segments = front ++ segment :: back →
    ∃ before t after k, get? ⟨front⟩ tasks = some (before ++ t :: after) ∧
      get? ⟨front⟩ tasks' = some (before ++ { t with kind := k } :: after) ∧
      before.length = segment.index ∧ t.kind.AgreeBut segment.branch k
  beyond : ∀ rest, get? ⟨p.segments ++ rest⟩ tasks' = get? ⟨rest⟩ new

theorem exchanged_of_modify? {p : TreePath} (hs : p.get? tasks = some s)
    (h : p.modify? f tasks = some tasks') : p.Exchanged s (f s) tasks tasks' := by
  have hnew : p.get? tasks' = some (f s) := follow?_change? h hs
  refine ⟨hnew, change?_self hs h, fun other => follow?_change?_of_apart h, ?_, fun rest => ?_⟩
  · intro front segment back hp
    rw [modify?, hp] at h
    exact exists_along h
  · rw [get?, follow?_append]
    exact congrArg (Option.bind · (follow? rest)) hnew

/-- **Paths are lawful lenses.** The place at the end of a path is there exactly if the path
resolves, it holds what the path resolves to, and a change goes through it. What is replaced there
is found there, can be put back, and is seen along the path and beyond it alone. -/
theorem focus?_lawful (p : TreePath) (tasks : List Task) :
    (p.focus? tasks).map (·.1) = p.get? tasks ∧
      (∀ f, p.modify? f tasks = (p.focus? tasks).map fun place => place.2 (f place.1)) ∧
      ∀ f s, p.get? tasks = some s →
        ∃ tasks', p.modify? f tasks = some tasks' ∧ p.Exchanged s (f s) tasks tasks' := by
  refine ⟨map_enter? _ _, fun f => change?_eq_enter? f _ _, fun f s hs => ?_⟩
  obtain ⟨tasks', h, -⟩ := exists_change? f hs
  exact ⟨tasks', h, exchanged_of_modify? hs h⟩

end TreePath

namespace Sample

/-- A switch with a case and a default, in the second branch of a fork. -/
def forkedSwitch : List Task :=
  [.ofRef "f" (.fork [[.ofRef "b" (.worker .simple)], [.ofRef "s" (.switch .switch
      { Switch.empty [.ofRef "d" (.worker .simple)] with
        cases := [("one", [.ofRef "a" (.worker .simple)])] })]]),
    .ofRef "j" (.join [])]

def caseOne : TreePath := ⟨[⟨0, .fork 1⟩, ⟨0, .case "one"⟩]⟩

end Sample

/-- The sequence of a case is emptied. -/
theorem TreePath.focus?_lawful_of_case :
    Sample.caseOne.get? Sample.forkedSwitch = some [.ofRef "a" (.worker .simple)] ∧
      ∃ tasks', Sample.caseOne.modify? (fun _ => []) Sample.forkedSwitch = some tasks' ∧
        Sample.caseOne.Exchanged [.ofRef "a" (.worker .simple)] [] Sample.forkedSwitch tasks' :=
  have hget : Sample.caseOne.get? Sample.forkedSwitch = some [.ofRef "a" (.worker .simple)] := rfl
  ⟨hget, (TreePath.focus?_lawful Sample.caseOne Sample.forkedSwitch).2.2 (fun _ => []) _ hget⟩

end Flowchart

import Flowchart.Proofs.Deletions
import Flowchart.Proofs.TreePaths

/-!
# Putting a task behind another

A task is put right behind all tasks that have a reference, wherever in the tree they stand. No path
is needed to say so, and so two such changes can be made in either order. Where one task alone has
the reference, this is a splice at the place behind it.
-/

namespace Flowchart

/-- The task with what is inside it changed, and `x` behind it if it has the reference `r`. -/
def Task.expand (t : Task) (r : String) (x : Task) : List Task :=
  t.fold fun t k => { t with kind := k.map List.flatten } :: if t.reference = r then [x] else []

/-- Puts `x` behind all tasks that have the reference `r`. -/
def insertBehind (r : String) (x : Task) (tasks : List Task) : List Task :=
  tasks.flatMap (·.expand r x)

/-- The task with `x` put in inside it. -/
def Task.hosting (t : Task) (r : String) (x : Task) : Task :=
  { t with kind := t.kind.map (insertBehind r x) }

namespace Kind

variable {σ τ υ : Type} {f g : σ → σ} {k : Kind σ}

theorem map_map (f : σ → τ) (g : τ → υ) (k : Kind σ) : (k.map f).map g = k.map (g ∘ f) := by
  cases k <;> simp [map, Switch.map]

theorem map_congr (h : ∀ s ∈ k.sequences, f s = g s) : k.map f = k.map g := by
  rw [ext_shape, shape_map, shape_map, sequences_map, sequences_map]
  exact ⟨rfl, List.map_congr_left h⟩

theorem map_eq_self (h : ∀ s ∈ k.sequences, f s = s) : k.map f = k := by
  rw [ext_shape, shape_map, sequences_map, List.map_congr_left h]
  exact ⟨rfl, List.map_id _⟩

end Kind

section

variable {r r' : String} {x x' t : Task} {s s' tasks : List Task}

theorem Task.expand_eq (t : Task) (r : String) (x : Task) :
    t.expand r x = t.hosting r x :: if t.reference = r then [x] else [] := by
  rw [expand, fold_eq, Kind.map_map, hosting]
  rfl

theorem Task.kind_hosting_of_loop {condition : Option String} {body : List Task}
    (hk : t.kind = .loop condition body) :
    (t.hosting r x).kind = .loop condition (insertBehind r x body) := by
  rw [hosting, hk]
  rfl

@[simp] theorem insertBehind_nil : insertBehind r x [] = [] := rfl

theorem insertBehind_cons : insertBehind r x (t :: s) = t.expand r x ++ insertBehind r x s :=
  List.flatMap_cons

theorem insertBehind_append :
    insertBehind r x (s ++ s') = insertBehind r x s ++ insertBehind r x s' :=
  List.flatMap_append

/-- The first task stays the first. -/
theorem head?_insertBehind (s : List Task) :
    Switch.head? (insertBehind r x s) = Switch.head? s := by
  cases s with
  | nil => rfl
  | cons t rest =>
    rw [insertBehind_cons, Task.expand_eq]
    rfl

/-- Where no task has the reference, nothing is put in. -/
theorem Task.expand_eq_self (t : Task) :
    (∀ u ∈ t.family, u.reference ≠ r) → t.expand r x = [t] := by
  induction t using Task.induction with
  | step t ih =>
    intro h
    have hinner : ∀ s ∈ t.kind.sequences, insertBehind r x s = s := by
      intro s hs
      have hexpand : ∀ u ∈ s, u.expand r x = [u] := fun u hu => ih s hs u hu fun v hv =>
        h v (mem_family.mpr (Or.inr ⟨s, hs, mem_listing.mpr ⟨u, hu, hv⟩⟩))
      rw [insertBehind, List.flatMap_congr hexpand, List.flatMap_singleton']
    have hself : t.hosting r x = t := with_kind_eq (Kind.map_eq_self hinner)
    rw [expand_eq, hself, if_neg (h t (mem_family.mpr (Or.inl rfl)))]

theorem insertBehind_eq_self (h : r ∉ treeRefs s) : insertBehind r x s = s := by
  have hexpand : ∀ t ∈ s, t.expand r x = [t] := by
    intro t ht
    refine Task.expand_eq_self t fun u hu heq => h ?_
    rw [← heq]
    exact List.mem_map_of_mem (mem_listing.mpr ⟨t, ht, hu⟩)
  rw [insertBehind, List.flatMap_congr hexpand, List.flatMap_singleton']

theorem Task.insertBehind_expand (t : Task) (hx' : x'.expand r x = [x']) :
    insertBehind r x (t.expand r' x') = (t.hosting r' x').hosting r x ::
      (if t.reference = r then [x] else []) ++ if t.reference = r' then [x'] else [] := by
  rw [expand_eq t, insertBehind_cons, expand_eq]
  refine congrArg _ ?_
  split
  · rw [insertBehind_cons, hx']
    rfl
  · rfl

/-- Behind different tasks, it does not matter which of two tasks is put in first. -/
theorem Task.insertBehind_expand_comm (hne : r ≠ r') (hx : x.expand r' x' = [x])
    (hx' : x'.expand r x = [x']) (t : Task) :
    insertBehind r x (t.expand r' x') = insertBehind r' x' (t.expand r x) := by
  induction t using Task.induction with
  | step t ih =>
    have hinner : ∀ s ∈ t.kind.sequences, (insertBehind r x ∘ insertBehind r' x') s =
        (insertBehind r' x' ∘ insertBehind r x) s := by
      intro s hs
      simp only [Function.comp_apply, insertBehind, List.flatMap_assoc]
      exact List.flatMap_congr fun u hu => ih s hs u hu
    have hhosting : (t.hosting r' x').hosting r x = (t.hosting r x).hosting r' x' := by
      simp only [hosting, Kind.map_map, Kind.map_congr hinner]
    rw [insertBehind_expand t hx', insertBehind_expand t hx, hhosting, List.cons_append,
      List.cons_append]
    refine congrArg _ ?_
    by_cases hr : t.reference = r
    · rw [if_pos hr, if_neg fun hr' => hne (hr.symm.trans hr'), List.append_nil, List.nil_append]
    · rw [if_neg hr, List.append_nil, List.nil_append]

theorem insertBehind_comm (hne : r ≠ r') (hx : x.expand r' x' = [x]) (hx' : x'.expand r x = [x'])
    (tasks : List Task) : insertBehind r x (insertBehind r' x' tasks) =
      insertBehind r' x' (insertBehind r x tasks) := by
  simp only [insertBehind, List.flatMap_assoc]
  exact List.flatMap_congr fun t _ => Task.insertBehind_expand_comm hne hx hx' t

end

namespace Kind

variable {σ τ : Type} {f : σ → σ} {k : Kind σ} {branch : Branch} {s : σ}

theorem get?_map (f : σ → τ) (k : Kind σ) (branch : Branch) :
    (k.map f).get? branch = (k.get? branch).map f := by
  cases k <;> cases branch <;> try rfl
  case fork.fork branches i => exact List.getElem?_map
  case switch.case form switch key => exact Dict.get?_map f switch.cases key

theorem shape_set (k : Kind σ) (branch : Branch) (s : σ) : (k.set branch s).shape = k.shape := by
  unfold set
  split
  · next branches i =>
    simp only [shape, map, List.map_set]
    rw [List.map_const', List.set_replicate_self]
  · next form switch key =>
    have hkeys : (Dict.adjust switch.cases key fun _ => s).map (fun c => (c.1, ())) =
        switch.cases.map fun c => (c.1, ()) := by
      induction switch.cases with
      | nil => rfl
      | cons c rest ih => by_cases hkey : c.1 = key <;> simp [Dict.adjust, hkey, ih]
    simp only [shape, map, Switch.map, hkeys]
  · rfl
  · rfl
  · rfl

end Kind

namespace TreePath

variable {segments : List Segment} {r : String} {x : Task} {tasks s : List Task}

/-- A path leads on to where it led before. -/
theorem exists_insertBehind (h : follow? segments tasks = some s) :
    ∃ segments', follow? segments' (insertBehind r x tasks) = some (insertBehind r x s) := by
  induction segments generalizing tasks with
  | nil =>
    obtain rfl := Option.some.inj h
    exact ⟨[], rfl⟩
  | cons segment rest ih =>
    obtain ⟨t, q, ht, hq, hs⟩ := follow?_cons_eq_some.mp h
    obtain ⟨segments', hsegments'⟩ := ih hs
    have hmem : t.hosting r x ∈ insertBehind r x tasks := by
      refine List.mem_flatMap_of_mem (List.mem_of_getElem? ht) ?_
      rw [Task.expand_eq]
      exact List.mem_cons_self
    obtain ⟨i, hi⟩ := List.getElem?_of_mem hmem
    refine ⟨⟨i, segment.branch⟩ :: segments', ?_⟩
    rw [follow?_cons hi (by rw [Task.hosting, Kind.get?_map, hq, Option.map_some])]
    exact hsegments'

/-- What a path leads to has its references together among those of the tree. -/
theorem treeRefs_follow? (hs : follow? segments tasks = some s) :
    ∃ left right, treeRefs tasks = left ++ treeRefs s ++ right := by
  obtain ⟨tasks', htasks', -⟩ := exists_change? id hs
  obtain ⟨s', hs', left, right, heq, -⟩ := treeRefs_change? htasks'
  obtain rfl := Option.some.inj (hs'.symm.trans hs)
  exact ⟨left, right, heq⟩

/-- Behind a task that alone has its reference, a task is put in by a change at its place. -/
theorem change?_insertBehind {f : List Task → List Task} (hnodup : (treeRefs tasks).Nodup)
    (hs : follow? segments tasks = some s) (hr : r ∈ treeRefs s) (hf : f s = insertBehind r x s) :
    change? f segments tasks = some (insertBehind r x tasks) := by
  induction segments generalizing tasks with
  | nil =>
    obtain rfl := Option.some.inj hs
    exact congrArg some hf
  | cons segment rest ih =>
    obtain ⟨t, q, ht, hq, hinner⟩ := follow?_cons_eq_some.mp hs
    obtain ⟨before, after, hrefs⟩ := treeRefs_follow? hinner
    obtain ⟨front, back, rfl, -, hset⟩ := split_of_getElem? ht
    obtain ⟨left, right, hsequences, hset'⟩ := Kind.sequences_set hq
    -- the reference is in the sequence on the way, and so nowhere else
    have hstretch : treeRefs (front ++ t :: back) =
        (treeRefs front ++ t.reference :: left.flatMap treeRefs) ++ treeRefs q ++
          (right.flatMap treeRefs ++ treeRefs back) := by
      rw [treeRefs_append, treeRefs_cons, Kind.treeRefs, hsequences, List.flatMap_append,
        List.flatMap_cons]
      simp only [List.append_assoc, List.cons_append]
    rw [hstretch] at hnodup
    have hrq : r ∈ treeRefs q := by
      rw [hrefs]
      exact List.mem_append_left _ (List.mem_append_right _ hr)
    have hbefore : r ∉ treeRefs front ++ t.reference :: left.flatMap treeRefs := fun hmem =>
      List.disjoint_of_nodup_append hnodup.of_append_left hmem hrq
    have hafter : r ∉ right.flatMap treeRefs ++ treeRefs back :=
      List.disjoint_of_nodup_append hnodup (List.mem_append_right _ hrq)
    simp only [List.mem_append, List.mem_cons, not_or] at hbefore hafter
    obtain ⟨hfront, hself, hleft⟩ := hbefore
    obtain ⟨hright, hback⟩ := hafter
    have hfixed : ∀ others : List (List Task), r ∉ others.flatMap treeRefs →
        others.map (insertBehind r x) = others := by
      intro others hr
      rw [List.map_congr_left fun s hs => insertBehind_eq_self fun hmem =>
        hr (List.mem_flatMap_of_mem hs hmem)]
      exact List.map_id _
    have hkind : t.kind.set segment.branch (insertBehind r x q) =
        t.kind.map (insertBehind r x) := by
      rw [Kind.ext_shape, Kind.shape_set, Kind.shape_map, hset', Kind.sequences_map, hsequences,
        List.map_append, List.map_cons, hfixed left hleft, hfixed right hright]
      exact ⟨rfl, rfl⟩
    rw [change?_of_cons ht hq (ih hnodup.of_append_left.of_append_right hinner), hset, hkind,
      insertBehind_append, insertBehind_cons, insertBehind_eq_self hfront,
      insertBehind_eq_self hback, Task.expand_eq, if_neg (Ne.symm hself)]
    rfl

end TreePath

end Flowchart

import Flowchart.Proofs.Deletions
import Flowchart.Proofs.TreePaths
import Flowchart.Proofs.Upkeep
import Mathlib.Data.List.Induction

/-!
# Trees with a hole

A hole is a tree of tasks in which one sequence is left out: the root, or the sequence of a gap in
the kind of one task. All around it is data of the hole. So when two trees come from one hole, they
are the same but for the sequence that was put there.
-/

namespace Flowchart

/-- A kind in which the sequence of one branch is left out. The shell of a switch is looked at for
the other members only. -/
inductive Gap where
  | fork (left right : List (List Task))
  | case (form : SwitchForm) (shell : Switch (List Task)) (left : Dict (List Task)) (key : String)
      (right : Dict (List Task)) (hleft : key ∉ Dict.keys left) (hright : key ∉ Dict.keys right)
  | default (form : SwitchForm) (shell : Switch (List Task))
  | body (condition : Option String)

/-- A task with a gap, and what stands before and after it. -/
structure Frame where
  before : List Task
  owner : Task
  gap : Gap
  after : List Task

/-- The place of one sequence, with the whole tree around it. -/
inductive Hole where
  | root
  | inside (outer : Hole) (frame : Frame)

namespace Gap

def branch : Gap → Branch
  | fork left _ => .fork left.length
  | case _ _ _ key _ _ _ => .case key
  | default _ _ => .default
  | body _ => .loopBody

def fill : Gap → List Task → Kind (List Task)
  | fork left right, s => .fork (left ++ s :: right)
  | case form shell left key right _ _, s =>
    .switch form { shell with cases := left ++ (key, s) :: right }
  | default form shell, s => .switch form { shell with otherwise := s }
  | body condition, s => .loop condition s

/-- The kind without the branch. The default of a switch and the body of a loop have to be there,
and are empty. -/
def close : Gap → Kind (List Task)
  | fork left right => .fork (left ++ right)
  | case form shell left _ right _ _ => .switch form { shell with cases := left ++ right }
  | default form shell => .switch form { shell with otherwise := [] }
  | body condition => .loop condition []

end Gap

namespace Frame

def fill (frame : Frame) (s : List Task) : List Task :=
  frame.before ++ { frame.owner with kind := frame.gap.fill s } :: frame.after

def close (frame : Frame) : List Task :=
  frame.before ++ { frame.owner with kind := frame.gap.close } :: frame.after

end Frame

namespace Hole

def path : Hole → TreePath
  | root => .root
  | inside outer frame => outer.path.child frame.before.length frame.gap.branch

def plug : Hole → List Task → List Task
  | root, s => s
  | inside outer frame, s => outer.plug (frame.fill s)

/-- The tree without the branch that the hole is in. The root stays, and is empty. -/
def close : Hole → List Task
  | root => []
  | inside outer frame => outer.plug frame.close

end Hole

namespace Gap

theorem get?_fill (gap : Gap) (s : List Task) : (gap.fill s).get? gap.branch = some s := by
  cases gap with
  | fork left right => exact getElem?_middle left right s
  | case form shell left key right hleft hright => exact Dict.get?_middle hleft s
  | default | body => rfl

theorem set_fill (gap : Gap) (s s' : List Task) :
    (gap.fill s).set gap.branch s' = gap.fill s' := by
  cases gap with
  | fork left right => simp only [fill, branch, Kind.set, set_middle]
  | case form shell left key right hleft hright =>
    simp only [fill, branch, Kind.set, Dict.adjust_middle hleft]
  | default | body => rfl

theorem prune_fill (gap : Gap) : (gap.fill []).prune gap.branch = gap.close := by
  cases gap with
  | fork left right => simp only [fill, branch, Kind.prune, close, eraseIdx_middle]
  | case form shell left key right hleft hright =>
    simp only [fill, branch, Kind.prune, close, Dict.erase_middle hleft hright]
  | default | body => rfl

end Gap

theorem Kind.Keyed.exists_gap {k : Kind (List Task)} {branch : Branch} {s : List Task}
    (hk : k.Keyed)
    (h : k.get? branch = some s) : ∃ gap : Gap, gap.branch = branch ∧ gap.fill s = k := by
  unfold Kind.get? at h
  split at h
  · next branches i =>
    obtain ⟨left, right, rfl, rfl, -⟩ := split_of_getElem? h
    exact ⟨.fork left right, rfl, rfl⟩
  · next form switch key =>
    obtain ⟨left, right, hcases, -⟩ := Dict.split_of_get? h
    have hkeys := hk switch rfl
    rw [hcases, Dict.keys_append, Dict.keys_cons, List.nodup_middle, List.nodup_cons,
      List.mem_append, not_or] at hkeys
    refine ⟨.case form switch left key right hkeys.1.1 hkeys.1.2, rfl, ?_⟩
    rw [Gap.fill, ← hcases]
  · next form switch =>
    obtain rfl := Option.some.inj h
    exact ⟨.default form switch, rfl, rfl⟩
  · next condition body =>
    obtain rfl := Option.some.inj h
    exact ⟨.body condition, rfl, rfl⟩
  · cases h

theorem Frame.getElem?_fill (frame : Frame) (s : List Task) :
    (frame.fill s)[frame.before.length]? =
      some { frame.owner with kind := frame.gap.fill s } :=
  getElem?_middle frame.before frame.after _

namespace Hole

/-- The path of a hole leads to what was put into it. -/
theorem get?_plug (hole : Hole) (s : List Task) : hole.path.get? (hole.plug s) = some s := by
  induction hole generalizing s with
  | root => rfl
  | inside outer frame ih =>
    exact TreePath.get?_child_eq_some.mpr
      ⟨_, _, ih (frame.fill s), frame.getElem?_fill s, frame.gap.get?_fill s⟩

theorem modify?_plug (hole : Hole) (f : List Task → List Task) (s : List Task) :
    hole.path.modify? f (hole.plug s) = some (hole.plug (f s)) := by
  induction hole generalizing f s with
  | root => rfl
  | inside outer frame ih =>
    rw [path, plug, TreePath.modify?_child (outer.get?_plug _) (frame.getElem?_fill s)
      (frame.gap.get?_fill s), ih, Gap.set_fill, Frame.fill, set_middle]
    rfl

/-- A task in the sequence at a hole is changed by itself. -/
theorem modify?_slot (hole : Hole) (before : List Task) (t : Task) (rest : List Task)
    (change : Task → Task) :
    Place.modify? ⟨hole.path, before.length⟩ change (hole.plug (before ++ t :: rest)) =
      some (hole.plug (before ++ change t :: rest)) := by
  rw [Place.modify?_eq (hole.get?_plug _) (getElem?_middle before rest t), modify?_plug]
  dsimp only
  rw [set_middle]

/-- When an empty sequence is taken away, nothing else goes. -/
theorem prune_plug (hole : Hole) : hole.path.prune (hole.plug []) = hole.close := by
  cases hole with
  | root => rfl
  | inside outer frame =>
    rw [path, plug, TreePath.prune_child, Frame.fill, modify?_slot, Gap.prune_fill]
    rfl

/-- A path that resolves leads to a hole in the tree. -/
theorem exists_plug {path : TreePath} {tasks s : List Task} (hkeyed : Throughout Kind.Keyed tasks)
    (h : path.get? tasks = some s) : ∃ hole : Hole, hole.path = path ∧ hole.plug s = tasks := by
  obtain ⟨segments⟩ := path
  induction segments using List.reverseRecOn generalizing s with
  | nil =>
    obtain rfl := Option.some.inj h
    exact ⟨.root, rfl, rfl⟩
  | append_singleton segments segment ih =>
    obtain ⟨q, t, hq, ht, hs⟩ := TreePath.get?_child_eq_some.mp h
    obtain ⟨outer, hpath, rfl⟩ := ih hq
    have hkind := (throughout_iff.mp (hkeyed.follow? hq) t (List.mem_of_getElem? ht)).1
    obtain ⟨before, after, rfl, hindex, -⟩ := split_of_getElem? ht
    obtain ⟨gap, hbranch, hgap⟩ := hkind.exists_gap hs
    refine ⟨.inside outer ⟨before, t, gap, after⟩, ?_, ?_⟩
    · rw [path, hpath, hindex, hbranch]
      rfl
    · rw [plug, Frame.fill, Task.with_kind_eq hgap]

theorem forksPaired_plug {hole : Hole} {s : List Task} (h : ForksPaired (hole.plug s)) :
    ForksPaired s ∧ ∀ s', ForksPaired (hole.plug s') ↔ ForksPaired s' := by
  have hpaired : ∀ s', ForksPaired s ∧ (ForksPaired (hole.plug s') ↔ ForksPaired s') := by
    intro s'
    obtain ⟨q, hq, hs, hiff⟩ := forksPaired_change? (hole.modify?_plug (fun _ => s') s) h
    obtain rfl := Option.some.inj (hq.symm.trans (hole.get?_plug s))
    exact ⟨hs, hiff⟩
  exact ⟨(hpaired s).1, fun s' => (hpaired s').2⟩

end Hole

end Flowchart

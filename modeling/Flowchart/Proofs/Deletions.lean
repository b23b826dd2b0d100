import Flowchart.Proofs.DrawnTasks
import Flowchart.Proofs.Reachable
import Flowchart.Proofs.TreeEdits

/-!
# Forks and joins after a deletion

Each fork of a tree is to stand right before a join. A deletion takes a fork out together with its
join, but it takes a join out by itself. Nothing else that it does parts a fork from a join.
-/

namespace Flowchart

def joinFirst (s : List Task) : Bool := s.head?.any (·.kind.isJoin)

/-- Each fork of a sequence stands right before a join. -/
def Paired : List Task → Prop
  | [] => True
  | t :: rest => (t.kind.isFork = true → joinFirst rest = true) ∧ Paired rest

/-- The same in all sequences of a tree. -/
def ForksPaired (tasks : List Task) : Prop :=
  Paired tasks ∧ ∀ t ∈ listing tasks, ∀ s ∈ t.kind.sequences, Paired s

instance decidablePaired : (s : List Task) → Decidable (Paired s)
  | [] => .isTrue trivial
  | _ :: rest =>
    have := decidablePaired rest
    inferInstanceAs (Decidable (_ ∧ _))

instance (tasks : List Task) : Decidable (ForksPaired tasks) :=
  inferInstanceAs (Decidable (_ ∧ _))

theorem Kind.isJoin_of_isFork {σ : Type} {k : Kind σ} (h : k.isFork = true) :
    k.isJoin = false := by
  cases k with
  | join on => cases h
  | _ => rfl

/-- What pairing looks at. -/
def Kind.role {σ : Type} (k : Kind σ) : Bool × Bool := (k.isFork, k.isJoin)

theorem joinFirst_congr {s s' : List Task} (h : s.map (·.kind.role) = s'.map (·.kind.role)) :
    joinFirst s = joinFirst s' := by
  cases s with
  | nil =>
    rw [List.map_nil, eq_comm, List.map_eq_nil_iff] at h
    rw [h]
  | cons t rest =>
    cases s' with
    | nil => cases h
    | cons t' rest' =>
      rw [List.map_cons, List.map_cons, List.cons.injEq] at h
      exact congrArg Prod.snd h.1

theorem paired_congr {s s' : List Task} (h : s.map (·.kind.role) = s'.map (·.kind.role)) :
    Paired s ↔ Paired s' := by
  induction s generalizing s' with
  | nil =>
    rw [List.map_nil, eq_comm, List.map_eq_nil_iff] at h
    rw [h]
  | cons t rest ih =>
    cases s' with
    | nil => cases h
    | cons t' rest' =>
      rw [List.map_cons, List.map_cons, List.cons.injEq] at h
      have hfork : t.kind.isFork = t'.kind.isFork := congrArg Prod.fst h.1
      rw [Paired, Paired, hfork, joinFirst_congr h.2, ih h.2]

theorem Paired.right {before after : List Task} (h : Paired (before ++ after)) : Paired after := by
  induction before with
  | nil => exact h
  | cons t rest ih => exact ih h.2

/-- When a stretch is taken out, only the task before it can lose its join. -/
theorem paired_append_iff {before middle after : List Task}
    (h : Paired (before ++ middle ++ after)) :
    Paired (before ++ after) ↔
      ∀ t ∈ before.getLast?, t.kind.isFork = true → joinFirst after = true := by
  induction before with
  | nil =>
    rw [List.nil_append] at h
    constructor
    · intro _ t ht
      cases ht
    · intro _
      exact h.right
  | cons t rest ih =>
    obtain ⟨hjoin, hrest⟩ := h
    cases rest with
    | nil =>
      rw [List.singleton_append, Paired, List.getLast?_singleton]
      constructor
      · rintro ⟨hfork, -⟩ _ ⟨⟩
        exact hfork
      · intro hfork
        exact ⟨hfork t rfl, hrest.right⟩
    | cons t' rest =>
      rw [List.cons_append, Paired, ih hrest, List.getLast?_cons_cons]
      constructor
      · rintro ⟨-, hlast⟩
        exact hlast
      · intro hlast
        exact ⟨hjoin, hlast⟩

theorem Paired.joinFirst_of_getLast? {before after : List Task} (h : Paired (before ++ after)) :
    ∀ t ∈ before.getLast?, t.kind.isFork = true → joinFirst after = true := by
  have hnothing : Paired (before ++ [] ++ after) := by rwa [List.append_nil]
  exact (paired_append_iff hnothing).mp h

theorem forksPaired_iff {tasks : List Task} :
    ForksPaired tasks ↔ Paired tasks ∧ ∀ t ∈ tasks, ∀ s ∈ t.kind.sequences, ForksPaired s := by
  refine and_congr_right fun _ => ⟨?_, ?_⟩
  · intro h t ht s hs
    have hmem : ∀ u ∈ listing s, u ∈ listing tasks := by
      intro u hu
      exact mem_listing.mpr ⟨t, ht, Task.mem_family.mpr (Or.inr ⟨s, hs, hu⟩)⟩
    exact ⟨h t (mem_listing.mpr ⟨t, ht, Task.mem_family.mpr (Or.inl rfl)⟩) s hs,
      fun u hu => h u (hmem u hu)⟩
  · intro h u hu
    obtain ⟨t, ht, hu⟩ := mem_listing.mp hu
    rcases Task.mem_family.mp hu with rfl | ⟨s, hs, hu⟩
    · exact fun s hs => (h u ht s hs).1
    · exact (h t ht s hs).2 u hu

/-- Tasks taken from a paired tree form one if they are paired among themselves. -/
theorem ForksPaired.iff_paired {s s' : List Task} (h : ForksPaired s) (hsub : ∀ t ∈ s', t ∈ s) :
    ForksPaired s' ↔ Paired s' := by
  rw [forksPaired_iff]
  exact and_iff_left fun t ht => (forksPaired_iff.mp h).2 t (hsub t ht)

/-- When a task is cut out with some that follow, the task before it alone matters. -/
theorem ForksPaired.cut_iff {front back : List Task} {t : Task}
    (h : ForksPaired (front ++ t :: back)) (n : Nat) :
    ForksPaired (front ++ back.drop n) ↔
      ∀ u ∈ front.getLast?, u.kind.isFork = true → joinFirst (back.drop n) = true := by
  have hsub : ∀ u ∈ front ++ back.drop n, u ∈ front ++ t :: back := by
    intro u hu
    rcases List.mem_append.mp hu with hu | hu
    · exact List.mem_append_left _ hu
    · exact List.mem_append_right _ (List.mem_cons_of_mem _ (List.mem_of_mem_drop hu))
  have hmiddle : Paired (front ++ t :: back.take n ++ back.drop n) := by
    rw [List.append_assoc, List.cons_append, List.take_append_drop]
    exact h.1
  rw [h.iff_paired hsub, paired_append_iff hmiddle]

theorem Kind.role_set {σ : Type} (k : Kind σ) (branch : Branch) (s : σ) :
    (k.set branch s).role = k.role := by
  unfold Kind.set
  split <;> rfl

theorem Kind.role_prune {σ : Type} (k : Kind σ) (branch : Branch) :
    (k.prune branch).role = k.role := by
  unfold Kind.prune
  split <;> rfl

theorem Kind.mem_sequences_prune {σ : Type} {k : Kind σ} {branch : Branch} {s : σ}
    (hs : s ∈ (k.prune branch).sequences) : s ∈ k.sequences := by
  unfold Kind.prune at hs
  split at hs
  · exact List.mem_of_mem_eraseIdx hs
  · next form switch key =>
    rcases List.mem_cons.mp hs with rfl | hs
    · exact List.mem_cons_self
    · obtain ⟨c, hc, rfl⟩ := List.mem_map.mp hs
      exact List.mem_cons_of_mem _ (List.mem_map_of_mem (List.mem_of_mem_filter hc))
  · exact hs

theorem forksPaired_exchange {before after : List Task} {t t' : Task}
    (hrole : t'.kind.role = t.kind.role) (h : ForksPaired (before ++ t :: after)) :
    ForksPaired (before ++ t' :: after) ↔ ∀ s ∈ t'.kind.sequences, ForksPaired s := by
  rw [forksPaired_iff] at h ⊢
  obtain ⟨hpaired, hinner⟩ := h
  constructor
  · intro h
    exact h.2 t' (List.mem_append_right _ List.mem_cons_self)
  · intro h
    refine ⟨(paired_congr ?_).mp hpaired, fun u hu => ?_⟩
    · rw [List.map_append, List.map_append, List.map_cons, List.map_cons, hrole]
    · rcases List.mem_append.mp hu with hu | hu
      · exact hinner u (List.mem_append_left _ hu)
      · rcases List.mem_cons.mp hu with rfl | hu
        · exact h
        · exact hinner u (List.mem_append_right _ (List.mem_cons_of_mem _ hu))

section

variable {f : List Task → List Task} {segments : List Segment} {tasks tasks' : List Task}

/-- Whether a changed tree is paired depends on the sequence that was changed. -/
theorem forksPaired_change? (h : TreePath.change? f segments tasks = some tasks')
    (hpaired : ForksPaired tasks) :
    ∃ s, TreePath.follow? segments tasks = some s ∧ ForksPaired s ∧
      (ForksPaired tasks' ↔ ForksPaired (f s)) := by
  induction segments generalizing tasks tasks' with
  | nil =>
    obtain rfl := Option.some.inj h
    exact ⟨tasks, rfl, hpaired, Iff.rfl⟩
  | cons segment rest ih =>
    obtain ⟨t, q, q', ht, hq, hq', rfl⟩ := TreePath.change?_cons h
    obtain ⟨front, back, htasks, -, hset⟩ := split_of_getElem? ht
    obtain ⟨left, right, hsequences, hset'⟩ := Kind.sequences_set hq
    have hinner : ∀ s ∈ t.kind.sequences, ForksPaired s :=
      (forksPaired_iff.mp hpaired).2 t (List.mem_of_getElem? ht)
    rw [hsequences] at hinner
    obtain ⟨s, hs, hpaired', hiff⟩ :=
      ih hq' (hinner q (List.mem_append_right _ List.mem_cons_self))
    refine ⟨s, ?_, hpaired', ?_⟩
    · rw [TreePath.follow?_cons ht hq, hs]
    rw [htasks] at hpaired
    rw [hset, forksPaired_exchange (Kind.role_set t.kind segment.branch q') hpaired, ← hiff]
    dsimp only
    rw [hset']
    constructor
    · intro h
      exact h q' (List.mem_append_right _ List.mem_cons_self)
    · intro h u hu
      rcases List.mem_append.mp hu with hu | hu
      · exact hinner u (List.mem_append_left _ hu)
      · rcases List.mem_cons.mp hu with rfl | hu
        · exact h
        · exact hinner u (List.mem_append_right _ (List.mem_cons_of_mem _ hu))

theorem forksPaired_prune {path : TreePath} (hpaired : ForksPaired tasks) :
    ForksPaired (path.prune tasks) := by
  unfold TreePath.prune
  split
  · exact hpaired
  · next owner last howner =>
    cases hmodify : Place.modify? ⟨owner, last.index⟩
        (fun t => { t with kind := t.kind.prune last.branch }) tasks with
    | none => exact hpaired
    | some tasks' =>
      rw [Option.getD_some]
      obtain ⟨s, hs, hmodify⟩ := Option.bind_eq_some_iff.mp hmodify
      obtain ⟨t, ht, hmodify⟩ := Option.bind_eq_some_iff.mp hmodify
      obtain ⟨s', hs', hpaired', hiff⟩ := forksPaired_change? hmodify hpaired
      obtain rfl : s' = s := Option.some.inj (hs'.symm.trans hs)
      obtain ⟨front, back, heq, -, hset⟩ := split_of_getElem? ht
      have hinner := (forksPaired_iff.mp hpaired').2 t (List.mem_of_getElem? ht)
      rw [heq] at hpaired'
      rw [hiff, hset, forksPaired_exchange (Kind.role_prune t.kind last.branch) hpaired']
      exact fun u hu => hinner u (Kind.mem_sequences_prune hu)

end

namespace Diagram

variable {d after : Diagram} {reference : String} {tasks : List Task}

theorem extent_ok {s : List Task} {index count : Nat} {t : Task}
    (h : extent reference s index t = .ok count) :
    t.kind.isFork = false ∧ count = 1 ∨
      t.kind.isFork = true ∧ count = 2 ∧ ∃ j, s[index + 1]? = some j ∧ j.kind.isJoin = true := by
  unfold extent at h
  split at h
  · next hfork =>
    split at h
    · next j hj =>
      split at h
      · next hjoin =>
        cases h
        exact Or.inr ⟨hfork, rfl, j, hj, hjoin⟩
      · cases h
    · cases h
  · next hplain =>
    cases h
    exact Or.inl ⟨Bool.eq_false_iff.mpr hplain, rfl⟩

/-- A deletion takes one stretch out of a sequence, and the branch of that sequence if nothing is
left of it. -/
theorem remove_ok (h : d.remove reference = .ok tasks) :
    ∃ place s t count shortened, d.locate reference = .ok (place, s, t) ∧
      extent reference s place.index t = .ok count ∧
      place.path.modify? (fun _ => s.take place.index ++ s.drop (place.index + count)) d.tasks =
        some shortened ∧
      tasks = if (s.take place.index ++ s.drop (place.index + count)).isEmpty
        then place.path.prune shortened else shortened := by
  rw [remove, Outcome.bind_eq_ok] at h
  obtain ⟨⟨place, s, t⟩, hlocate, h⟩ := h
  dsimp only at h
  rw [Outcome.bind_eq_ok] at h
  obtain ⟨count, hcount, h⟩ := h
  refine ⟨place, s, t, count, ?_⟩
  cases hmodify : place.path.modify?
      (fun _ => s.take place.index ++ s.drop (place.index + count)) d.tasks with
  | none =>
    rw [hmodify] at h
    cases h
  | some shortened =>
    rw [hmodify] at h
    cases h
    exact ⟨shortened, hlocate, hcount, rfl, rfl⟩

/-- A task that is located is taken out with what goes along with it. -/
theorem remove_of_locate {place : Place} {s : List Task} {t : Task} {count : Nat}
    {shortened : List Task} (hlocate : d.locate reference = .ok (place, s, t))
    (hcount : extent reference s place.index t = .ok count)
    (hmodify : place.path.modify?
      (fun _ => s.take place.index ++ s.drop (place.index + count)) d.tasks = some shortened) :
    d.remove reference =
      .ok (if (s.take place.index ++ s.drop (place.index + count)).isEmpty
        then place.path.prune shortened else shortened) := by
  refine Outcome.bind_eq_ok.mpr ⟨_, hlocate, Outcome.bind_eq_ok.mpr ⟨count, hcount, ?_⟩⟩
  dsimp only
  rw [hmodify]
  rfl

/-- **Forks after a deletion.** Forks stay paired with joins exactly if the task that was deleted is
not a join between a fork and something else than a join. -/
theorem forksPaired_delete_iff (hpaired : ForksPaired d.tasks)
    (hedit : d.edit (.delete reference) = .ok after) :
    ∃ place s t, d.locate reference = .ok (place, s, t) ∧
      (ForksPaired after.tasks ↔
        ¬ (t.kind.isJoin = true ∧ joinFirst (s.drop (place.index + 1)) = false ∧
          ∃ fork ∈ (s.take place.index).getLast?, fork.kind.isFork = true)) := by
  obtain ⟨place, s, t, count, shortened, hlocate, hcount, hmodify, htasks⟩ :=
    remove_ok (edit_ok hedit).1
  refine ⟨place, s, t, hlocate, ?_⟩
  obtain ⟨-, -, -, -, hs, ht, -⟩ := locate_ok hlocate
  obtain ⟨s', hs', hpaired', hiff⟩ := forksPaired_change? hmodify hpaired
  obtain rfl : s' = s := Option.some.inj (hs'.symm.trans hs)
  obtain ⟨front, back, rfl, hfront, -⟩ := split_of_getElem? ht
  have htake : (front ++ t :: back).take place.index = front := by
    rw [← hfront, List.take_left]
  have hdrop : ∀ n, (front ++ t :: back).drop (place.index + (n + 1)) = back.drop n := by
    intro n
    rw [← hfront, List.drop_append]
    simp
  -- the sequence alone decides, since pruning only takes an empty one away
  have hrest : ForksPaired after.tasks ↔
      ForksPaired ((front ++ t :: back).take place.index ++
        (front ++ t :: back).drop (place.index + count)) := by
    rw [htasks, ← hiff]
    split
    · next hempty =>
      have hshortened : ForksPaired shortened := by
        rw [hiff, List.isEmpty_iff.mp hempty]
        exact forksPaired_iff.mpr ⟨trivial, fun u hu => absurd hu List.not_mem_nil⟩
      exact iff_of_true (forksPaired_prune hshortened) hshortened
    · exact Iff.rfl
  have hbefore : ∀ u ∈ front.getLast?, u.kind.isFork = true → t.kind.isJoin = true :=
    hpaired'.1.joinFirst_of_getLast?
  rw [hrest, htake, hdrop 0, List.drop_zero]
  rcases extent_ok hcount with ⟨-, rfl⟩ | ⟨hfork, rfl, -⟩
  · rw [hdrop 0, hpaired'.cut_iff 0, List.drop_zero]
    constructor
    · rintro hlast ⟨-, hfollowed, u, hu, hfork⟩
      rw [hlast u hu hfork] at hfollowed
      cases hfollowed
    · intro hnot u hu hfork
      by_contra hfollowed
      exact hnot ⟨hbefore u hu hfork, Bool.eq_false_iff.mpr hfollowed, u, hu, hfork⟩
  · -- a fork is no join, so no fork stands before it
    have hplain := Kind.isJoin_of_isFork hfork
    rw [hdrop 1, hpaired'.cut_iff 1]
    refine iff_of_true (fun u hu hfork => ?_) fun ⟨hjoin, _⟩ => ?_
    · rw [hbefore u hu hfork] at hplain
      cases hplain
    · rw [hplain] at hjoin
      cases hjoin

end Diagram

namespace Sample

def joined : Definition :=
  .ofTasks "w" [.ofRef "f" (.fork [[.ofRef "a" (.worker .simple)], [.ofRef "b" (.worker .simple)]]),
    .ofRef "j" (.join ["a", "b"]), .ofRef "z" (.worker .simple)]

def joinedDiagram : Diagram :=
  (Diagram.ofDefinition joined .standard).toOption.getD ⟨joined, none, .empty, .standard, .empty⟩

def unjoinedDiagram : Diagram :=
  (joinedDiagram.edit (.delete "j")).toOption.getD joinedDiagram

end Sample

/-- The join can be deleted by itself, and the fork stays without one. -/
theorem Diagram.forksPaired_delete_iff_of_join :
    ForksPaired Sample.joinedDiagram.tasks ∧
      Sample.joinedDiagram.edit (.delete "j") = .ok Sample.unjoinedDiagram ∧
        ¬ ForksPaired Sample.unjoinedDiagram.tasks := by
  have hpaired : ForksPaired Sample.joinedDiagram.tasks := by decide +kernel
  have hedit : Sample.joinedDiagram.edit (.delete "j") = .ok Sample.unjoinedDiagram :=
    Outcome.eq_ok_of_isOk (by decide +kernel) _
  refine ⟨hpaired, hedit, ?_⟩
  obtain ⟨place, s, t, hlocate, hiff⟩ := Diagram.forksPaired_delete_iff hpaired hedit
  have hfound : Sample.joinedDiagram.locate "j" =
      .ok (⟨.root, 1⟩, Sample.joined.tasks, .ofRef "j" (.join ["a", "b"])) := by
    decide +kernel
  rw [hfound] at hlocate
  cases hlocate
  rw [hiff, Decidable.not_not]
  exact ⟨rfl, rfl, _, rfl, rfl⟩

end Flowchart

import Flowchart.Plan
import Flowchart.Proofs.Filing

/-!
# What a bound history holds

The history of an execution keeps each attempt under its reference, in the order of arrival. Each
reference that it knows has an attempt. Where no attempt belongs to a bubble, the bubbles have none
but their own.
-/

namespace Flowchart

theorem mapLast_eq_nil {α : Type} {f : α → α} {as : List α} : mapLast f as = [] ↔ as = [] := by
  cases as with
  | nil => exact Iff.rfl
  | cons a as => cases as <;> simp [mapLast]

namespace Attempt

/-- Attempts of tasks. None is a bubble's. -/
structure OfTasks (attempts : List Attempt) : Prop where
  type_ne : ∀ a ∈ attempts, a.type ≠ .terminal
  reference_ne : ∀ a ∈ attempts, a.reference ≠ startBubble ∧ a.reference ≠ finalBubble

theorem spawned_of_ofDoc {source : Source} {d : Doc} {a : Attempt}
    (h : Attempt.ofDoc source d = .ok a) : a.spawned = none := by
  unfold Attempt.ofDoc at h
  -- each member is read on its own, and none of them is the list of spawned references
  repeat obtain ⟨_, -, h⟩ := Outcome.bind_eq_ok.mp h
  rw [← Outcome.pure_eq_ok.mp h]

end Attempt

namespace History

variable {h h' : History} {r parent child : String} {a : Attempt} {attempts : List Attempt}

theorem mem_references_add : r ∈ (h.add a).references ↔ r ∈ h.references ∨ r = a.reference := by
  rw [references, add, Dict.keys_put]
  split
  · next hknown =>
    constructor
    · exact Or.inl
    · rintro (hr | rfl)
      · exact hr
      · exact hknown
  · rw [List.mem_append, List.mem_singleton]
    rfl

theorem references_link (hlink : h.link parent child = .ok h') : h'.references = h.references := by
  rw [link] at hlink
  split at hlink
  · cases hlink
  · rw [Outcome.pure_eq_ok] at hlink
    rw [← hlink]
    exact Dict.keys_adjust _ _ _

theorem attempts_link_eq_nil (hlink : h.link parent child = .ok h') :
    h'.attempts r = [] ↔ h.attempts r = [] := by
  rw [attempts_link hlink]
  split
  · exact mapLast_eq_nil
  · rfl

/-- Attempts that are added one by one stand behind those that were there. -/
theorem attempts_foldl_add (as : List Attempt) (h : History) (r : String) :
    (as.foldl add h).attempts r = h.attempts r ++ as.filter (·.reference = r) := by
  induction as generalizing h with
  | nil => simp
  | cons a as ih =>
    rw [List.foldl_cons, ih, attempts_add, List.filter_cons]
    by_cases heq : a.reference = r <;> simp [heq]

theorem mem_references_foldl_add (as : List Attempt) (h : History) :
    r ∈ (as.foldl add h).references ↔ r ∈ h.references ∨ ∃ a ∈ as, a.reference = r := by
  induction as generalizing h with
  | nil => simp
  | cons a as ih =>
    rw [List.foldl_cons, ih, mem_references_add, or_assoc, eq_comm (a := r)]
    simp only [List.mem_cons, exists_eq_or_imp]

/-- References have attempts, and bubbles speak for themselves alone. -/
structure Sound (h : History) : Prop where
  recorded : ∀ r ∈ h.references, h.attempts r ≠ []
  bubble : ∀ r, ∀ a ∈ h.attempts r, a.isBubble = true → r = startBubble ∨ r = finalBubble

theorem Sound.empty : Sound empty where
  recorded := fun _ hr => absurd hr List.not_mem_nil
  bubble := fun _ _ ha => absurd ha List.not_mem_nil

theorem Sound.with_terminated (hs : h.Sound) (terminated : Bool) :
    { h with terminated := terminated }.Sound :=
  ⟨hs.recorded, hs.bubble⟩

theorem Sound.foldl_add (hattempts : Attempt.OfTasks attempts) :
    (attempts.foldl add History.empty).Sound := by
  have hfiled : ∀ r, (attempts.foldl add History.empty).attempts r =
      attempts.filter (·.reference = r) := fun r => attempts_foldl_add attempts _ r
  have hmem : ∀ r, (attempts.foldl add History.empty).attempts r ≠ [] ↔
      ∃ a ∈ attempts, a.reference = r := by
    intro r
    rw [hfiled, ne_eq, List.filter_eq_nil_iff]
    simp
  refine ⟨fun r hr => ?_, fun r a ha hbubble => ?_⟩
  · rw [mem_references_foldl_add] at hr
    exact (hmem r).mpr (hr.resolve_left List.not_mem_nil)
  · rw [hfiled, List.mem_filter] at ha
    exact absurd (beq_iff_eq.mp hbubble) (hattempts.type_ne a ha.1)

theorem Sound.link (hs : h.Sound) (hlink : h.link parent child = .ok h') : h'.Sound := by
  refine ⟨fun r hr => ?_, fun r b hb hbubble => ?_⟩
  · rw [references_link hlink] at hr
    exact (not_congr (attempts_link_eq_nil hlink)).mpr (hs.recorded r hr)
  · rw [attempts_link hlink] at hb
    split at hb
    · rcases mem_mapLast hb with hb | ⟨a, ha, rfl⟩
      · exact hs.bubble r b hb hbubble
      · exact hs.bubble r a ha hbubble
    · exact hs.bubble r b hb hbubble

theorem Sound.add_bubble {status : TaskStatus} (hs : h.Sound)
    (hr : r = startBubble ∨ r = finalBubble) : (h.add (.bubble r status)).Sound := by
  have hfiled : ∀ q, (h.add (.bubble r status)).attempts q =
      if r = q then h.attempts q ++ [.bubble r status] else h.attempts q :=
    fun q => attempts_add h (.bubble r status) q
  have hkeeps : ∀ {q}, h.attempts q ≠ [] → (h.add (.bubble r status)).attempts q ≠ [] := by
    intro q hq
    rw [hfiled]
    split
    · exact List.append_ne_nil_of_left_ne_nil hq _
    · exact hq
  have hmem : ∀ {q b}, b ∈ (h.add (.bubble r status)).attempts q →
      b ∈ h.attempts q ∨ q = r ∧ b = .bubble r status := by
    intro q b hb
    rw [hfiled] at hb
    split at hb
    · next heq =>
      exact (List.mem_append.mp hb).imp_right fun hb => ⟨heq.symm, List.mem_singleton.mp hb⟩
    · exact Or.inl hb
  refine ⟨fun q hq => ?_, fun q b hb hbubble => ?_⟩
  · rcases mem_references_add.mp hq with hq | rfl
    · exact hkeeps (hs.recorded q hq)
    · rw [hfiled, if_pos rfl]
      exact List.append_ne_nil_of_right_ne_nil _ (List.cons_ne_nil _ _)
  · rcases hmem hb with hb | ⟨rfl, -⟩
    · exact hs.bubble q b hb hbubble
    · exact hr

/-- The history of these attempts, which are those of tasks. Where nothing is executed there are
none. -/
def OfTasks (h : History) (attempts : List Attempt) : Prop :=
  (h = History.empty ∧ attempts = []) ∨ (∃ status, ofAttempts status attempts = .ok h) ∧
    Attempt.OfTasks attempts

theorem OfTasks.bound (hh : h.OfTasks attempts) : h.Bound := by
  rcases hh with ⟨hempty, -⟩ | ⟨⟨status, hbind⟩, -⟩
  · exact Or.inl hempty
  · exact Or.inr ⟨status, attempts, hbind⟩

theorem Sound.ofAttempts {status : RunStatus} (hbind : ofAttempts status attempts = .ok h)
    (hattempts : Attempt.OfTasks attempts) : h.Sound := by
  rw [History.ofAttempts, Outcome.bind_eq_ok] at hbind
  obtain ⟨linked, hlinked, hbind⟩ := hbind
  have hsound : linked.Sound :=
    Outcome.foldlM_keeps hlinked ((Sound.foldl_add hattempts).with_terminated _)
      fun _ _ _ _ hs hlink => hs.link hlink
  dsimp only at hbind
  split at hbind
  · rw [Outcome.pure_eq_ok] at hbind
    exact hbind ▸ (hsound.add_bubble (Or.inl rfl)).add_bubble (Or.inr rfl)
  · rw [Outcome.pure_eq_ok] at hbind
    exact hbind ▸ hsound.add_bubble (Or.inl rfl)

theorem latest?_isSome : (h.latest? r).isSome = true ↔ h.attempts r ≠ [] := by
  rw [latest?, List.getLast?_isSome]

/-- Only what stands under a bubble's reference may not be looked at. -/
theorem Sound.latestOfTask_eq (hs : h.Sound) (hstart : r ≠ startBubble) (hfinal : r ≠ finalBubble) :
    h.latestOfTask r = .ok (h.latest? r) := by
  rw [latestOfTask]
  cases hlatest : h.latest? r with
  | none => rfl
  | some a =>
    have htask : a.isBubble = false := Bool.eq_false_iff.mpr fun hbubble =>
      (hs.bubble r a (List.mem_of_getLast? hlatest) hbubble).elim hstart hfinal
    dsimp only
    rw [htask]
    rfl

/-- The status of the latest attempt of a task. -/
def statusOf (history : History) (reference : String) : Except Error TaskStatus := do
  match ← history.latestOfTask reference with
  | some a => pure a.status
  | none => throw (.notFound .attempt reference)

end History

namespace Aggregate

theorem ofReferences_eq (history : History) (references : List String) :
    ofReferences history references = (references.mapM history.statusOf >>= fun statuses =>
      pure ⟨some (Tally.ofStatuses statuses).status, some (Tally.ofStatuses statuses),
        some references⟩) := rfl

end Aggregate

end Flowchart

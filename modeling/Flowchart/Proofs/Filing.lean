import Flowchart.History
import Flowchart.Proofs.Outcomes

/-!
# Attempts are filed under their own references

A history is reached by adding attempts and by linking them to their parents. Neither files an
attempt under another reference.
-/

namespace Flowchart

theorem mem_mapLast {α : Type} {f : α → α} {as : List α} {b : α} (h : b ∈ mapLast f as) :
    b ∈ as ∨ ∃ a ∈ as, b = f a := by
  induction as with
  | nil => simp [mapLast] at h
  | cons a as ih =>
    cases as with
    | nil =>
      rw [mapLast, List.mem_singleton] at h
      exact Or.inr ⟨a, List.mem_cons_self, h⟩
    | cons a' as =>
      have h : b ∈ a :: mapLast f (a' :: as) := h
      rcases List.mem_cons.mp h with rfl | h
      · exact Or.inl List.mem_cons_self
      · rcases ih h with hmem | ⟨c, hc, rfl⟩
        · exact Or.inl (List.mem_cons_of_mem _ hmem)
        · exact Or.inr ⟨c, List.mem_cons_of_mem _ hc, rfl⟩

namespace History

/-- A history without attempts, or one of an execution. -/
def Bound (h : History) : Prop := h = empty ∨ ∃ status attempts, ofAttempts status attempts = .ok h

/-- Each attempt stands under its own reference. -/
def Filed (h : History) : Prop := ∀ r, ∀ a ∈ h.attempts r, a.reference = r

theorem attempts_add (h : History) (a : Attempt) (r : String) :
    (h.add a).attempts r = if a.reference = r then h.attempts r ++ [a] else h.attempts r := by
  simp only [attempts, add, Dict.get?_put]
  split
  · next heq =>
    subst heq
    rfl
  · rfl

theorem attempts_link {h h' : History} {parent child : String}
    (hlink : h.link parent child = .ok h') (r : String) :
    h'.attempts r =
      if parent = r then mapLast (·.addSpawned child) (h.attempts r) else h.attempts r := by
  rw [link] at hlink
  split at hlink
  · cases hlink
  · rw [Outcome.pure_eq_ok] at hlink
    subst hlink
    simp only [attempts, Dict.get?_adjust]
    split
    · cases Dict.get? h.entries r <;> rfl
    · rfl

theorem Filed.empty : Filed empty := by
  intro r a ha
  simp [attempts, History.empty] at ha

theorem Filed.add {h : History} (hh : h.Filed) (a : Attempt) : (h.add a).Filed := by
  intro r b hb
  rw [attempts_add] at hb
  split at hb
  · next heq =>
    rcases List.mem_append.mp hb with hb | hb
    · exact hh r b hb
    · rw [List.mem_singleton.mp hb]
      exact heq
  · exact hh r b hb

theorem Filed.link {h h' : History} (hh : h.Filed) {parent child : String}
    (hlink : h.link parent child = .ok h') : h'.Filed := by
  intro r b hb
  rw [attempts_link hlink] at hb
  split at hb
  · rcases mem_mapLast hb with hb | ⟨a, ha, rfl⟩
    · exact hh r b hb
    · exact hh r a ha
  · exact hh r b hb

theorem Filed.ofAttempts {status : RunStatus} {attempts : List Attempt} {h : History}
    (hbind : ofAttempts status attempts = .ok h) : h.Filed := by
  have hadded : (attempts.foldl History.add History.empty).Filed :=
    List.foldlRecOn attempts History.add Filed.empty fun _ hh a _ => hh.add a
  rw [History.ofAttempts, Outcome.bind_eq_ok] at hbind
  obtain ⟨linked, hlinked, hbind⟩ := hbind
  have hfiled : linked.Filed :=
    Outcome.foldlM_keeps hlinked hadded fun _ _ _ _ hh hlink => hh.link hlink
  dsimp only at hbind
  split at hbind
  · rw [Outcome.pure_eq_ok] at hbind
    exact hbind ▸ (hfiled.add _).add _
  · rw [Outcome.pure_eq_ok] at hbind
    exact hbind ▸ hfiled.add _

theorem Bound.filed {h : History} (hh : h.Bound) : h.Filed := by
  rcases hh with rfl | ⟨status, attempts, hbind⟩
  · exact Filed.empty
  · exact Filed.ofAttempts hbind

theorem latest?_eq_of_latestOfTask {h : History} {r : String} {latest : Option Attempt}
    (hlatest : h.latestOfTask r = .ok latest) : h.latest? r = latest := by
  unfold latestOfTask at hlatest
  split at hlatest
  · next b hb =>
    split at hlatest
    · cases hlatest
    · cases hlatest
      exact hb
  · next hnone =>
    cases hlatest
    exact hnone

theorem Filed.reference_eq {h : History} (hh : h.Filed) {r : String} {a : Attempt}
    (ha : h.latestOfTask r = .ok (some a)) : a.reference = r :=
  hh r a (List.mem_of_getLast? (latest?_eq_of_latestOfTask ha))

end History

end Flowchart

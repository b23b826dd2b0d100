import Mathlib.Data.Set.Defs
import Mathlib.Order.BooleanAlgebra.Set

/-!
# Routes

A route leads along a relation from one place to another. It is written down as the list of the
places after the first. A route along two relations, of which the second is never left again, falls
into a part along the first and a part along the second.
-/

namespace Flowchart

variable {α : Type}

/-- A way along `R`, with the places after the first one. -/
inductive Route (R : α → α → Prop) : α → List α → α → Prop where
  | stay (a : α) : Route R a [] a
  | step {a b c : α} {w : List α} : R a b → Route R b w c → Route R a (b :: w) c

namespace Route

variable {R Q : α → α → Prop} {a b c : α} {v w : List α}

theorem single (h : R a b) : Route R a [b] b := step h (stay b)

theorem append (h : Route R a v b) (h' : Route R b w c) : Route R a (v ++ w) c := by
  induction h with
  | stay _ => exact h'
  | step hab _ ih => exact step hab (ih h')

theorem mono (h : Route R a w b) (hRQ : ∀ a b, R a b → Q a b) : Route Q a w b := by
  induction h with
  | stay a => exact stay a
  | step hab _ ih => exact step (hRQ _ _ hab) ih

@[simp] theorem nil_iff : Route R a [] b ↔ a = b := by
  constructor
  · rintro ⟨⟩
    rfl
  · rintro rfl
    exact stay a

@[simp] theorem cons_iff : Route R a (b :: w) c ↔ R a b ∧ Route R b w c := by
  constructor
  · rintro (_ | ⟨hab, hbc⟩)
    exact ⟨hab, hbc⟩
  · rintro ⟨hab, hbc⟩
    exact step hab hbc

/-- A route that moves at all ends where the relation leads to. -/
theorem target_mem {T : Set α} (h : Route R a w b) (hT : ∀ a b, R a b → b ∈ T) :
    w = [] ∧ a = b ∨ w ≠ [] ∧ b ∈ T := by
  induction h with
  | stay a => exact Or.inl ⟨rfl, rfl⟩
  | step hab _ ih =>
    refine Or.inr ⟨List.cons_ne_nil _ _, ?_⟩
    rcases ih with ⟨-, rfl⟩ | ⟨-, hmem⟩
    · exact hT _ _ hab
    · exact hmem

theorem exists_step (h : Route R a w b) (hw : w ≠ []) : ∃ c, R a c := by
  cases h with
  | stay a => exact absurd rfl hw
  | step hab _ => exact ⟨_, hab⟩

/-- Where each step climbs, a route climbs at least as far as it is long. -/
theorem rank_le (rank : α → ℕ) (h : Route R a w b) (hrank : ∀ a b, R a b → rank a < rank b) :
    rank a + w.length ≤ rank b := by
  induction h with
  | stay a => exact le_rfl
  | @step a b c w hab _ ih =>
    have hstep := hrank a b hab
    rw [List.length_cons]
    omega

/-- Inside `T`, which `R` does not leave from and `Q` leads into, a route is one along `Q`. -/
theorem of_closed {T : Set α} (h : Route (fun a b => R a b ∨ Q a b) a w b) (ha : a ∈ T)
    (hR : ∀ a b, R a b → a ∉ T) (hQ : ∀ a b, Q a b → b ∈ T) : Route Q a w b := by
  induction h with
  | stay a => exact stay a
  | step hab _ ih =>
    rcases hab with hab | hab
    · exact absurd ha (hR _ _ hab)
    · exact step hab (ih (hQ _ _ hab))

/-- Since `Q` leads into `T`, which `R` does not leave from, a route follows `R` first and `Q`
then. -/
theorem split {T : Set α} (h : Route (fun a b => R a b ∨ Q a b) a w c)
    (hR : ∀ a b, R a b → a ∉ T) (hQ : ∀ a b, Q a b → b ∈ T) :
    ∃ u v b, w = u ++ v ∧ Route R a u b ∧ Route Q b v c := by
  induction h with
  | stay a => exact ⟨[], [], a, rfl, stay a, stay a⟩
  | step hab hrest ih =>
    rcases hab with hab | hab
    · obtain ⟨u, v, m, rfl, hu, hv⟩ := ih
      exact ⟨_ :: u, v, m, rfl, step hab hu, hv⟩
    · exact ⟨[], _, _, rfl, stay _, step hab (hrest.of_closed (hQ _ _ hab) hR hQ)⟩

end Route

end Flowchart

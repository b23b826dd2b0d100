import Flowchart.Task.Basic

/-!
# Equality of tasks

Two kinds are equal when they have the same shape, which is what remains when every sequence is
forgotten, and the same sequences.
-/

namespace Flowchart

variable {α β : Type}

/-- Whether two lists have one length and agree place by place. -/
def agree (p : α → β → Bool) : List α → List β → Bool
  | [], [] => true
  | a :: as, b :: bs => p a b && agree p as bs
  | _, _ => false

theorem agree_map {γ : Type} (p : γ → β → Bool) (f : α → γ) (as : List α) (bs : List β) :
    agree p (as.map f) bs = agree (fun a b => p (f a) b) as bs := by
  induction as generalizing bs with
  | nil => cases bs <;> rfl
  | cons a as ih => cases bs <;> simp [agree, ih]

theorem agree_iff_eq (p : α → α → Bool) (as : List α)
    (h : ∀ a ∈ as, ∀ b, p a b = true ↔ a = b) (bs : List α) :
    agree p as bs = true ↔ as = bs := by
  induction as generalizing bs with
  | nil => cases bs <;> simp [agree]
  | cons a as ih =>
    cases bs with
    | nil => simp [agree]
    | cons b bs =>
      simp [agree, h a (by simp) b, ih (fun a ha => h a (by simp [ha])) bs]

namespace Kind

variable {σ τ : Type}

def shape (k : Kind σ) : Kind Unit := k.map fun _ => ()

theorem shape_map (f : σ → τ) (k : Kind σ) : (k.map f).shape = k.shape := by
  cases k with
  | fork => simp only [shape, map, List.map_map, Function.comp_def]
  | switch => simp only [shape, map, Switch.map, List.map_map, Function.comp_def]
  | _ => rfl

private theorem cases_eq_of {cs ds : List (String × σ)}
    (hk : cs.map (fun c => (c.1, ())) = ds.map (fun c => (c.1, ())))
    (hv : cs.map (·.2) = ds.map (·.2)) : cs = ds := by
  induction cs generalizing ds with
  | nil => cases ds <;> simp_all
  | cons c cs ih =>
    cases ds with
    | nil => simp at hk
    | cons d ds =>
      simp only [List.map_cons, List.cons.injEq, Prod.mk.injEq, and_true] at hk hv
      rw [Prod.ext hk.1 hv.1, ih hk.2 hv.2]

theorem ext_shape {k l : Kind σ} : k = l ↔ k.shape = l.shape ∧ k.sequences = l.sequences := by
  constructor
  · rintro rfl
    exact ⟨rfl, rfl⟩
  · rintro ⟨hs, hq⟩
    cases k <;> cases l <;> simp_all [shape, map, Switch.map, sequences, Switch.sequences]
    next s form t =>
      cases s
      cases t
      simp_all only [Switch.mk.injEq]
      exact ⟨trivial, trivial, trivial, cases_eq_of hs.2.2.2.2 hq.2, trivial⟩

end Kind

namespace Task

/-- Equality of tasks, with all that is inside them. -/
def same : Task → Task → Bool :=
  fold fun t k u =>
    decide (t.name = u.name ∧ t.reference = u.reference ∧ t.description = u.description ∧
      t.optional = u.optional ∧ t.inputs = u.inputs ∧ t.extra = u.extra ∧
      k.shape = u.kind.shape) &&
    agree (agree fun p v => p v) k.sequences u.kind.sequences

theorem same_iff_eq (t u : Task) : same t u = true ↔ t = u := by
  induction t using Task.induction generalizing u with
  | step t ih =>
    have h := agree_iff_eq (agree same) t.kind.sequences
      (fun s hs => agree_iff_eq same s (ih s hs)) u.kind.sequences
    rw [same, fold_eq]
    simp only [Kind.shape_map, Kind.sequences_map, agree_map, Bool.and_eq_true, decide_eq_true_eq]
    change _ ∧ agree (agree same) _ _ = true ↔ _
    rw [h]
    obtain ⟨n, r, d, o, i, k, e⟩ := t
    obtain ⟨n', r', d', o', i', k', e'⟩ := u
    simp only [Task.mk.injEq, Kind.ext_shape (k := k)]
    constructor <;> (intro h; simp_all)

instance : DecidableEq Task := fun t u => decidable_of_iff _ (same_iff_eq t u)

end Task

end Flowchart

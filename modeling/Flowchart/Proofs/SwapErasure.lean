import Flowchart.Proofs.Drawn
import Flowchart.Proofs.TreeEdits
import Mathlib.Data.List.Nodup

/-!
# Erasing by a move of the last entry

An entry is taken out of a list by moving the last one into its place. The order apart, that is the
list without the entry, and all entries but the last keep their places.
-/

namespace Flowchart

section

variable {α : Type} {as : List α} {i : Nat} {a : α}

theorem getElem?_swapErase (hi : i < as.length) (j : Nat) : (swapErase as i)[j]? =
    if j < as.length - 1 then if j = i then as[as.length - 1]? else as[j]? else none := by
  have hne : as ≠ [] := List.ne_nil_of_length_pos (Nat.zero_lt_of_lt hi)
  have hlast : as.getLast? = some (as.getLast hne) := List.getLast?_eq_some_getLast hne
  rw [swapErase, hlast]
  dsimp only
  rw [if_pos hi, List.getElem?_dropLast, List.length_set, ← List.getLast?_eq_getElem?, hlast]
  split
  · split
    · next heq => rw [heq, List.getElem?_set_self hi]
    · next hapart => rw [List.getElem?_set_ne (Ne.symm hapart)]
  · rfl

theorem nodup_swapErase (h : as.Nodup) (hi : i < as.length) : (swapErase as i).Nodup :=
  (Graph.swapErase_perm hi).nodup_iff.mpr (h.sublist (List.eraseIdx_sublist as i))

variable [DecidableEq α]

/-- An entry that is there once is at one place. -/
theorem getElem?_iff_idxOf (h : as.Nodup) : as[i]? = some a ↔ a ∈ as ∧ as.idxOf a = i := by
  constructor
  · intro ha
    obtain ⟨hi, rfl⟩ := List.getElem?_eq_some_iff.mp ha
    exact ⟨List.getElem_mem hi, h.idxOf_getElem i hi⟩
  · rintro ⟨ha, rfl⟩
    exact List.getElem?_idxOf ha

/-- The last entry takes the place of the one that is taken out. -/
theorem idxOf_swapErase (h : as.Nodup) (hi : i < as.length) (ha : a ∈ as) (hne : as.idxOf a ≠ i) :
    (swapErase as i).idxOf a = if as.idxOf a = as.length - 1 then i else as.idxOf a := by
  have hplace : as[as.idxOf a]? = some a := List.getElem?_idxOf ha
  have hlt : as.idxOf a < as.length := List.idxOf_lt_length_of_mem ha
  refine ((getElem?_iff_idxOf (nodup_swapErase h hi)).mp ?_).2
  rw [getElem?_swapErase hi]
  split
  · next hlast =>
    have hbefore : i < as.length - 1 := by omega
    rw [if_pos hbefore, if_pos rfl, ← hlast, hplace]
  · next hapart =>
    have hbefore : as.idxOf a < as.length - 1 := by omega
    rwa [if_pos hbefore]

theorem mem_swapErase_idxOf {b : α} (h : as.Nodup) (ha : a ∈ as) :
    b ∈ swapErase as (as.idxOf a) ↔ b ∈ as ∧ b ≠ a := by
  rw [(Graph.swapErase_perm (List.idxOf_lt_length_of_mem ha)).mem_iff, List.eraseIdx_idxOf_eq_erase,
    h.mem_erase_iff, and_comm]

end

section

variable {α : Type} {q : α → Bool} {as : List α}

/-- One entry with `q` is taken out, and there is no other. -/
theorem swapEraseP_perm (h : as.Pairwise fun a b => ¬ (q a = true ∧ q b = true)) :
    (swapEraseP q as).Perm (as.filter fun a => !q a) := by
  rw [swapEraseP]
  split
  · next i hi =>
    obtain ⟨hlt, hq, -⟩ := List.findIdx?_eq_some_iff_getElem.mp hi
    obtain ⟨before, after, heq, rfl, -⟩ := split_of_getElem? (List.getElem?_eq_getElem hlt)
    generalize as[before.length] = a at hq heq
    subst heq
    obtain ⟨-, hafter, hbefore⟩ := List.pairwise_append.mp h
    have hkept : (before ++ a :: after).filter (fun a => !q a) = before ++ after := by
      have hleft : before.filter (fun a => !q a) = before := by
        refine List.filter_eq_self.mpr fun b hb => ?_
        simpa [hq] using hbefore b hb a List.mem_cons_self
      have hright : after.filter (fun a => !q a) = after := by
        refine List.filter_eq_self.mpr fun b hb => ?_
        simpa [hq] using (List.pairwise_cons.mp hafter).1 b hb
      rw [List.filter_append, List.filter_cons_of_neg (by simp [hq]), hleft, hright]
    rw [hkept]
    refine (Graph.swapErase_perm hlt).trans ?_
    rw [List.eraseIdx_append_of_length_le (Nat.le_refl _), Nat.sub_self]
    rfl
  · next hnone =>
    rw [List.filter_eq_self.mpr]
    intro a ha
    rw [List.findIdx?_eq_none_iff.mp hnone a ha, Bool.not_false]

/-- Entries with distinct numbers are taken out one number after the other. -/
theorem foldl_swapEraseP_perm {number : α → Nat} (p : α → Bool) (h : (as.map number).Nodup)
    (numbers : List Nat) :
    (numbers.foldl (fun as n => swapEraseP (fun a => number a == n && p a) as) as).Perm
      (as.filter fun a => !(decide (number a ∈ numbers) && p a)) := by
  induction numbers generalizing as with
  | nil => simp
  | cons n rest ih =>
    have hone : as.Pairwise fun a b =>
        ¬ ((number a == n && p a) = true ∧ (number b == n && p b) = true) := by
      refine (List.pairwise_map.mp h).imp fun hne => ?_
      simp only [Bool.and_eq_true, beq_iff_eq]
      rintro ⟨⟨ha, -⟩, hb, -⟩
      exact hne (ha.trans hb.symm)
    have hfirst := swapEraseP_perm hone
    have hnodup : ((swapEraseP (fun a => number a == n && p a) as).map number).Nodup :=
      (hfirst.map number).nodup_iff.mpr ((List.filter_sublist.map number).nodup h)
    rw [List.foldl_cons]
    refine (ih hnodup).trans ((hfirst.filter _).trans ?_)
    rw [List.filter_filter]
    refine List.Perm.of_eq (List.filter_congr fun a _ => ?_)
    by_cases hn : number a = n
    · cases p a <;> simp [hn]
    · simp [hn]

/-- When all numbers are gone through, what is left are the entries without `p`. -/
theorem foldl_range_perm {number : α → Nat} {n : Nat} (p : α → Bool) (h : (as.map number).Nodup)
    (hbound : ∀ a ∈ as, number a < n) : ((List.range n).reverse.foldl
      (fun as n => swapEraseP (fun a => number a == n && p a) as) as).Perm
      (as.filter fun a => !p a) := by
  refine (foldl_swapEraseP_perm p h _).trans (List.Perm.of_eq (List.filter_congr fun a ha => ?_))
  simp [hbound a ha]

end

end Flowchart

import Flowchart.Diagram.Edit
import Flowchart.Proofs.Drawn
import Mathlib.Data.List.Nodup
import Mathlib.Data.List.Perm.Subperm

/-!
# References for new tasks

Of the references made of one stem and a number, no two are the same. So among one more of them than
there are vertices, one is not drawn, and that one is found. A template is put in under it.
-/

namespace Flowchart

/-- A stem with a number behind it. -/
def numberedRef (stem : String) (n : Nat) : String := s!"{stem}_{n}"

theorem toList_numberedRef (stem : String) (n : Nat) :
    (numberedRef stem n).toList = stem.toList ++ '_' :: Nat.toDigits 10 n := by
  simp [numberedRef, toString]

theorem numberedRef_injective (stem : String) : Function.Injective (numberedRef stem) := by
  intro m n heq
  have hlist := congrArg String.toList heq
  rw [toList_numberedRef, toList_numberedRef, List.append_cancel_left_eq, List.cons.injEq] at hlist
  have hvalue := congrArg (fun digits => Nat.ofDigitChars 10 digits 0) hlist.2
  simpa only [Nat.ofDigitChars_ten_toDigits] using hvalue

/-- Where a mark is the last of its kind, it tells where a list is to be parted. -/
theorem append_cons_inj {α : Type} {as as' bs bs' : List α} {mark : α} (hbs : mark ∉ bs)
    (hbs' : mark ∉ bs') (h : as ++ mark :: bs = as' ++ mark :: bs') : as = as' ∧ bs = bs' := by
  have hnone : ∀ {cs : List α} {front back : List α}, mark ∉ front →
      mark :: front = cs ++ mark :: back → cs = [] := by
    intro cs front back hfront heq
    cases cs with
    | nil => rfl
    | cons c cs =>
      obtain ⟨-, rfl⟩ := List.cons.inj heq
      exact absurd (List.mem_append_right _ List.mem_cons_self) hfront
  rcases List.append_eq_append_iff.mp h with ⟨cs, rfl, heq⟩ | ⟨cs, rfl, heq⟩ <;>
    obtain rfl := hnone ‹_› heq
  · exact ⟨(List.append_nil as).symm, (List.cons.inj heq).2⟩
  · exact ⟨List.append_nil as', (List.cons.inj heq).2.symm⟩

/-- Numbered references tell their stems, for there is no mark in a number. -/
theorem numberedRef_inj {stem stem' : String} {m n : Nat}
    (h : numberedRef stem m = numberedRef stem' n) : stem = stem' ∧ m = n := by
  have hmark : ∀ n, '_' ∉ Nat.toDigits 10 n := fun n hmem =>
    absurd (Nat.isDigit_of_mem_toDigits (by decide) (by decide) hmem) (by decide)
  have hlist := congrArg String.toList h
  rw [toList_numberedRef, toList_numberedRef] at hlist
  obtain ⟨hstem, -⟩ := append_cons_inj (hmark m) (hmark n) hlist
  obtain rfl := String.toList_inj.mp hstem
  exact ⟨rfl, numberedRef_injective stem h⟩

/-- A numbered reference ends with a digit. -/
theorem isDigit_of_getLast?_numberedRef {stem : String} {n : Nat} {c : Char}
    (h : (numberedRef stem n).toList.getLast? = some c) : c.isDigit = true := by
  rw [toList_numberedRef, List.getLast?_append_of_ne_nil _ (List.cons_ne_nil _ _),
    List.getLast?_cons_of_ne_nil Nat.toDigits_ne_nil] at h
  exact Nat.isDigit_of_mem_toDigits (by decide) (by decide) (List.mem_of_getLast? h)

/-- Names that are all different are not all used up by fewer of them. -/
theorem exists_unused {name : Nat → String} (hname : Function.Injective name) (used : List String) :
    ∃ n ∈ List.range (used.length + 1), name n ∉ used := by
  by_contra hall
  push Not at hall
  have hnodup : ((List.range (used.length + 1)).map name).Nodup := List.nodup_range.map hname
  have hsubset : (List.range (used.length + 1)).map name ⊆ used := by
    intro r hr
    obtain ⟨n, hn, rfl⟩ := List.mem_map.mp hr
    exact hall n hn
  have hlength := (hnodup.subperm hsubset).length_le
  rw [List.length_map, List.length_range] at hlength
  omega

/-- Among one more of the names than are used up, from any number on, the first that is free is
found. -/
theorem find?_unused {name : Nat → String} (hname : Function.Injective name) {used : List String}
    {unused : Nat → Bool} (hunused : ∀ n, unused n = true ↔ name n ∉ used) (start : Nat) :
    ∃ n, (List.range' start (used.length + 1)).find? unused = some n ∧ start ≤ n ∧
      name n ∉ used ∧ ∀ m, start ≤ m → m < n → name m ∈ used := by
  have hshifted : Function.Injective fun n => name (start + n) :=
    fun m n heq => Nat.add_left_cancel (hname heq)
  obtain ⟨k, hk, hfree⟩ := exists_unused hshifted used
  cases hfound : (List.range' start (used.length + 1)).find? unused with
  | none =>
    rw [List.mem_range] at hk
    have hrange : start + k ∈ List.range' start (used.length + 1) :=
      List.mem_range'_1.mpr (by omega)
    exact absurd ((hunused _).mpr hfree) (List.find?_eq_none.mp hfound _ hrange)
  | some n =>
    obtain ⟨hn, i, hi, rfl, hbefore⟩ := List.find?_eq_some_iff_getElem.mp hfound
    simp only [List.getElem_range', Nat.one_mul] at hn hbefore ⊢
    refine ⟨_, rfl, Nat.le_add_right _ _, (hunused _).mp hn, fun m hstart hm => ?_⟩
    by_contra hnot
    have hlater := hbefore (m - start) (by omega)
    rw [Nat.add_sub_cancel' hstart, (hunused m).mpr hnot] at hlater
    cases hlater

namespace Diagram

/-- A reference that is made up for a new task has the lowest number that is not drawn. -/
theorem freshRef_spec (d : Diagram) (stem : String) :
    ∃ n, d.freshRef stem = numberedRef stem n ∧ numberedRef stem n ∉ d.graph.references ∧
      ∀ m < n, numberedRef stem m ∈ d.graph.references := by
  have hunused : ∀ n, (!d.graph.contains (numberedRef stem n)) = true ↔
      numberedRef stem n ∉ d.graph.references := by
    intro n
    rw [Bool.not_eq_true', ← Bool.not_eq_true, Graph.contains_iff]
  have hcount : d.graph.vertexCount = d.graph.references.length := by
    rw [Graph.references, List.length_map, Graph.vertexCount]
  obtain ⟨n, hfound, -, hfree, hbelow⟩ := find?_unused (numberedRef_injective stem) hunused 0
  refine ⟨n, ?_, hfree, fun m hm => hbelow m (Nat.zero_le m) hm⟩
  change numberedRef stem (((List.range (d.graph.vertexCount + 1)).find? fun n =>
    !d.graph.contains (numberedRef stem n)).getD 0) = _
  rw [hcount, List.range_eq_range', hfound, Option.getD_some]

/-- Whether a reference is made up for a new task depends on which of its stem are drawn. -/
theorem freshRef_congr {d d' : Diagram} {stem : String}
    (h : ∀ n, numberedRef stem n ∈ d.graph.references ↔ numberedRef stem n ∈ d'.graph.references) :
    d.freshRef stem = d'.freshRef stem := by
  obtain ⟨n, heq, hfree, hbelow⟩ := d.freshRef_spec stem
  obtain ⟨n', heq', hfree', hbelow'⟩ := d'.freshRef_spec stem
  rw [heq, heq']
  rcases Nat.lt_trichotomy n n' with hlt | rfl | hlt
  · exact absurd ((h n).mpr (hbelow' n hlt)) hfree
  · rfl
  · exact absurd ((h n').mp (hbelow n' hlt)) hfree'

end Diagram

/-- No two types that there are templates of have one stem. -/
theorem TaskType.eq_of_stem {type type' : TaskType} {r r' : String} {inserted inserted' : List Task}
    (h : Task.template type r = .ok inserted) (h' : Task.template type' r' = .ok inserted')
    (hstem : type.stem = type'.stem) : type = type' := by
  have hkinds : ∀ {type : TaskType} {r : String} {inserted : List Task},
      Task.template type r = .ok inserted → type ∈ ofKinds := by
    intro type r inserted h
    cases type <;> first | decide | cases h
  have hnodup : (ofKinds.map stem).Nodup := by decide
  exact List.inj_on_of_nodup_map hnodup (hkinds h) (hkinds h') hstem

/-- A template holds one task under the given reference, and for forks a join behind it. -/
theorem Task.template_ok {type : TaskType} {reference : String} {inserted : List Task}
    (h : Task.template type reference = .ok inserted) :
    (∃ t, inserted = [t] ∧ t.reference = reference ∧ t.kind.isFork = false ∧
        t.kind.sequences.flatten = [] ∧ type ≠ .forkJoin ∧ type ≠ .forkJoinDynamic) ∨
      ∃ t, inserted = [t, Task.pairedJoin reference] ∧ t.reference = reference ∧
        t.kind.isFork = true ∧ t.kind.sequences = [] ∧
        (type = .forkJoin ∨ type = .forkJoinDynamic) := by
  cases type <;> cases h
  case forkJoin | forkJoinDynamic => exact Or.inr ⟨_, rfl, rfl, rfl, rfl, by simp⟩
  all_goals exact Or.inl ⟨_, rfl, rfl, rfl, rfl, by simp, by simp⟩

theorem Task.head?_stem {type : TaskType} {reference : String} {inserted : List Task}
    (h : Task.template type reference = .ok inserted) :
    ∃ c, type.stem.toList.head? = some c ∧ c ≠ '_' := by
  rw [TaskType.stem, String.toList_ofList]
  cases type <;> first | (cases h; done) | simp [TaskType.name]

/-- The references of bubbles begin with a mark that no reference of a template begins with. -/
theorem numberedRef_append_ne_bubble {type : TaskType} {reference : String} {inserted : List Task}
    (h : Task.template type reference = .ok inserted) (n : Nat) (suffix : String) :
    numberedRef type.stem n ++ suffix ≠ startBubble ∧
      numberedRef type.stem n ++ suffix ≠ finalBubble := by
  obtain ⟨c, hstem, hc⟩ := Task.head?_stem h
  have hhead : (numberedRef type.stem n ++ suffix).toList.head? = some c := by
    rw [String.toList_append, toList_numberedRef, List.append_assoc, List.head?_append, hstem,
      Option.some_or]
  constructor <;> intro hbubble <;> rw [hbubble] at hhead <;>
    exact hc (Option.some.inj hhead).symm

namespace Diagram

variable {d : Diagram} {type : TaskType} {inserted : List Task}

theorem freshRef_append_ne_bubble (h : d.freshTasks type = .ok inserted) (suffix : String) :
    d.freshRef type.stem ++ suffix ≠ startBubble ∧
      d.freshRef type.stem ++ suffix ≠ finalBubble := by
  obtain ⟨n, heq, -⟩ := d.freshRef_spec type.stem
  rw [heq]
  exact numberedRef_append_ne_bubble h n suffix

/-- No template is put in under the reference of the final bubble. -/
theorem freshRef_ne_finalBubble (h : d.freshTasks type = .ok inserted) :
    d.freshRef type.stem ≠ finalBubble := by
  obtain ⟨-, hfinal⟩ := freshRef_append_ne_bubble h ""
  rwa [String.append_empty] at hfinal

theorem freshTasks_ne_bubble (h : d.freshTasks type = .ok inserted) {t : Task}
    (ht : t ∈ inserted) : t.reference ≠ startBubble ∧ t.reference ≠ finalBubble := by
  have hfresh := freshRef_append_ne_bubble h ""
  rw [String.append_empty] at hfresh
  rcases Task.template_ok h with ⟨u, rfl, href, -⟩ | ⟨u, rfl, href, -⟩
  · rw [List.mem_singleton.mp ht, href]
    exact hfresh
  · rcases List.mem_cons.mp ht with rfl | ht
    · rw [href]
      exact hfresh
    · rw [List.mem_singleton.mp ht]
      exact freshRef_append_ne_bubble h "_join"

end Diagram

end Flowchart

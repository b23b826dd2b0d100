import Flowchart.Proofs.FreshNames
import Flowchart.Proofs.TreePaths

/-!
# Templates put in through the kind of a task

Four edits put a template into a task: as a further branch of a fork, as a further case or as the
default of a switch, or as the body of a loop. Each time one branch of the kind comes to hold the
template, and all other branches stay. Where that branch held nothing before, emptying and pruning
it gives the kind as it was.
-/

namespace Flowchart

namespace Kind

/-- The key that is made up for a new case has the lowest number that is free, from the number of
cases on. -/
theorem freshCase_spec (cases : List (String × List Task)) :
    ∃ n, freshCase cases = numberedRef "case" n ∧ cases.length ≤ n ∧
      numberedRef "case" n ∉ Dict.keys cases ∧
      ∀ m, cases.length ≤ m → m < n → numberedRef "case" m ∈ Dict.keys cases := by
  have hunused : ∀ n, (!Dict.contains cases (numberedRef "case" n)) = true ↔
      numberedRef "case" n ∉ Dict.keys cases := by
    intro n
    rw [Bool.not_eq_true', ← Bool.not_eq_true, Dict.contains_iff]
  have hcount : (Dict.keys cases).length = cases.length := List.length_map _
  obtain ⟨n, hfound, hn⟩ := find?_unused (numberedRef_injective "case") hunused cases.length
  refine ⟨n, ?_, hn⟩
  change numberedRef "case" (((List.range' cases.length (cases.length + 1)).find? fun n =>
    !Dict.contains cases (numberedRef "case" n)).getD 0) = _
  rw [hcount] at hfound
  rw [hfound, Option.getD_some]

theorem freshCase_not_mem (cases : List (String × List Task)) :
    freshCase cases ∉ Dict.keys cases := by
  obtain ⟨n, heq, -, hfree, -⟩ := freshCase_spec cases
  rwa [heq]

section

variable {inserted : List Task} {k k' : Kind (List Task)}

theorem addBranch?_eq_some : addBranch? inserted k = some k' ↔
    ∃ branches, k = .fork branches ∧ k' = .fork (branches ++ [inserted]) := by
  cases k <;> simp [addBranch?, eq_comm]

theorem addCase?_eq_some : addCase? inserted k = some k' ↔ ∃ form s, k = .switch form s ∧
    k' = .switch form { s with cases := s.cases ++ [(freshCase s.cases, inserted)] } := by
  cases k <;> simp [addCase?, eq_comm]

theorem setDefault?_eq_some : setDefault? inserted k = some k' ↔
    ∃ form s, k = .switch form s ∧ k' = .switch form { s with otherwise := inserted } := by
  cases k <;> simp [setDefault?, eq_comm]

theorem setBody?_eq_some : setBody? inserted k = some k' ↔
    ∃ condition body, k = .loop condition body ∧ k' = .loop condition inserted := by
  cases k <;> simp [setBody?, eq_comm]

end

/-- The ways in which a template is put in through a kind, with the branch that comes to hold it. -/
inductive Entry : (List Task → Kind (List Task) → Option (Kind (List Task))) →
    (Kind (List Task) → Branch) → Prop where
  | addBranch : Entry addBranch? fun k => .fork k.sequences.length
  | addCase : Entry addCase? fun k => .case (freshCase (k.switch?.elim [] (·.cases)))
  | setDefault : Entry setDefault? fun _ => .default
  | setBody : Entry setBody? fun _ => .loopBody

variable {enter : List Task → Kind (List Task) → Option (Kind (List Task))}
  {branch : Kind (List Task) → Branch} {inserted : List Task} {k k' : Kind (List Task)}

/-- A further branch of a fork is none of those that are there. -/
theorem get?_nextBranch (k : Kind (List Task)) : k.get? (.fork k.sequences.length) = none := by
  cases k with
  | fork branches => exact List.getElem?_length branches
  | _ => rfl

theorem get?_nextCase (k : Kind (List Task)) :
    k.get? (.case (freshCase (k.switch?.elim [] (·.cases)))) = none := by
  cases k with
  | switch form switch => exact Dict.get?_eq_none (freshCase_not_mem switch.cases)
  | _ => rfl

theorem Entry.type_eq (hentry : Entry enter branch) (h : enter inserted k = some k') :
    k'.type = k.type := by
  cases hentry <;> cases k <;> cases h <;> rfl

theorem Entry.eq_loopBody (hentry : Entry enter branch) (h : enter inserted k = some k')
    (htype : k.type = .doWhile) : branch k = .loopBody := by
  cases hentry <;> cases k <;> cases h
  case addBranch => cases htype
  case addCase form switch => cases form <;> cases htype
  case setDefault form switch => cases form <;> cases htype
  case setBody => rfl

theorem Entry.get?_eq (hentry : Entry enter branch) (h : enter inserted k = some k') :
    k'.get? (branch k) = some inserted := by
  cases hentry <;> cases k <;> cases h
  case addBranch branches => exact List.getElem?_concat_length
  case addCase form switch => exact Dict.get?_middle (freshCase_not_mem switch.cases) inserted
  case setDefault => rfl
  case setBody => rfl

/-- The template comes in the place of what was in its branch. -/
theorem Entry.swaps (hentry : Entry enter branch) (h : enter inserted k = some k')
    {α : Type} {g : List Task → List α} (hg : g [] = []) :
    Swaps (g ((k.get? (branch k)).getD [])) (g inserted) (k.sequences.flatMap g)
      (k'.sequences.flatMap g) := by
  cases hentry <;> cases k <;> cases h
  case addBranch branches =>
    refine ⟨branches.flatMap g, [], ?_, ?_⟩
    · rw [get?_nextBranch, Option.getD_none, hg, List.append_nil, List.append_nil]
      rfl
    · dsimp only [sequences]
      rw [List.flatMap_append, List.flatMap_singleton, List.append_nil]
  case addCase form switch =>
    refine ⟨(Kind.switch form switch).sequences.flatMap g, [], ?_, ?_⟩
    · rw [get?_nextCase, Option.getD_none, hg, List.append_nil, List.append_nil]
    · dsimp only [sequences, Switch.sequences]
      rw [List.map_append, ← List.cons_append, List.flatMap_append, List.map_singleton,
        List.flatMap_singleton, List.append_nil]
  case setDefault form switch => exact ⟨[], _, rfl, rfl⟩
  case setBody condition body => exact ⟨[], _, rfl, rfl⟩

theorem Entry.mem_sequences (hentry : Entry enter branch) (h : enter inserted k = some k')
    {s : List Task} (hs : s ∈ k'.sequences) : s = inserted ∨ s ∈ k.sequences := by
  cases hentry <;> cases k <;> cases h
  case addBranch branches =>
    exact (List.mem_append.mp hs).symm.imp_left List.mem_singleton.mp
  case addCase form switch =>
    simp only [sequences, Switch.sequences, List.map_append, List.mem_cons, List.mem_append,
      List.map_cons, List.map_nil, List.not_mem_nil, or_false] at hs ⊢
    tauto
  case setDefault form switch =>
    exact (List.mem_cons.mp hs).imp_right (List.mem_cons_of_mem _)
  case setBody condition body => exact Or.inl (List.mem_singleton.mp hs)

/-- Where the branch held nothing, taking the template out again gives the kind as it was. -/
theorem Entry.undo (hentry : Entry enter branch) (h : enter inserted k = some k')
    (hvacant : (k.get? (branch k)).getD [] = []) :
    (k'.set (branch k) []).prune (branch k) = k := by
  cases hentry <;> cases k <;> cases h
  case addBranch branches =>
    dsimp only [sequences, set, prune]
    rw [set_middle, eraseIdx_middle, List.append_nil]
  case addCase form switch =>
    have hunused := freshCase_not_mem switch.cases
    dsimp only [switch?, Option.elim_some, set, prune]
    rw [Dict.adjust_middle hunused, Dict.erase_middle hunused List.not_mem_nil, List.append_nil]
  case setDefault form switch =>
    obtain ⟨evaluator, expression, caseParam, cases, otherwise⟩ := switch
    obtain rfl : otherwise = [] := hvacant
    rfl
  case setBody condition body =>
    obtain rfl : body = [] := hvacant
    rfl

end Kind

end Flowchart

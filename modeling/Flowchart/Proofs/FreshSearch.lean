import Flowchart.Proofs.Refusals
import Flowchart.Proofs.Sessions
import Mathlib.Order.Bounds.Basic

/-!
# The search for a reference

A new task is named by the first number under which nothing is drawn. The search for it has no bound
of its own: it goes from number to number for as long as the candidate is drawn. It ends because
candidates are all different, so that those that were passed are no more than there are vertices.
-/

namespace Flowchart

namespace Diagram

/-- The search from one number on, with the candidates that it looks up and the number at which it
ends. -/
inductive Search (d : Diagram) (stem : String) : Nat → List String → Nat → Prop where
  | free {n : Nat} : d.graph.contains (numberedRef stem n) = false →
      Search d stem n [numberedRef stem n] n
  | drawn {n m : Nat} {candidates : List String} :
      d.graph.contains (numberedRef stem n) = true → Search d stem (n + 1) candidates m →
      Search d stem n (numberedRef stem n :: candidates) m

variable {d : Diagram} {stem : String} {n m : Nat} {candidates : List String}

/-- A search passes the numbers that are drawn and ends at one that is not. -/
theorem Search.spec (h : d.Search stem n candidates m) :
    n ≤ m ∧ candidates.length = m + 1 - n ∧ numberedRef stem m ∉ d.graph.references ∧
      ∀ k, n ≤ k → k < m → numberedRef stem k ∈ d.graph.references := by
  induction h with
  | @free n hfree =>
    rw [← Bool.not_eq_true, Graph.contains_iff] at hfree
    refine ⟨le_rfl, ?_, hfree, fun k hk hlt => ?_⟩
    · rw [List.length_singleton]
      omega
    · omega
  | @drawn n m candidates hdrawn _ ih =>
    obtain ⟨hle, hlength, hfree, hpassed⟩ := ih
    refine ⟨by omega, ?_, hfree, fun k hk hlt => ?_⟩
    · rw [List.length_cons, hlength]
      omega
    · rcases Nat.eq_or_lt_of_le hk with rfl | hk
      · exact Graph.contains_iff.mp hdrawn
      · exact hpassed k hk hlt

/-- Each step of a search is settled by what is drawn. -/
theorem Search.unique (h : d.Search stem n candidates m) {candidates' : List String} {m' : Nat}
    (h' : d.Search stem n candidates' m') : candidates = candidates' ∧ m = m' := by
  induction h generalizing candidates' m' with
  | free hfree =>
    cases h' with
    | free _ => exact ⟨rfl, rfl⟩
    | drawn hdrawn _ =>
      rw [hfree] at hdrawn
      cases hdrawn
  | drawn hdrawn _ ih =>
    cases h' with
    | free hfree =>
      rw [hdrawn] at hfree
      cases hfree
    | drawn _ hrest =>
      obtain ⟨rfl, rfl⟩ := ih hrest
      exact ⟨rfl, rfl⟩

/-- From each of the numbers that are drawn the search gets to the free one behind them, by
induction on how many there are left. -/
theorem exists_search (hfree : numberedRef stem m ∉ d.graph.references) (hle : n ≤ m)
    (hpassed : ∀ k, n ≤ k → k < m → numberedRef stem k ∈ d.graph.references) :
    ∃ candidates, d.Search stem n candidates m := by
  induction hleft : m - n generalizing n with
  | zero =>
    obtain rfl : n = m := by omega
    rw [← Graph.contains_iff, Bool.not_eq_true] at hfree
    exact ⟨_, .free hfree⟩
  | succ left ih =>
    have hdrawn := hpassed n le_rfl (by omega)
    obtain ⟨candidates, hrest⟩ :=
      ih (n := n + 1) (by omega) (fun k hk => hpassed k (by omega)) (by omega)
    exact ⟨_, .drawn (Graph.contains_iff.mpr hdrawn) hrest⟩

/-- The candidates before a free one are vertices, and no two of them are the same. -/
theorem Search.le_vertexCount (h : d.Search stem 0 candidates m) : m ≤ d.graph.vertexCount := by
  obtain ⟨-, -, -, hpassed⟩ := h.spec
  obtain ⟨k, hk, hunused⟩ := exists_unused (numberedRef_injective stem) d.graph.references
  have hcount : d.graph.references.length = d.graph.vertexCount := List.length_map _
  rw [List.mem_range, hcount] at hk
  have hle : m ≤ k := by
    by_contra hlt
    exact hunused (hpassed k (Nat.zero_le k) (by omega))
  omega

theorem Search.isLeast (h : d.Search stem 0 candidates m) :
    IsLeast {k | ∀ v ∈ d.graph.vertices, v.reference ≠ numberedRef stem k} m := by
  have hmem : ∀ k, (∀ v ∈ d.graph.vertices, v.reference ≠ numberedRef stem k) ↔
      numberedRef stem k ∉ d.graph.references := by
    intro k
    rw [Graph.references, List.mem_map]
    push Not
    rfl
  obtain ⟨-, -, hfree, hpassed⟩ := h.spec
  refine ⟨(hmem m).mpr hfree, fun k hk => ?_⟩
  by_contra hlt
  exact (hmem k).mp hk (hpassed k (Nat.zero_le k) (by omega))

theorem Search.freshRef_eq (h : d.Search stem 0 candidates m) :
    d.freshRef stem = numberedRef stem m := by
  obtain ⟨n, heq, hfree, hbelow⟩ := d.freshRef_spec stem
  obtain ⟨candidates', h'⟩ :=
    exists_search hfree (Nat.zero_le n) fun k _ hk => hbelow k hk
  rw [heq, (h.unique h').2]

/-- **Fresh references.** The search for the reference of a new task ends, and there is one way in
which it does: after no more candidates than there are vertices and one, at the least number under
which nothing is drawn. The template of the type comes under that reference, and the diagram stays
as it is. -/
theorem search_ends (d : Diagram) {type : TaskType} (htype : type.HasTemplate) :
    ∃ candidates n, d.Search type.stem 0 candidates n ∧
      (∀ candidates' n', d.Search type.stem 0 candidates' n' →
        candidates' = candidates ∧ n' = n) ∧
      candidates.length ≤ d.graph.vertexCount + 1 ∧
      IsLeast {k | ∀ v ∈ d.graph.vertices, v.reference ≠ numberedRef type.stem k} n ∧
      ∃ t rest, (Session.ask (·.freshTasks type)).run d = .ok (t :: rest) d ∧
        t.reference = numberedRef type.stem n := by
  obtain ⟨n, -, hfree, hbelow⟩ := d.freshRef_spec type.stem
  obtain ⟨candidates, hsearch⟩ :=
    exists_search hfree (Nat.zero_le n) fun k _ hk => hbelow k hk
  have hlength : candidates.length ≤ d.graph.vertexCount + 1 := by
    have hle := hsearch.le_vertexCount
    obtain ⟨-, hlength, -⟩ := hsearch.spec
    omega
  obtain ⟨inserted, htemplate⟩ := Task.template_of_hasTemplate htype (d.freshRef type.stem)
  have hrun : (Session.ask (·.freshTasks type)).run d = .ok inserted d := by
    rw [Session.run_ask, freshTasks, htemplate]
  refine ⟨candidates, n, hsearch, fun _ _ h => h.unique hsearch, hlength, hsearch.isLeast, ?_⟩
  rcases Task.template_ok htemplate with ⟨t, rfl, href, -⟩ | ⟨t, rfl, href, -⟩ <;>
    exact ⟨t, _, hrun, href.trans hsearch.freshRef_eq⟩

end Diagram

namespace Sample

/-- Tasks that have been named like new forks, out of order and with a gap. -/
def forkNames : Definition :=
  .ofTasks "w" [.ofRef "fork_join_1" (.worker .simple), .ofRef "fork_join_3" (.worker .http),
    .ofRef "fork_join_0" (.worker .wait)]

def forkNamesDiagram : Diagram :=
  (Diagram.ofDefinition forkNames .standard).toOption.getD
    ⟨forkNames, none, .empty, .standard, .empty⟩

end Sample

/-- The search passes the first two names and ends in the gap. -/
theorem Diagram.search_ends_of_gap :
    TaskType.forkJoin.HasTemplate ∧
    ∃ candidates n, Sample.forkNamesDiagram.Search "fork_join" 0 candidates n ∧
      candidates.length ≤ 6 ∧
      ∃ t rest, (Session.ask (·.freshTasks .forkJoin)).run Sample.forkNamesDiagram =
        .ok (t :: rest) Sample.forkNamesDiagram ∧ t.reference = numberedRef "fork_join" n ∧
          n = 2 := by
  have htype : TaskType.forkJoin.HasTemplate := ⟨"f", _, rfl⟩
  obtain ⟨candidates, n, hsearch, -, hlength, hleast, t, rest, hrun, href⟩ :=
    Sample.forkNamesDiagram.search_ends htype
  have hgap : IsLeast {k | ∀ v ∈ Sample.forkNamesDiagram.graph.vertices,
      v.reference ≠ numberedRef TaskType.forkJoin.stem k} 2 := by
    have hfree : ∀ v ∈ Sample.forkNamesDiagram.graph.vertices,
        v.reference ≠ numberedRef TaskType.forkJoin.stem 2 := by decide +kernel
    have hbelow : ∀ k < 2, ¬ ∀ v ∈ Sample.forkNamesDiagram.graph.vertices,
        v.reference ≠ numberedRef TaskType.forkJoin.stem k := by decide +kernel
    exact ⟨hfree, fun k hk => Nat.le_of_not_lt fun hlt => hbelow k hlt hk⟩
  exact ⟨htype, candidates, n, hsearch, hlength, t, rest, hrun, href, hleast.unique hgap⟩

end Flowchart

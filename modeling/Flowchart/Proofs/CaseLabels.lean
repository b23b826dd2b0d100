import Flowchart.Proofs.Exits
import Flowchart.Proofs.ExecutedEdges
import Flowchart.Proofs.TaskIds

/-!
# The labels of edges out of switches

The label of an edge out of a switch is looked up by the reference that the edge leads to. The heads
of the branches are all different, and what follows the switch is none of them. So a head is taken
for the head of its own branch, and what is no head can only be what follows the switch, behind the
first empty branch.
-/

namespace Flowchart

namespace Switch

variable {s : Switch (List Task)} {r : String}

/-- The label of the first empty branch. -/
def emptyLabel? (s : Switch (List Task)) : Option String :=
  if s.otherwise = [] then some defaultLabel else (s.cases.find? (·.2.isEmpty)).map (·.1)

theorem caseValue?_of_opensDefault (h : head? s.otherwise = some r) :
    s.caseValue? r = some defaultLabel :=
  if_pos (beq_iff_eq.mpr h)

theorem find?_of_head {cases : List (String × List Task)} {c : String × List Task}
    (hnodup : ((cases.map (·.2)).filterMap head?).Nodup) (hc : c ∈ cases)
    (hhead : head? c.2 = some r) : (cases.find? fun c => head? c.2 == some r) = some c := by
  induction cases with
  | nil => cases hc
  | cons first rest ih =>
    rw [List.map_cons] at hnodup
    rcases List.mem_cons.mp hc with rfl | hc
    · exact List.find?_cons_of_pos (beq_iff_eq.mpr hhead)
    · cases hfirst : head? first.2 with
      | none =>
        rw [List.filterMap_cons_none hfirst] at hnodup
        rw [List.find?_cons_of_neg (by simp [hfirst]), ih hnodup hc]
      | some r' =>
        rw [List.filterMap_cons_some hfirst, List.nodup_cons] at hnodup
        have hne : r' ≠ r := by
          rintro rfl
          exact hnodup.1 (List.mem_filterMap.mpr ⟨c.2, List.mem_map_of_mem hc, hhead⟩)
        rw [List.find?_cons_of_neg (by simp [hfirst, hne]), ih hnodup.2 hc]

/-- A head is that of one branch only, and so the edge to it belongs to the case of that branch. -/
theorem caseValue?_of_head (hnodup : s.openings.Nodup) {c : String × List Task} (hc : c ∈ s.cases)
    (hhead : head? c.2 = some r) : s.caseValue? r = some c.1 := by
  have hr : r ∈ (s.cases.map (·.2)).filterMap head? :=
    List.mem_filterMap.mpr ⟨c.2, List.mem_map_of_mem hc, hhead⟩
  have hdefault : s.opensDefault r = false := by
    rw [opensDefault, beq_eq_false_iff_ne]
    intro hopens
    rw [openings, sequences, List.filterMap_cons_some hopens, List.nodup_cons] at hnodup
    exact hnodup.1 hr
  have hcases : ((s.cases.map (·.2)).filterMap head?).Nodup :=
    hnodup.sublist ((List.sublist_cons_self _ _).filterMap _)
  rw [caseValue?, hdefault, caseOpenedBy?, find?_of_head hcases hc hhead]
  rfl

/-- What is no head is behind the first empty branch. -/
theorem caseValue?_of_past (h : r ∉ s.openings) : s.caseValue? r = s.emptyLabel? := by
  rw [mem_openings, not_or] at h
  obtain ⟨hdefault, hcase⟩ := h
  have hnone : s.caseOpenedBy? r = none := by
    rwa [Bool.not_eq_true, Option.isSome_eq_false_iff, Option.isNone_iff_eq_none] at hcase
  rw [caseValue?, if_neg hdefault, hnone]
  simp only [emptyLabel?, List.isEmpty_iff]

end Switch

namespace Graph

variable {settings : Settings} {history : History} {tasks : List Task} {g : Graph}

theorem isSome_caseValue {p : Placement} {x : Vertex} {source : String} {label : EdgeLabel}
    (h : p.edgeFrom history g source = .ok label) (hx : g.vertex? source = some x) :
    label.caseValue.isSome = x.task.kind.switch?.isSome := by
  unfold Placement.edgeFrom at h
  simp only [hx] at h
  cases hswitch : x.task.kind.switch? with
  | none =>
    simp only [hswitch, Outcome.pure_eq_ok] at h
    subst h
    rfl
  | some s =>
    cases hvalue : s.caseValue? p.task.reference with
    | none =>
      simp only [hswitch, hvalue] at h
      cases h
    | some value =>
      simp only [hswitch, hvalue, Outcome.pure_eq_ok] at h
      subst h
      rfl

/-- Only an edge out of a switch belongs to a case. -/
theorem Shows.isSome_caseValue_iff {ps : List Placement} (hshows : g.Shows history ps) {e : Edge}
    (he : e ∈ g.edges) : e.label.caseValue.isSome = true ↔
      ∃ v s, g.vertex? e.source = some v ∧ v.task.kind.switch? = some s := by
  obtain ⟨p, -, -, -, hlabel⟩ := hshows.labels e he
  obtain ⟨x, hx, -⟩ := edgeFrom_ok hlabel
  rw [isSome_caseValue hlabel hx, Option.isSome_iff_exists, hx]
  simp

/-- The label of an edge out of a switch that a walk comes to is looked up in that switch. -/
theorem label_of_switch (hg : ofTasks settings history tasks = .ok g)
    (hnodup : (Plan.ofTasks settings history tasks).references.Nodup) {t : Task}
    (ht : t ∈ visibleTasks history tasks) {form : SwitchForm} {s : Switch (List Task)}
    (hk : t.kind = .switch form s) {e : Edge} (he : e ∈ g.edges) (hsource : e.source = t.reference) :
    s.caseValue? e.target = e.label.caseValue ∧ ∃ v, g.vertex? e.target = some v ∧
      e.label.executed =
        ((history.latest? v.task.reportRef).isSome && s.taken history e.target) := by
  have hshows := ofTasks_shows hg hnodup
  obtain ⟨p, hp, -, htarget, hlabel⟩ := hshows.labels e he
  obtain ⟨x, hx, hrule⟩ := edgeFrom_ok hlabel
  -- the vertex at the source is the one of the switch
  obtain ⟨hmem, hname⟩ := vertex?_ok hx
  rw [hshows.vertices] at hmem
  obtain ⟨q, hq, rfl⟩ := List.mem_map.mp hmem
  have hself : q.task = t := Plan.task_of_visible (ofTasks_completes hg) hnodup ht
    (List.mem_filter.mp hq).1 (Eq.trans hname hsource)
  have hswitch : (q.toVertex history).task.kind.switch? = some s := by
    change q.task.kind.switch? = some s
    rw [hself, hk]
    rfl
  rcases hrule with ⟨hnone, -⟩ | ⟨s', hsome, hvalue, hexecuted⟩
  · rw [hswitch] at hnone
    cases hnone
  · rw [hswitch] at hsome
    obtain rfl := Option.some.inj hsome
    have htask := hshows.vertex?_eq (Plan.nodup_shown hnodup) hp
    rw [htarget]
    exact ⟨hvalue, _, htask, hexecuted⟩

/-- The label of the edge from `source` to `target`. -/
def caseValue? (g : Graph) (source target : String) : Option String :=
  (g.edge? source target).bind (·.caseValue)

theorem caseValue?_eq {a b : String} {value : Option String} (hjoins : g.Joins a b)
    (h : ∀ e ∈ g.edges, e.source = a → e.target = b → e.label.caseValue = value) :
    g.caseValue? a b = value := by
  rw [caseValue?, edge?]
  cases hfound : g.edges.find? (·.joins a b) with
  | none =>
    obtain ⟨e, he, hsource, htarget⟩ := hjoins
    exact absurd (Edge.joins_iff.mpr ⟨hsource, htarget⟩) (List.find?_eq_none.mp hfound e he)
  | some e =>
    have hends : e.joins a b = true := List.find?_some (p := fun e : Edge => e.joins a b) hfound
    obtain ⟨hsource, htarget⟩ := Edge.joins_iff.mp hends
    exact h e (List.mem_of_find?_eq_some hfound) hsource htarget

/-- The edges out of a switch under `reference`, which is followed by `next`, belong to the cases
that they open. At most one opens none: it leads on to `next`, which is no head, behind the first
empty branch. -/
structure Labels (g : Graph) (reference : String) (s : Switch (List Task)) (next : String) :
    Prop where
  default : ∀ head, Switch.head? s.otherwise = some head →
    g.caseValue? reference head = some defaultLabel
  case : ∀ c ∈ s.cases, ∀ head, Switch.head? c.2 = some head →
    g.caseValue? reference head = some c.1
  apart : next ∉ s.openings
  once : g.edges.countP (fun e => e.source = reference ∧ e.target ∉ s.openings) ≤ 1
  past : ∀ e ∈ g.edges, e.source = reference → e.target ∉ s.openings →
    e.target = next ∧ (s.otherwise = [] ∨ ∃ c ∈ s.cases, c.2 = []) ∧
      e.label.caseValue = s.emptyLabel?

/-- **Case labels.** The edges that belong to cases are those out of switches. The edge to the head
of a branch belongs to that branch, wherever the switch is, and whatever branches are empty. -/
theorem labels_of_visible {log : List Attempt} (hh : history.Reached log)
    (hg : ofTasks settings history tasks = .ok g)
    (hnodup : (Plan.ofTasks settings history tasks).references.Nodup) :
    (∀ e ∈ g.edges, e.label.caseValue.isSome = true ↔
      ∃ v s, g.vertex? e.source = some v ∧ v.task.kind.switch? = some s) ∧
    ∀ t ∈ visibleTasks history tasks, ∀ form s, t.kind = .switch form s →
      ∃ next, FollowedBy history tasks t next ∧
        g.Labels t.reference s (next.getD finalBubble) := by
  refine ⟨fun e => (ofTasks_shows hg hnodup).isSome_caseValue_iff, fun t ht form s hk => ?_⟩
  obtain ⟨next, hfollowed, hapart, hheads, hjoins⟩ :=
    exits hh.filed hg hnodup ht (Kind.branches_of_switch hk)
  have hsequences : t.kind.sequences = s.sequences := by rw [hk]; rfl
  rw [Kind.heads_of_switch hk] at hapart hheads
  simp only [Kind.heads_of_switch hk, hsequences] at hjoins
  have hvalue : ∀ e ∈ g.edges, e.source = t.reference →
      s.caseValue? e.target = e.label.caseValue := fun e he hsource =>
    (label_of_switch hg hnodup ht hk he hsource).1
  have hhead : ∀ q ∈ s.sequences, ∀ head, Switch.head? q = some head →
      g.caseValue? t.reference head = s.caseValue? head := by
    intro q hq head hhead
    refine caseValue?_eq ((hjoins head).mpr (Or.inl (List.mem_filterMap.mpr ⟨q, hq, hhead⟩))) ?_
    rintro e he hsource rfl
    exact (hvalue e he hsource).symm
  have hpast : ∀ e ∈ g.edges, e.source = t.reference → e.target ∉ s.openings →
      [] ∈ s.sequences ∧ e.target = next.getD finalBubble := fun e he hsource hopen =>
    ((hjoins e.target).mp ⟨e, he, hsource, rfl⟩).resolve_left hopen
  refine ⟨next, hfollowed, ?_, ?_, hapart, ?_, ?_⟩
  · intro head hopens
    rw [hhead _ List.mem_cons_self head hopens, Switch.caseValue?_of_opensDefault hopens]
  · intro c hc head hopens
    rw [hhead c.2 (List.mem_cons_of_mem _ (List.mem_map_of_mem hc)) head hopens,
      Switch.caseValue?_of_head hheads hc hopens]
  · refine countP_edges_le_one hg (t.reference, next.getD finalBubble) fun e he h => ?_
    obtain ⟨hsource, hopen⟩ := of_decide_eq_true h
    rw [Edge.ends, hsource, (hpast e he hsource hopen).2]
  · intro e he hsource hopen
    obtain ⟨hempty, htarget⟩ := hpast e he hsource hopen
    refine ⟨htarget, ?_, ?_⟩
    · rcases List.mem_cons.mp hempty with hempty | hempty
      · exact Or.inl hempty.symm
      · obtain ⟨c, hc, hempty⟩ := List.mem_map.mp hempty
        exact Or.inr ⟨c, hc, hempty⟩
    · rw [← hvalue e he hsource, Switch.caseValue?_of_past hopen]

end Graph

/-- A switch with an empty case, one case that forks, and a default. -/
theorem Graph.labels_of_visible_of_run :
    Graph.ofTasks .standard Sample.history Sample.tasks = .ok Sample.graph ∧
      ∃ t form s next, Sample.tasks.head? = some t ∧ t.kind = .switch form s ∧
        FollowedBy Sample.history Sample.tasks t next ∧
        Sample.graph.Labels "s" s (next.getD finalBubble) := by
  have hbind : History.ofAttempts .running Sample.attempts = .ok Sample.history :=
    Outcome.eq_ok_of_isOk (by decide +kernel) _
  have hg : Graph.ofTasks .standard Sample.history Sample.tasks = .ok Sample.graph :=
    Outcome.eq_ok_of_isOk (by decide +kernel) _
  obtain ⟨-, hlabels⟩ := Graph.labels_of_visible (.bound hbind) hg (by decide +kernel)
  obtain ⟨next, hfollowed, hswitch⟩ := hlabels _
    (List.mem_flatMap_of_mem List.mem_cons_self (Task.mem_visible_self _)) _ _ rfl
  exact ⟨hg, _, _, _, next, rfl, rfl, hfollowed, hswitch⟩

end Flowchart

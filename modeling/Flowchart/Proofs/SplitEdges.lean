import Flowchart.Proofs.Landings
import Flowchart.Proofs.Overlays
import Flowchart.Proofs.SplitPlans

/-!
# Insertions split edges

In a definition, what an insertion puts in as one vertex comes to stand on one edge: on the only one
out of the task that it is put in behind. Whatever that edge leads to, all other edges stay, and so
do the cases that they belong to.
-/

namespace Flowchart

namespace Plan

/-- An edge that the plan shows, with the case that it belongs to. -/
def ShowsEdge (p : Plan) (a b : String) (case? : Option String) : Prop :=
  ∃ s ∈ p.shown, ∃ q ∈ p.shown,
    s.reference = a ∧ a ∈ q.sources ∧ q.reference = b ∧ s.task.caseTowards? b = case?

/-- Whatever an edge comes from is shown. -/
def Closed (p : Plan) : Prop := ∀ q ∈ p.shown, ∀ u ∈ q.sources, ∃ s ∈ p.shown, s.reference = u

theorem mem_shown_of_sources {p : Plan} {q : Placement} {u : String} (hq : q ∈ p.placements)
    (hu : u ∈ q.sources) : q ∈ p.shown :=
  List.mem_filter.mpr ⟨hq, decide_eq_true (Or.inr (List.ne_nil_of_mem hu))⟩

theorem mem_references_of_shown {p : Plan} {q : Placement} (hq : q ∈ p.shown) :
    q.reference ∈ p.references := List.mem_map_of_mem (List.mem_filter.mp hq).1

namespace Splits

variable {e v a b : String} {x : Task} {p p' : Plan} {case? : Option String}

/-- The final bubble is left out of what is shown of both plans, or of neither. -/
theorem shown (h : p.Splits e x p') :
    (∀ q ∈ p.shown, ∃ q' ∈ p'.shown, q.Follows e x.reference q') ∧
      ∀ q' ∈ p'.shown, q'.task = x ∧ q'.sources = [e] ∨
        ∃ q ∈ p.shown, q.Follows e x.reference q' := by
  have hiff : ∀ {q q' : Placement}, q.Follows e x.reference q' →
      (q.reference ≠ finalBubble ∨ q.sources ≠ [] ↔
        q'.reference ≠ finalBubble ∨ q'.sources ≠ []) := by
    intro q q' hfollows
    simp only [ne_eq, hfollows.reference, hfollows.sources.eq_nil_iff]
  constructor
  · intro q hq
    obtain ⟨hq, hshown⟩ := List.mem_filter.mp hq
    obtain ⟨q', hq', hfollows⟩ := h.forth q hq
    refine ⟨q', List.mem_filter.mpr ⟨hq', decide_eq_true ?_⟩, hfollows⟩
    exact (hiff hfollows).mp (of_decide_eq_true hshown)
  · intro q' hq'
    obtain ⟨hq', hshown⟩ := List.mem_filter.mp hq'
    refine (h.back q' hq').imp_right fun ⟨q, hq, hfollows⟩ => ?_
    refine ⟨q, List.mem_filter.mpr ⟨hq, decide_eq_true ?_⟩, hfollows⟩
    exact (hiff hfollows).mpr (of_decide_eq_true hshown)

variable (h : p.Splits e x p') (hfresh : x.reference ∉ p.references)

include h hfresh

/-- What was drawn before stands for what was drawn before. -/
theorem exists_old {q' : Placement} (hq' : q' ∈ p'.shown) (hold : q'.reference ∈ p.references) :
    ∃ q ∈ p.shown, q.Follows e x.reference q' := by
  refine (h.shown.2 q' hq').resolve_left fun ⟨htask, _⟩ => ?_
  rw [Placement.reference, htask] at hold
  exact hfresh hold

theorem task_of_new {q' : Placement} (hq' : q' ∈ p'.shown) (hnew : q'.reference = x.reference) :
    q'.task = x := by
  rcases h.shown.2 q' hq' with ⟨htask, -⟩ | ⟨q, hq, hfollows⟩
  · exact htask
  · rw [← hnew, ← hfollows.reference] at hfresh
    exact absurd (mem_references_of_shown hq) hfresh

variable (hdrawn : x.reference ∈ p'.references)

include hdrawn

theorem exists_new : ∃ y ∈ p'.shown, y.task = x ∧ y.sources = [e] := by
  obtain ⟨y, hy, href⟩ := List.mem_map.mp hdrawn
  rcases h.back y hy with ⟨htask, hsources⟩ | ⟨q, hq, hfollows⟩
  · have hmem : e ∈ y.sources := hsources ▸ List.mem_singleton_self e
    exact ⟨y, mem_shown_of_sources hy hmem, htask, hsources⟩
  · rw [← href, ← hfollows.reference] at hfresh
    exact absurd (List.mem_map_of_mem hq) hfresh

/-- The new name is drawn, and no other. -/
theorem mem_shown_iff (r : String) : (∃ q' ∈ p'.shown, q'.reference = r) ↔
    r = x.reference ∨ ∃ q ∈ p.shown, q.reference = r := by
  constructor
  · rintro ⟨q', hq', rfl⟩
    rcases h.shown.2 q' hq' with ⟨htask, -⟩ | ⟨q, hq, hfollows⟩
    · exact Or.inl (congrArg Task.reference htask)
    · exact Or.inr ⟨q, hq, hfollows.reference⟩
  · rintro (rfl | ⟨q, hq, rfl⟩)
    · obtain ⟨y, hy, htask, -⟩ := h.exists_new hfresh hdrawn
      exact ⟨y, hy, congrArg Task.reference htask⟩
    · obtain ⟨q', hq', hfollows⟩ := h.shown.1 q hq
      exact ⟨q', hq', hfollows.reference.symm⟩

omit hdrawn

variable (hclosed : p.Closed) (hx : x.kind.switch? = none)
  (hplain : ∀ q ∈ p.shown, q.reference = e → q.task.kind.switch? = none)

include hclosed hx hplain

/-- An edge of the new plan was there before, or is one of the two at the new vertex. -/
theorem showsEdge_cases (he : e ∈ p.references) (hexit : ∀ w, p.Links e w → w = v)
    (hedge : p'.ShowsEdge a b case?) : p.ShowsEdge a b case? ∧ a ≠ e ∨
      (a = e ∧ b = x.reference ∨ a = x.reference ∧ b = v) ∧ case? = none := by
  have hnone : ∀ t : Task, t.kind.switch? = none → t.caseTowards? b = none := by
    intro t ht
    rw [Task.caseTowards?, ht]
    rfl
  obtain ⟨s', hs', q', hq', hsource, hmem, htarget, hcase⟩ := hedge
  rcases h.shown.2 q' hq' with ⟨htask, hsources⟩ | ⟨q, hq, hfollows⟩
  · -- the edge leads to the new vertex
    rw [hsources, List.mem_singleton] at hmem
    rw [hmem] at hsource
    obtain ⟨s, hs, hsame⟩ := h.exists_old hfresh hs' (hsource ▸ he)
    have hplainCase := hnone s.task (hplain s hs (hsame.reference.trans hsource))
    rw [← hcase, ← hsame.cases, ← htarget, ← htask]
    exact Or.inr ⟨Or.inl ⟨hmem, rfl⟩, htarget ▸ hplainCase⟩
  · obtain ⟨u, hu, heq⟩ := (hfollows.sources a).mp hmem
    by_cases hue : u = e
    · -- the edge comes from the new vertex
      rw [hue, detour_self] at heq
      have hv := hexit q.reference ⟨q, (List.mem_filter.mp hq).1, hue ▸ hu, rfl⟩
      have htask := h.task_of_new hfresh hs' (hsource.trans heq.symm)
      rw [← hcase, htask, ← htarget, ← hfollows.reference]
      refine Or.inr ⟨Or.inr ⟨heq.symm, hv⟩, ?_⟩
      rw [hfollows.reference, htarget]
      exact hnone x hx
    · rw [detour_of_ne hue] at heq
      obtain ⟨source, hshown, href⟩ := hclosed q hq u hu
      have hold : s'.reference ∈ p.references := by
        rw [hsource, ← heq, ← href]
        exact mem_references_of_shown hshown
      obtain ⟨s, hs, hsame⟩ := h.exists_old hfresh hs' hold
      refine Or.inl ⟨⟨s, hs, q, hq, hsame.reference.trans hsource, heq ▸ hu,
        hfollows.reference.trans htarget, (hsame.cases b).trans hcase⟩, heq ▸ hue⟩

omit hfresh hclosed hx hplain

/-- An edge that does not come from `e` stays. -/
theorem showsEdge_of_ne (hedge : p.ShowsEdge a b case?) (hne : a ≠ e) :
    p'.ShowsEdge a b case? := by
  obtain ⟨s, hs, q, hq, hsource, hmem, htarget, hcase⟩ := hedge
  obtain ⟨s', hs', hsame⟩ := h.shown.1 s hs
  obtain ⟨q', hq', hfollows⟩ := h.shown.1 q hq
  exact ⟨s', hs', q', hq', hsame.reference.symm.trans hsource,
    (hfollows.sources a).mpr ⟨a, hmem, detour_of_ne hne⟩, hfollows.reference.symm.trans htarget,
    (hsame.cases b).symm.trans hcase⟩

include hfresh hdrawn

/-- The two edges at the new vertex. -/
theorem showsEdge_new (hx : x.kind.switch? = none) {s q : Placement} (hs : s ∈ p.shown)
    (he : s.reference = e) (hplain : s.task.kind.switch? = none) (hq : q ∈ p.shown)
    (hmem : e ∈ q.sources) : p'.ShowsEdge e x.reference none ∧
      p'.ShowsEdge x.reference q.reference none := by
  obtain ⟨y, hy, rfl, hysources⟩ := h.exists_new hfresh hdrawn
  obtain ⟨s', hs', hsame⟩ := h.shown.1 s hs
  obtain ⟨q', hq', hfollows⟩ := h.shown.1 q hq
  constructor
  · refine ⟨s', hs', y, hy, hsame.reference.symm.trans he, ?_, rfl, ?_⟩
    · rw [hysources]
      exact List.mem_singleton_self e
    · rw [← hsame.cases, Task.caseTowards?, hplain]
      rfl
  · refine ⟨y, hy, q', hq', rfl, ?_, hfollows.reference.symm, ?_⟩
    · exact (hfollows.sources _).mpr ⟨e, hmem, detour_self e _⟩
    · rw [Task.caseTowards?, hx]
      rfl

end Splits

end Plan

theorem EdgeLabel.eq_iff {label label' : EdgeLabel} :
    label = label' ↔ label.executed = label'.executed ∧ label.caseValue = label'.caseValue := by
  cases label
  cases label'
  simp

namespace Graph

/-- The graph has an edge between two vertices, with this label. -/
def Carries (g : Graph) (a b : String) (label : EdgeLabel) : Prop :=
  ∃ edge ∈ g.edges, edge.source = a ∧ edge.target = b ∧ edge.label = label

/-- The vertex `n` has come onto the edge from `e` to `v`, which was the only one out of `e`. All
other edges are as they were, with their labels. -/
structure SplitsEdge (g g' : Graph) (e n v : String) : Prop where
  exit : ∃ edge, g.edges.filter (·.source = e) = [edge] ∧ edge.target = v
  fresh : n ∉ g.references
  references : ∀ r, r ∈ g'.references ↔ r = n ∨ r ∈ g.references
  edges : ∀ a b label, g'.Carries a b label ↔
    g.Carries a b label ∧ ¬ (a = e ∧ b = v) ∨
      (a = e ∧ b = n ∨ a = n ∧ b = v) ∧ label = ⟨false, none⟩

section

variable {g g' : Graph} {settings : Settings} {tasks tasks' : List Task} {e v a b : String}
  {label : EdgeLabel} {x : Task} (hg : ofTasks settings .empty tasks = .ok g)
  (hnodup : (Plan.ofTasks settings .empty tasks).references.Nodup)

include hg hnodup

theorem mem_references_iff_shown (r : String) : r ∈ g.references ↔
    ∃ q ∈ (Plan.ofTasks settings .empty tasks).shown, q.reference = r := by
  rw [(ofTasks_shows hg hnodup).references_eq, List.mem_map]

theorem closed_ofTasks : (Plan.ofTasks settings .empty tasks).Closed := by
  intro q hq u hu
  have hshows := ofTasks_shows hg hnodup
  obtain ⟨edge, hedge, rfl, -⟩ := hshows.joins q hq u hu
  exact (mem_references_iff_shown hg hnodup _).mp (hshows.edge_mem hedge).1

/-- The edges of a definition have not been executed, and are those that its plan shows. -/
theorem carries_iff : g.Carries a b label ↔ label.executed = false ∧
    (Plan.ofTasks settings .empty tasks).ShowsEdge a b label.caseValue := by
  have hshows := ofTasks_shows hg hnodup
  have huntried : ∀ t ∈ listing tasks, t.IsExpandable → History.empty.attempts t.reference = [] :=
    fun _ _ _ => rfl
  have hidle := ((ofTasks_outline huntried).2 g hg).2
  have hshown : ∀ edge ∈ g.edges, (Plan.ofTasks settings .empty tasks).ShowsEdge edge.source
      edge.target edge.label.caseValue := by
    intro edge hedge
    obtain ⟨q, hq, hsource, htarget, hlabel⟩ := hshows.labels edge hedge
    obtain ⟨x, hx, hcase⟩ := edgeFrom_ok hlabel
    obtain ⟨s, hs, href, rfl⟩ := hshows.mem_of_vertex? hx
    refine ⟨s, hs, q, hq, href, hsource, htarget.symm, ?_⟩
    rw [Task.caseTowards?, htarget]
    rcases hcase with ⟨hswitch, hcase, -⟩ | ⟨switch, hswitch, hcase, -⟩ <;>
      change s.task.kind.switch? = _ at hswitch <;> rw [hswitch]
    · exact hcase.symm
    · exact hcase
  constructor
  · rintro ⟨edge, hedge, rfl, rfl, rfl⟩
    exact ⟨hidle edge hedge, hshown edge hedge⟩
  · rintro ⟨hexecuted, s, hs, q, hq, rfl, hmem, rfl, hcase⟩
    obtain ⟨edge, hedge, hsource, htarget⟩ := hshows.joins q hq _ hmem
    obtain ⟨s', hs', -, -, href, -, -, hcase'⟩ := hshown edge hedge
    obtain rfl : s' = s :=
      List.inj_on_of_nodup_map (Plan.nodup_shown hnodup) hs' hs (href.trans hsource)
    refine ⟨edge, hedge, hsource, htarget, ?_⟩
    exact EdgeLabel.eq_iff.mpr
      ⟨(hidle edge hedge).trans hexecuted.symm, by rw [← hcase', htarget, hcase]⟩

/-- Where a plan leads on to `v` alone, there is one edge out of `e`. -/
theorem exists_exit (hexit : ∀ w, (Plan.ofTasks settings .empty tasks).Links e w ↔ w = v) :
    ∃ edge, g.edges.filter (·.source = e) = [edge] ∧ edge.target = v := by
  have hjoins : ∀ w, g.Joins e w ↔ w = v := by
    intro w
    rw [← (ofTasks_shows hg hnodup).mem_successors, mem_successors_iff hg hnodup, hexit]
  obtain ⟨edge, hedge, hsource, htarget⟩ := (hjoins v).mpr rfl
  have hmem : edge ∈ g.edges.filter (·.source = e) :=
    List.mem_filter.mpr ⟨hedge, decide_eq_true hsource⟩
  have hone : g.edges.countP (·.source = e) ≤ 1 :=
    countP_edges_le_one hg (e, v) fun edge' hedge' hsource' =>
      Prod.ext (of_decide_eq_true hsource')
        ((hjoins edge'.target).mp ⟨edge', hedge', of_decide_eq_true hsource', rfl⟩)
  rw [List.countP_eq_length_filter] at hone
  have hlength := Nat.le_antisymm hone (List.length_pos_of_mem hmem)
  obtain ⟨edge', hfilter⟩ := List.length_eq_one_iff.mp hlength
  rw [hfilter, List.mem_singleton] at hmem
  exact ⟨edge', hfilter, hmem ▸ htarget⟩

/-- Graphs that are drawn of such plans. -/
theorem splitsEdge_of_splits (hg' : ofTasks settings .empty tasks' = .ok g')
    (hnodup' : (Plan.ofTasks settings .empty tasks').references.Nodup)
    (h : (Plan.ofTasks settings .empty tasks).Splits e x (Plan.ofTasks settings .empty tasks'))
    (hx : x.kind.switch? = none)
    (hfresh : x.reference ∉ (Plan.ofTasks settings .empty tasks).references)
    (hdrawn : x.reference ∈ (Plan.ofTasks settings .empty tasks').references)
    (hplain : ∀ q ∈ (Plan.ofTasks settings .empty tasks).shown, q.reference = e →
      q.task.kind.switch? = none)
    (hexit : ∀ w, (Plan.ofTasks settings .empty tasks).Links e w ↔ w = v) :
    g.SplitsEdge g' e x.reference v := by
  have hclosed := closed_ofTasks hg hnodup
  obtain ⟨q, hq, hmem, rfl⟩ := (hexit v).mpr rfl
  have hshown := Plan.mem_shown_of_sources hq hmem
  obtain ⟨s, hs, hse⟩ := hclosed q hshown e hmem
  have he := hse ▸ Plan.mem_references_of_shown hs
  constructor
  · exact exists_exit hg hnodup hexit
  · rw [mem_references_iff_shown hg hnodup]
    rintro ⟨r, hr, href⟩
    exact hfresh (href ▸ Plan.mem_references_of_shown hr)
  · intro r
    rw [mem_references_iff_shown hg hnodup, mem_references_iff_shown hg' hnodup']
    exact h.mem_shown_iff hfresh hdrawn r
  · intro a b label
    rw [carries_iff hg hnodup, carries_iff hg' hnodup']
    obtain ⟨hto, hfrom⟩ := h.showsEdge_new hfresh hdrawn hx hs hse (hplain s hs hse) hshown hmem
    constructor
    · rintro ⟨hexecuted, hedge⟩
      rcases h.showsEdge_cases hfresh hclosed hx hplain he (fun w => (hexit w).mp) hedge with
        ⟨hedge, hne⟩ | ⟨hends, hcase⟩
      · exact Or.inl ⟨⟨hexecuted, hedge⟩, fun hends => hne hends.1⟩
      · exact Or.inr ⟨hends, EdgeLabel.eq_iff.mpr ⟨hexecuted, hcase⟩⟩
    · rintro (⟨⟨hexecuted, hedge⟩, hother⟩ | ⟨⟨rfl, rfl⟩ | ⟨rfl, rfl⟩, rfl⟩)
      · refine ⟨hexecuted, h.showsEdge_of_ne hedge fun hae => hother ⟨hae, ?_⟩⟩
        obtain ⟨-, -, r, hr, -, hmem', htarget, -⟩ := hedge
        exact (hexit b).mp ⟨r, (List.mem_filter.mp hr).1, hae ▸ hmem', htarget⟩
      · exact ⟨rfl, hto⟩
      · exact ⟨rfl, hfrom⟩

end

end Graph

/-- What is put in behind `r` comes after `e`, and after nothing else: after a task that holds no
others, the join of a fork, or the bar of a loop. -/
inductive ComesAfter (tasks : List Task) : String → String → Prop where
  | start : ComesAfter tasks startBubble startBubble
  | task {path : TreePath} {s : List Task} {t : Task} : path.get? tasks = some s → t ∈ s →
      t.kind.sequences = [] → t.kind ≠ .terminate → t.kind.isFork = false →
      ComesAfter tasks t.reference t.reference
  | join {path : TreePath} {before back : List Task} {fork join : Task} :
      path.get? tasks = some (before ++ fork :: join :: back) → fork.kind.isFork = true →
      join.kind.isJoin = true → ComesAfter tasks fork.reference join.reference
  | loop {path : TreePath} {s body : List Task} {t : Task} {condition : Option String} :
      path.get? tasks = some s → t ∈ s → t.kind = .loop condition body →
      ComesAfter tasks t.reference (loopEndRef t.reference)
  | bar {path : TreePath} {s body : List Task} {t : Task} {condition : Option String} :
      path.get? tasks = some s → t ∈ s → t.kind = .loop condition body →
      ComesAfter tasks (loopEndRef t.reference) (loopEndRef t.reference)

/-- The one vertex that an insertion comes after, if there is just one. -/
def insertionSource? : Option Task → Option String
  | none => some startBubble
  | some host => host.exit?

theorem Kind.isSingle_of_plain {k : Kind (List Task)} (hnone : k.sequences = [])
    (hfinal : k ≠ .terminate) (hfork : k.isFork = false) : k.isSingle = true := by
  cases k.form with
  | single hsingle => exact hsingle
  | final hk => exact absurd hk hfinal
  | branches hne =>
    rw [sequences_eq_branches hne, List.map_eq_nil_iff] at hnone
    exact absurd hnone hne
  | forked hk =>
    rw [hk] at hfork
    cases hfork
  | loop hk =>
    rw [hk] at hnone
    cases hnone

theorem ComesAfter.exists_lands {tasks : List Task} {r e : String} (h : ComesAfter tasks r e) :
    ∃ place host, Lands tasks r place host ∧ insertionSource? host = some e := by
  have hloop : ∀ {t : Task} {condition : Option String} {body : List Task},
      t.kind = .loop condition body → t.exit? = some (loopEndRef t.reference) := by
    intro t condition body hk
    rw [Task.exit?, Task.closing?, hk]
    rfl
  cases h with
  | start => exact ⟨_, none, .start, rfl⟩
  | @task path s t hs ht hnone hfinal hfork =>
    obtain ⟨before, back, rfl⟩ := List.append_of_mem ht
    refine ⟨_, some t, .own hs hfork, if_pos ?_⟩
    exact Kind.isSingle_of_plain hnone hfinal hfork
  | @join path before back fork join hs hfork hjoin =>
    refine ⟨_, some join, .join hs hfork hjoin, if_pos ?_⟩
    cases hk : join.kind with
    | join => rfl
    | _ =>
      rw [hk] at hjoin
      cases hjoin
  | @loop path s body t condition hs ht hk =>
    obtain ⟨before, back, rfl⟩ := List.append_of_mem ht
    refine ⟨_, some t, .own hs ?_, hloop hk⟩
    rw [hk]
    rfl
  | @bar path s body t condition hs ht hk =>
    obtain ⟨before, back, rfl⟩ := List.append_of_mem ht
    exact ⟨_, some t, .bar hs hk, hloop hk⟩

theorem Kind.sequences_of_isSingle {k : Kind (List Task)} (h : k.isSingle = true) :
    k.sequences = [] := by
  cases k with
  | fork branches => exact List.isEmpty_iff.mp h
  | switch | loop => cases h
  | _ => rfl

theorem drawnRefs_of_isSingle {settings : Settings} {t : Task} (h : t.kind.isSingle = true) :
    drawnRefs settings .empty [t] = [t.reference] := by
  obtain ⟨hloop, hfork⟩ := Kind.type_of_isSingle h
  have hnone : t.kind.sequences.flatten = [] := by
    rw [Kind.sequences_of_isSingle h, List.flatten_nil]
  rw [drawnRefs_cons, Task.drawnRefs_of_idle rfl hnone, Task.trailingRefs_of_type _ _ hloop hfork]
  rfl

theorem Task.mem_ownRefs_of_exit? {t : Task} {e : String} (he : t.exit? = some e) :
    e ∈ t.ownRefs := by
  rcases exit?_cases he with ⟨-, rfl⟩ | ⟨condition, body, hk, rfl⟩
  · exact List.mem_cons_self
  · refine List.mem_map_of_mem (a := t.loopEnd) (List.mem_cons_of_mem t ?_)
    rw [attendants_of_loop hk]
    exact List.mem_singleton_self _

namespace Lands

variable {settings : Settings} {tasks : List Task} {r e : String} {place : Place}
  {host : Option Task} {x : Task}

/-- Where nothing is drawn twice, an insertion that comes after one vertex splits the plan there. -/
theorem splits (h : Lands tasks r place host) (he : insertionSource? host = some e)
    (hnodup : (Plan.ofTasks settings .empty tasks).references.Nodup)
    (hx : x.kind.isSingle = true) : (Plan.ofTasks settings .empty tasks).Splits e x
      (Plan.ofTasks settings .empty (insertAfter host x tasks)) := by
  obtain ⟨-, hown, -⟩ := List.nodup_append.mp (Plan.nodup_ownRefs hnodup)
  cases host with
  | none =>
    obtain rfl := Option.some.inj he
    exact Plan.ofTasks_splits_start hx fun u hu =>
      Plan.bubble_not_mem_ownRefs hnodup List.mem_cons_self hu
  | some t =>
    have ht := mem_listing_of_visible h.mem_visible
    have hmem := Task.mem_ownRefs_of_exit? he
    refine Plan.ofTasks_splits hx (fun u hu => ⟨fun heq => ?_, fun hne v hv heq => ?_⟩) ?_ ?_
    · have hname : t.reference ∈ u.ownRefs := List.mem_cons.mpr (Or.inl heq.symm)
      rw [eq_of_mem_flatMap hown hu ht hname List.mem_cons_self]
      exact he
    · have hname : e ∈ u.ownRefs := heq ▸ List.mem_map_of_mem hv
      exact hne (congrArg Task.reference (eq_of_mem_flatMap hown hu ht hname hmem))
    · rintro rfl
      exact Plan.bubble_not_mem_ownRefs hnodup List.mem_cons_self ht hmem
    · rintro rfl
      exact Plan.bubble_not_mem_ownRefs hnodup (List.mem_cons_of_mem _ List.mem_cons_self) ht hmem

/-- That vertex is left towards one vertex alone. -/
theorem exists_exit (h : Lands tasks r place host) (he : insertionSource? host = some e)
    (hnodup : (Plan.ofTasks settings .empty tasks).references.Nodup) :
    ∃ v, ∀ w, (Plan.ofTasks settings .empty tasks).Links e w ↔ w = v := by
  have hclean := Plan.ofTasks_clean (Plan.ofTasks_draws_walk settings tasks).completes hnodup
  have hexits : ∃ v, (Plan.ofTasks settings .empty tasks).Exits e [] True (some v) := by
    cases host with
    | none =>
      obtain rfl := Option.some.inj he
      exact ⟨_, Plan.ofTasks_exits_start History.Filed.empty hclean⟩
    | some t =>
      obtain ⟨next, hfollowed⟩ := exists_followedBy h.mem_visible
      exact ⟨_, Plan.ofTasks_exits History.Filed.empty hclean hfollowed fun _ _ _ =>
        Task.plan_exits_of_exit? History.Filed.empty he (Task.isRunLoop_of_idle rfl)⟩
  obtain ⟨v, hexits⟩ := hexits
  refine ⟨v, fun w => ?_⟩
  rw [hexits.links, Option.some.injEq, eq_comm]
  simp

/-- That vertex is no switch. -/
theorem switch?_of_source (h : Lands tasks r place host) (he : insertionSource? host = some e)
    (hnodup : (Plan.ofTasks settings .empty tasks).references.Nodup) {q : Placement}
    (hq : q ∈ (Plan.ofTasks settings .empty tasks).placements) (href : q.reference = e) :
    q.task.kind.switch? = none := by
  have hcompletes := (Plan.ofTasks_draws_walk settings tasks).completes
  obtain ⟨p, hp, hname, hplain⟩ : ∃ p ∈ (Plan.ofTasks settings .empty tasks).placements,
      p.reference = e ∧ p.task.kind.switch? = none := by
    cases host with
    | none =>
      obtain rfl := Option.some.inj he
      exact ⟨_, List.mem_cons_self, rfl, rfl⟩
    | some t =>
      obtain ⟨path, position, sources, hplan, hmem⟩ := Plan.ofTasks_visible hcompletes h.mem_visible
      rcases Task.exit?_cases he with ⟨hsingle, rfl⟩ | ⟨condition, body, hk, rfl⟩
      · exact ⟨_, hmem _ (t.plan_self hplan), rfl, Kind.switch?_of_isSingle hsingle⟩
      · obtain ⟨sources', hbar⟩ := Task.plan_bar hk (Task.isRunLoop_of_idle rfl) hplan
        exact ⟨_, hmem _ hbar, rfl, rfl⟩
  rw [List.inj_on_of_nodup_map hnodup hq hp (href.trans hname.symm)]
  exact hplain

end Lands

namespace TaskType

/-- The types of tasks that do one thing and that something comes after. -/
def isElementary : TaskType → Bool
  | simple | http | inline | wait | join | exclusiveJoin | subWorkflow | event | setVariable
  | jsonJqTransform | human => true
  | _ => false

end TaskType

theorem Task.template_of_elementary {type : TaskType} (h : type.isElementary = true)
    (reference : String) : ∃ x, template type reference = .ok [x] ∧ x.reference = reference ∧
      x.kind.isSingle = true := by
  cases type <;> first | exact ⟨_, rfl, rfl, rfl⟩ | cases h

namespace Diagram

variable {d : Diagram} {r e : String} {type : TaskType}

/-- **Insertions split edges.** In a definition in which nothing is drawn twice, the vertex that an
elementary task is put in behind has one edge out of it. After the insertion that edge leads to the
new task, and a plain edge leads on from there to where it led. All else in the graph stays. -/
theorem Reachable.insert_splitsEdge (hd : d.Reachable) (hdefinition : d.execution = none)
    (hends : Throughout (·.type ≠ .doWhileEnd) d.tasks) (hnodup : d.plan.references.Nodup)
    (htype : type.isElementary = true) (hafter : ComesAfter d.tasks r e) :
    ∃ v after, d.edit (.insert r type) = .ok after ∧
      d.graph.SplitsEdge after.graph e (d.freshRef type.stem) v := by
  obtain ⟨place, host, hlands, hsource⟩ := hafter.exists_lands
  obtain ⟨x, hinserted, hname, hx⟩ := Task.template_of_elementary htype (d.freshRef type.stem)
  have hinserted : d.freshTasks type = .ok [x] := hinserted
  have hinsert := hd.insert_of_lands hdefinition hends hnodup hlands hinserted
  have hfresh := hd.freshRef_not_mem_plan hinserted
  have htree := hd.nodup_treeRefs hdefinition hnodup
  have hgraph := hd.graph_eq
  have hempty := hd.history_eq_empty hdefinition
  rw [plan, hempty] at hnodup hfresh
  rw [hempty] at hgraph
  rw [← hname] at hfresh ⊢
  have hswaps := hlands.references_swaps (x := x) htree d.settings
  rw [drawnRefs_of_isSingle hx] at hswaps
  have hnodup' :
      (Plan.ofTasks d.settings .empty (insertAfter host x d.tasks)).references.Nodup := by
    refine (hswaps.nodup_iff hnodup (List.nodup_singleton _)).mpr fun n hn hmem => ?_
    rw [List.mem_singleton.mp hn] at hmem
    exact absurd hmem hfresh
  have hdrawn : x.reference ∈
      (Plan.ofTasks d.settings .empty (insertAfter host x d.tasks)).references := by
    obtain ⟨before, behind, -, heq⟩ := hswaps
    rw [heq]
    exact List.mem_append_left _ (List.mem_append_right _ (List.mem_singleton_self _))
  obtain ⟨after, hedit, hredraw⟩ := hinsert (hempty ▸ hnodup')
  obtain ⟨graph, hgraph', rfl⟩ := draw_ok hredraw
  obtain ⟨v, hexit⟩ := hlands.exists_exit hsource hnodup
  rw [hempty] at hgraph'
  exact ⟨v, _, hedit, Graph.splitsEdge_of_splits hgraph hnodup hgraph' hnodup'
    (hlands.splits hsource hnodup hx) (Kind.switch?_of_isSingle hx) hfresh hdrawn
    (fun q hq href => hlands.switch?_of_source hsource hnodup (List.mem_filter.mp hq).1 href) hexit⟩

end Diagram

def Sample.splitDiagram : Diagram :=
  (nestedCasesDiagram.edit (.insert "a" .http)).toOption.getD nestedCasesDiagram

/-- The last task of a case leads to the join of the fork that the switch is in. -/
theorem Diagram.Reachable.insert_splitsEdge_of_case :
    ComesAfter Sample.nestedCasesDiagram.tasks "a" "a" ∧
      Sample.nestedCasesDiagram.edit (.insert "a" .http) = .ok Sample.splitDiagram ∧
      Sample.nestedCasesDiagram.graph.SplitsEdge Sample.splitDiagram.graph "a" "http_0" "j" := by
  have hd : Diagram.ofDefinition Sample.nestedCases .standard = .ok Sample.nestedCasesDiagram :=
    Outcome.eq_ok_of_isOk (by decide +kernel) _
  have htasks : Sample.nestedCasesDiagram.tasks = Sample.nestedCases.tasks := by decide +kernel
  have hafter : ComesAfter Sample.nestedCasesDiagram.tasks "a" "a" := by
    have hpath : TreePath.get? ⟨[⟨0, .fork 0⟩, ⟨0, .case "case_1"⟩]⟩ Sample.nestedCases.tasks =
        some [.ofRef "a" (.worker .simple)] := rfl
    rw [htasks]
    exact ComesAfter.task hpath List.mem_cons_self rfl nofun rfl
  have helementary : TaskType.isElementary .http = true := rfl
  have hedit : Sample.nestedCasesDiagram.edit (.insert "a" .http) = .ok Sample.splitDiagram :=
    Outcome.eq_ok_of_isOk (by decide +kernel) _
  have hname : Sample.nestedCasesDiagram.freshRef TaskType.http.stem = "http_0" := by
    decide +kernel
  have htarget : (Sample.nestedCasesDiagram.graph.edges.filter (·.source = "a")).map
      Edge.target = ["j"] := by
    decide +kernel
  obtain ⟨v, after, hsame, hsplits⟩ := Diagram.Reachable.insert_splitsEdge (.ofDefinition hd) rfl
    (by decide +kernel) (by decide +kernel) helementary hafter
  obtain rfl := Except.ok.inj (hedit.symm.trans hsame)
  obtain ⟨edge, hfilter, rfl⟩ := hsplits.exit
  rw [hfilter] at htarget
  rw [hname, (List.cons.inj htarget).1] at hsplits
  exact ⟨hafter, hedit, hsplits⟩

end Flowchart

import Flowchart.Proofs.ContractedForks

/-!
# The collapse limit contracts children

A lower limit leaves a diagram as it was, but for the dynamic forks that have too many children now.
The children of such a fork are contracted to one vertex. Where there was an edge to or from some of
them, there is one edge to or from this vertex.
-/

namespace Flowchart

section

variable {history : History} {low high : Settings} {tasks : List Task} {f : Task} {c : String}

theorem exists_child (hfiled : history.Filed)
    (hcompletes : (Plan.ofTasks high history tasks).Completes)
    (hf : f ∈ contracted history low high tasks) (hc : c ∈ history.spawnedBy f.reference) :
    ∃ q ∈ (Plan.ofTasks high history tasks).shown, q.reference = c ∧
      q.SpawnedBy f.reference := by
  obtain ⟨hvisible, htype, -, hfew⟩ := mem_contracted.mp hf
  obtain ⟨q, hq, hreference, hspawned⟩ :=
    exists_spawned hfiled hcompletes hvisible htype hfew hc
  refine ⟨q, List.mem_filter.mpr ⟨hq, decide_eq_true (Or.inr ?_)⟩, hreference, hspawned⟩
  rw [hspawned.sources]
  exact List.cons_ne_nil _ _

theorem exists_stack (hcompletes' : (Plan.ofTasks low history tasks).Completes)
    (hf : f ∈ contracted history low high tasks) :
    ∃ q ∈ (Plan.ofTasks low history tasks).shown, q.IsStackOf f := by
  obtain ⟨hvisible, hcontracted⟩ := mem_contracted.mp hf
  have hclosed := ((Task.isContracted_iff hcontracted.1).mp hcontracted).2
  obtain ⟨path, aggregate, -, hq⟩ :=
    Plan.exists_forkedStack hcompletes' hvisible hcontracted.1 hclosed
  exact ⟨_, hq, rfl, Option.some_ne_none _⟩

section

variable {ps ps' : List Placement} (hnodup' : (ps'.map Placement.reference).Nodup)
  (hforth : ∀ q ∈ ps, ∃ q' ∈ ps', q.Matches (standIn history low high tasks)
    (Placement.Contracts history low high tasks) q')
  (hstacks : ∀ f ∈ contracted history low high tasks, ∃ q ∈ ps', q.IsStackOf f)

include hforth

/-- Whatever is no child is drawn under both limits. -/
theorem exists_kept {q : Placement} (hq : q ∈ ps)
    (hkept : ¬ IsMerged history low high tasks q.reference) :
    ∃ sources, { q with sources := sources } ∈ ps' ∧
      ∀ f ∈ contracted history low high tasks, ¬ q.IsStackOf f := by
  obtain ⟨q', hq', hmatches⟩ := hforth q hq
  obtain ⟨heq, hstack⟩ := hmatches.kept.resolve_left hkept
  exact ⟨q'.sources, heq ▸ hq', hstack⟩

include hnodup' hstacks

/-- The vertex for the children of a contracted fork is new. -/
theorem ne_stack {q : Placement} (hq : q ∈ ps)
    (hkept : ¬ IsMerged history low high tasks q.reference)
    (hf : f ∈ contracted history low high tasks) :
    q.reference ≠ dynamicForkChildrenRef f.reference := by
  intro heq
  obtain ⟨sources, hq', hnone⟩ := exists_kept hforth hq hkept
  obtain ⟨p, hp, hstack⟩ := hstacks f hf
  have hsame : p = { q with sources := sources } :=
    List.inj_on_of_nodup_map hnodup' hp hq' (hstack.reference_eq.trans heq.symm)
  rw [hsame] at hstack
  exact hnone f hf ⟨hstack.task, hstack.aggregate⟩

end

end

namespace Graph

/-- How a diagram under the lower limit follows from the one under the higher limit: the children of
each contracted fork are replaced by one vertex. -/
structure Contraction (history : History) (low high : Settings) (tasks : List Task) (g g' : Graph) :
    Prop where
  references : ∀ r, r ∈ g'.references ↔
    r ∈ g.references ∧ ¬ IsMerged history low high tasks r ∨
      ∃ f ∈ contracted history low high tasks, r = dynamicForkChildrenRef f.reference
  /-- The one vertex is new, and nothing is drawn twice. -/
  fresh : ∀ f ∈ contracted history low high tasks,
    dynamicForkChildrenRef f.reference ∈ g.references →
      IsMerged history low high tasks (dynamicForkChildrenRef f.reference)
  vertices_once : g'.references.Nodup
  edges_once : (g'.edges.map Edge.ends).Nodup
  /-- A contracted fork has children, and they come after it alone. -/
  children : ∀ f ∈ contracted history low high tasks,
    f.reference ∈ g.references ∧ ¬ IsMerged history low high tasks f.reference ∧
      history.spawnedBy f.reference ≠ [] ∧ ∀ c ∈ history.spawnedBy f.reference,
        c ∈ g.references ∧ ∀ u, g.Joins u c ↔ u = f.reference
  /-- The fork's edges to its children become one edge. -/
  enters : ∀ f ∈ contracted history low high tasks, ∀ u,
    g'.Joins u (dynamicForkChildrenRef f.reference) ↔ u = f.reference
  /-- So do the edges from its children to any one vertex. -/
  leaves : ∀ f ∈ contracted history low high tasks, ∀ v,
    g'.Joins (dynamicForkChildrenRef f.reference) v ↔
      ∃ c ∈ history.spawnedBy f.reference, g.Joins c v
  /-- All other vertices and edges are left as they are. -/
  vertex : ∀ r ∈ g.references, ¬ IsMerged history low high tasks r → g'.vertex? r = g.vertex? r
  edge : ∀ u ∈ g.references, ∀ v ∈ g.references, ¬ IsMerged history low high tasks u →
    ¬ IsMerged history low high tasks v → g'.edge? u v = g.edge? u v
  final : finalBubble ∈ g'.references ↔ finalBubble ∈ g.references

/-- Edges between the same vertices are looked up alike if they have the same label. -/
theorem edge?_congr {g g' : Graph} {u v : String} (hjoins : g'.Joins u v ↔ g.Joins u v)
    (hlabel : ∀ e ∈ g.edges, ∀ e' ∈ g'.edges, e.ends = (u, v) → e'.ends = (u, v) →
      e.label = e'.label) : g'.edge? u v = g.edge? u v := by
  have hfound : ∀ {g : Graph} {e : Edge}, g.edges.find? (·.joins u v) = some e →
      e ∈ g.edges ∧ e.ends = (u, v) := by
    intro g e h
    have hjoined := List.find?_some h
    exact ⟨List.mem_of_find?_eq_some h, Prod.ext_iff.mpr (Edge.joins_iff.mp hjoined)⟩
  have hnone : ∀ {g : Graph}, g.edges.find? (·.joins u v) = none → ¬ g.Joins u v := by
    rintro g h ⟨e, he, hends⟩
    exact List.find?_eq_none.mp h e he (Edge.joins_iff.mpr hends)
  have hjoined : ∀ {g : Graph} {e : Edge}, g.edges.find? (·.joins u v) = some e →
      g.Joins u v := fun h => ⟨_, (hfound h).1, Prod.ext_iff.mp (hfound h).2⟩
  unfold edge?
  cases h : g.edges.find? (·.joins u v) <;> cases h' : g'.edges.find? (·.joins u v)
  · rfl
  · exact absurd (hjoins.mp (hjoined h')) (hnone h)
  · exact absurd (hjoins.mpr (hjoined h)) (hnone h')
  · exact congrArg some
      (hlabel _ (hfound h).1 _ (hfound h').1 (hfound h).2 (hfound h').2).symm

section

variable {history : History} {low high : Settings} {tasks : List Task} {g g' : Graph} {f : Task}
  {c r u v : String}

/-- One diagram is another one with each vertex replaced by the one that stands for it. -/
structure Quotient (history : History) (low high : Settings) (tasks : List Task) (g g' : Graph) :
    Prop where
  references : ∀ r', r' ∈ g'.references ↔ ∃ r ∈ g.references,
    standIn history low high tasks r = r'
  joins : ∀ u' v', g'.Joins u' v' ↔ ∃ u v, g.Joins u v ∧
    standIn history low high tasks u = u' ∧ standIn history low high tasks v = v'
  ends : ∀ u v, g.Joins u v → u ∈ g.references ∧ v ∈ g.references
  fresh : ∀ f ∈ contracted history low high tasks,
    dynamicForkChildrenRef f.reference ∈ g.references →
      IsMerged history low high tasks (dynamicForkChildrenRef f.reference)
  fork : ∀ f ∈ contracted history low high tasks, ¬ IsMerged history low high tasks f.reference
  child : ∀ f ∈ contracted history low high tasks, ∀ c ∈ history.spawnedBy f.reference,
    standIn history low high tasks c = dynamicForkChildrenRef f.reference ∧
      ∀ u, g.Joins u c ↔ u = f.reference

/-- Only its children become the vertex for the children of a fork. -/
theorem Quotient.mem_spawnedBy (h : Quotient history low high tasks g g')
    (hf : f ∈ contracted history low high tasks) (hr : r ∈ g.references)
    (heq : standIn history low high tasks r = dynamicForkChildrenRef f.reference) :
    r ∈ history.spawnedBy f.reference := by
  by_cases hmerged : IsMerged history low high tasks r
  · obtain ⟨f', -, hr', heq'⟩ := exists_standIn hmerged
    rwa [← dynamicForkChildrenRef_injective (heq'.symm.trans heq)]
  · rw [standIn_eq_self hmerged] at heq
    rw [heq] at hr hmerged
    exact absurd (h.fresh f hf hr) hmerged

/-- Nothing but its fork leads to a child. -/
theorem Quotient.not_isMerged_of_joins (h : Quotient history low high tasks g g')
    (hmerged : IsMerged history low high tasks u) (hjoins : g.Joins u v) :
    ¬ IsMerged history low high tasks v := by
  rintro ⟨f, hf, hv⟩
  rw [((h.child f hf v hv).2 u).mp hjoins] at hmerged
  exact h.fork f hf hmerged

theorem Quotient.references_iff (h : Quotient history low high tasks g g') (r : String) :
    r ∈ g'.references ↔ r ∈ g.references ∧ ¬ IsMerged history low high tasks r ∨
      ∃ f ∈ contracted history low high tasks, r = dynamicForkChildrenRef f.reference := by
  rw [h.references]
  constructor
  · rintro ⟨q, hq, rfl⟩
    by_cases hmerged : IsMerged history low high tasks q
    · obtain ⟨f, hf, -, heq⟩ := exists_standIn hmerged
      exact Or.inr ⟨f, hf, heq⟩
    · rw [standIn_eq_self hmerged]
      exact Or.inl ⟨hq, hmerged⟩
  · rintro (⟨hr, hkept⟩ | ⟨f, hf, rfl⟩)
    · exact ⟨r, hr, standIn_eq_self hkept⟩
    · obtain ⟨c, hc⟩ := List.exists_mem_of_ne_nil _ (mem_contracted.mp hf).2.spawnedBy_ne_nil
      obtain ⟨hstand, hjoins⟩ := h.child f hf c hc
      exact ⟨c, (h.ends _ _ ((hjoins _).mpr rfl)).2, hstand⟩

theorem Quotient.enters (h : Quotient history low high tasks g g')
    (hf : f ∈ contracted history low high tasks) (u : String) :
    g'.Joins u (dynamicForkChildrenRef f.reference) ↔ u = f.reference := by
  rw [h.joins]
  constructor
  · rintro ⟨a, b, hab, rfl, hb⟩
    have hchild := h.mem_spawnedBy hf (h.ends a b hab).2 hb
    rw [((h.child f hf b hchild).2 a).mp hab]
    exact standIn_eq_self (h.fork f hf)
  · rintro rfl
    obtain ⟨c, hc⟩ := List.exists_mem_of_ne_nil _ (mem_contracted.mp hf).2.spawnedBy_ne_nil
    obtain ⟨hstand, hjoins⟩ := h.child f hf c hc
    exact ⟨f.reference, c, (hjoins _).mpr rfl, standIn_eq_self (h.fork f hf), hstand⟩

theorem Quotient.leaves (h : Quotient history low high tasks g g')
    (hf : f ∈ contracted history low high tasks) (v : String) :
    g'.Joins (dynamicForkChildrenRef f.reference) v ↔
      ∃ c ∈ history.spawnedBy f.reference, g.Joins c v := by
  rw [h.joins]
  constructor
  · rintro ⟨a, b, hab, ha, rfl⟩
    have hchild := h.mem_spawnedBy hf (h.ends a b hab).1 ha
    rw [standIn_eq_self (h.not_isMerged_of_joins ⟨f, hf, hchild⟩ hab)]
    exact ⟨a, hchild, hab⟩
  · rintro ⟨c, hc, hcv⟩
    exact ⟨c, v, hcv, (h.child f hf c hc).1,
      standIn_eq_self (h.not_isMerged_of_joins ⟨f, hf, hc⟩ hcv)⟩

/-- Edges between vertices that are left as they are neither come nor go. -/
theorem Quotient.joins_kept (h : Quotient history low high tasks g g') (hu : u ∈ g.references)
    (hv : v ∈ g.references) (hkept : ¬ IsMerged history low high tasks u)
    (hkept' : ¬ IsMerged history low high tasks v) : g'.Joins u v ↔ g.Joins u v := by
  have hsame : ∀ {r q : String}, r ∈ g.references → ¬ IsMerged history low high tasks r →
      q ∈ g.references → standIn history low high tasks q = r → q = r := by
    intro r q hr hkept hq heq
    by_cases hmerged : IsMerged history low high tasks q
    · obtain ⟨f, hf, -, hstand⟩ := exists_standIn hmerged
      rw [← heq, hstand] at hr hkept
      exact absurd (h.fresh f hf hr) hkept
    · rwa [standIn_eq_self hmerged] at heq
  rw [h.joins]
  constructor
  · rintro ⟨a, b, hab, ha, hb⟩
    obtain ⟨hamem, hbmem⟩ := h.ends a b hab
    rwa [hsame hu hkept hamem ha, hsame hv hkept' hbmem hb] at hab
  · exact fun huv => ⟨u, v, huv, standIn_eq_self hkept, standIn_eq_self hkept'⟩

theorem quotient_of_limits (hh : history.Bound) (hle : low.collapseLimit ≤ high.collapseLimit)
    (hg : ofTasks high history tasks = .ok g) (hg' : ofTasks low history tasks = .ok g')
    (hnodup : (Plan.ofTasks high history tasks).references.Nodup)
    (hnodup' : (Plan.ofTasks low history tasks).references.Nodup) :
    Quotient history low high tasks g g' := by
  have hfiled := hh.filed
  have hcompletes := ofTasks_completes hg
  have hcompletes' := ofTasks_completes hg'
  have hmirrors := Plan.ofTasks_contracts hfiled hcompletes hnodup hle hcompletes'
  have hfinal : ∀ r, standIn history low high tasks r = finalBubble ↔ r = finalBubble := fun r =>
    standIn_eq_finalBubble_iff (not_isMerged_bubble hfiled hcompletes hnodup).2
  have hshows := ofTasks_shows hg hnodup
  have hshows' := ofTasks_shows hg' hnodup'
  refine ⟨hshows.mem_references_iff hshows' hmirrors hfinal,
    hshows.joins_iff_exists hshows' hmirrors hfinal, ?_, fun f hf hr => ?_, fun f hf => ?_,
    fun f hf c hc => ⟨standIn_of_mem hfiled hcompletes hnodup hf hc, fun u => ?_⟩⟩
  · rintro u v ⟨e, he, rfl, rfl⟩
    exact hshows.edge_mem he
  · by_contra hkept
    rw [hshows.references_eq] at hr
    obtain ⟨q, hq, heq⟩ := List.mem_map.mp hr
    rw [← heq] at hkept
    exact ne_stack (Plan.nodup_shown hnodup') (hmirrors.shown hfinal).1
      (fun f hf => exists_stack hcompletes' hf) hq hkept hf heq
  · exact (not_isMerged_of_visible hfiled hcompletes hnodup (mem_contracted.mp hf).1).1
  · obtain ⟨q, hq, hreference, hspawned⟩ := exists_child hfiled hcompletes hf hc
    rw [hshows.joins_iff]
    constructor
    · rintro ⟨p, hp, hu, heq⟩
      obtain rfl := List.inj_on_of_nodup_map (Plan.nodup_shown hnodup) hp hq
        (heq.trans hreference.symm)
      rw [hspawned.sources] at hu
      exact List.mem_singleton.mp hu
    · rintro rfl
      refine ⟨q, hq, ?_, hreference⟩
      rw [hspawned.sources]
      exact List.mem_singleton_self _

section

variable (hshows : g.Shows history (Plan.ofTasks high history tasks).shown)
  (hshows' : g'.Shows history (Plan.ofTasks low history tasks).shown)
  (hnodup' : (Plan.ofTasks low history tasks).references.Nodup)
  (hforth : ∀ q ∈ (Plan.ofTasks high history tasks).shown,
    ∃ q' ∈ (Plan.ofTasks low history tasks).shown, q.Matches (standIn history low high tasks)
      (Placement.Contracts history low high tasks) q')

include hshows hshows' hnodup' hforth

theorem vertex?_kept (hnodup : (Plan.ofTasks high history tasks).references.Nodup)
    (hr : r ∈ g.references) (hkept : ¬ IsMerged history low high tasks r) :
    g'.vertex? r = g.vertex? r := by
  rw [hshows.references_eq] at hr
  obtain ⟨q, hq, rfl⟩ := List.mem_map.mp hr
  obtain ⟨sources, hq', -⟩ := exists_kept hforth hq hkept
  have hdrawn := hshows'.vertex?_eq (Plan.nodup_shown hnodup') hq'
  exact hdrawn.trans (hshows.vertex?_eq (Plan.nodup_shown hnodup) hq).symm

theorem label_kept {e e' : Edge} (he : e ∈ g.edges) (he' : e' ∈ g'.edges)
    (hends : e.ends = (u, v)) (hends' : e'.ends = (u, v))
    (hkept : ¬ IsMerged history low high tasks u) (hkept' : ¬ IsMerged history low high tasks v) :
    e.label = e'.label := by
  obtain ⟨rfl, rfl⟩ := Prod.ext_iff.mp hends
  refine hshows.label_eq hshows' he he' (hends.trans hends'.symm) (fun q hq q' hq' heq hend => ?_)
    fun _ => rfl
  have hreference : ¬ IsMerged history low high tasks q.reference := by
    rcases hend with hend | hend <;> rwa [hend]
  obtain ⟨sources, hmem, -⟩ := exists_kept hforth hq hreference
  obtain rfl := List.inj_on_of_nodup_map (Plan.nodup_shown hnodup') hmem hq' heq
  exact ⟨rfl, rfl⟩

end

/-- **The collapse limit contracts children.** Of two diagrams of one run, drawn under two limits
and without drawing a reference twice, the one under the lower limit is the other one with the
children of some forks replaced by one vertex for each fork. These forks are the dynamic ones that
a walk comes to and that have too many children for the lower limit but not for the higher one. -/
theorem contraction (hh : history.Bound) (hle : low.collapseLimit ≤ high.collapseLimit)
    (hg : ofTasks high history tasks = .ok g) (hg' : ofTasks low history tasks = .ok g')
    (hnodup : (Plan.ofTasks high history tasks).references.Nodup)
    (hnodup' : (Plan.ofTasks low history tasks).references.Nodup) :
    Contraction history low high tasks g g' := by
  have hquotient := quotient_of_limits hh hle hg hg' hnodup hnodup'
  have hfiled := hh.filed
  have hcompletes := ofTasks_completes hg
  have hmirrors := Plan.ofTasks_contracts hfiled hcompletes hnodup hle (ofTasks_completes hg')
  have hbubbles : ¬ IsMerged history low high tasks startBubble ∧
      ¬ IsMerged history low high tasks finalBubble :=
    not_isMerged_bubble hfiled hcompletes hnodup
  obtain ⟨hforth, -⟩ := hmirrors.shown fun r => standIn_eq_finalBubble_iff hbubbles.2
  have hshows := ofTasks_shows hg hnodup
  have hshows' := ofTasks_shows hg' hnodup'
  refine ⟨hquotient.references_iff, hquotient.fresh, ?_, ofTasks_ends hg', fun f hf => ?_,
    fun f hf => hquotient.enters hf, fun f hf => hquotient.leaves hf,
    fun r hr hkept => vertex?_kept hshows hshows' hnodup' hforth hnodup hr hkept,
    fun u hu v hv hkept hkept' => ?_, ?_⟩
  · rw [hshows'.references_eq]
    exact Plan.nodup_shown hnodup'
  · have hjoins : ∀ c ∈ history.spawnedBy f.reference, ∀ u, g.Joins u c ↔ u = f.reference :=
      fun c hc => (hquotient.child f hf c hc).2
    have hne := (mem_contracted.mp hf).2.spawnedBy_ne_nil
    obtain ⟨c, hc⟩ := List.exists_mem_of_ne_nil _ hne
    refine ⟨(hquotient.ends _ _ ((hjoins c hc _).mpr rfl)).1, hquotient.fork f hf, hne,
      fun c hc => ⟨?_, hjoins c hc⟩⟩
    exact (hquotient.ends _ _ ((hjoins c hc _).mpr rfl)).2
  · exact edge?_congr (hquotient.joins_kept hu hv hkept hkept') fun e he e' he' hends hends' =>
      label_kept hshows hshows' hnodup' hforth he he' hends hends' hkept hkept'
  · rw [hquotient.references_iff]
    constructor
    · rintro (⟨hfinal, -⟩ | ⟨f, -, hfinal⟩)
      · exact hfinal
      · exact absurd hfinal.symm (dynamicForkChildrenRef_ne_finalBubble _)
    · exact fun hfinal => Or.inl ⟨hfinal, hbubbles.2⟩

end

end Graph

namespace Sample

/-- A dynamic fork in a case of a switch, and another one behind the switch. -/
def forks : List Task :=
  [.ofRef "s" (.switch .switch
      { Switch.empty [] with cases := [("some", [.ofRef "m" (.dynamicFork none none)])] }),
    .ofRef "k" (.dynamicFork none none), .ofRef "z" (.worker .simple)]

/-- The first fork has two children, and the second one has one. -/
def forksRun : List Attempt :=
  [.bare none "s" .switch .completed, .bare none "m" .forkJoinDynamic .completed,
    { Attempt.bare none "a" .simple .completed with parent := some "m" },
    { Attempt.bare none "b" .simple .failed with parent := some "m" },
    .bare none "k" .forkJoinDynamic .completed,
    { Attempt.bare none "c" .simple .completed with parent := some "k" }]

def forksHistory : History := (History.ofAttempts .running forksRun).toOption.getD .empty

def forksGraph (settings : Settings) : Graph :=
  (Graph.ofTasks settings forksHistory forks).toOption.getD .empty

end Sample

/-- The children of the first fork are contracted, and the child of the second one is not. -/
theorem Graph.contraction_of_forks :
    Sample.forksHistory.Bound ∧
    (contracted Sample.forksHistory ⟨2, by decide⟩ .standard Sample.forks).map Task.reference =
      ["m"] ∧
    (Sample.forksGraph .standard).references = ["__start", "s", "m", "a", "b", "k", "c", "z",
      "__final"] ∧
    (Sample.forksGraph ⟨2, by decide⟩).references = ["__start", "s", "m",
      "m_DF_CHILDREN_PLACEHOLDER", "k", "c", "z", "__final"] ∧
    Contraction Sample.forksHistory ⟨2, by decide⟩ .standard Sample.forks
      (Sample.forksGraph .standard) (Sample.forksGraph ⟨2, by decide⟩) := by
  have hbind : History.ofAttempts .running Sample.forksRun = .ok Sample.forksHistory :=
    Outcome.eq_ok_of_isOk (by decide +kernel) _
  have hh : Sample.forksHistory.Bound := Or.inr ⟨_, _, hbind⟩
  have hg : ofTasks .standard Sample.forksHistory Sample.forks =
      .ok (Sample.forksGraph .standard) := Outcome.eq_ok_of_isOk (by decide +kernel) _
  have hg' : ofTasks ⟨2, by decide⟩ Sample.forksHistory Sample.forks =
      .ok (Sample.forksGraph ⟨2, by decide⟩) := Outcome.eq_ok_of_isOk (by decide +kernel) _
  refine ⟨hh, by decide +kernel, by decide +kernel, by decide +kernel, ?_⟩
  exact contraction hh (by decide) hg hg' (by decide +kernel) (by decide +kernel)

end Flowchart

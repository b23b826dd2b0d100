import Flowchart.Proofs.AlikeHistories
import Flowchart.Proofs.Drawable
import Flowchart.Proofs.Lockstep

/-!
# Interleaved attempts give one picture

Histories that are alike are drawn alike. Where a plan looks at a history it counts attempts, or it
asks for the latest one, and neither depends on the order in which tasks were first met. What is
listed in that order are the children of a fork and the iterations of a loop.
-/

namespace Flowchart

theorem Tally.count_right_comm (t : Tally) (s s' : TaskStatus) :
    (t.count s).count s' = (t.count s').count s := by
  unfold count
  dsimp only
  split_ifs <;> rfl

theorem Tally.ofStatuses_perm {ss ss' : List TaskStatus} (h : ss.Perm ss') :
    ofStatuses ss = ofStatuses ss' :=
  h.foldl_eq' (fun s _ s' _ t => count_right_comm t s s') empty

/-- Aggregates of the same tasks in another order. -/
structure Aggregate.Alike (a b : Aggregate) : Prop where
  status : a.status = b.status
  tally : a.tally = b.tally
  standsFor : Option.Rel List.Perm a.standsFor b.standsFor

section

variable {settings : Settings} {history history' : History} {references references' : List String}
  {reference : String} {path : TreePath} {position : Nat} {sources sources' : List String}
  {tasks : List Task}

theorem History.Alike.statusOf_eq (hh : history.Alike history') :
    history.statusOf = history'.statusOf := by
  funext r
  unfold statusOf History.latestOfTask
  rcases hh.latest? r with ⟨hr, hr'⟩ | ⟨a, b, hr, hr', halike⟩
  · rw [hr, hr']
  · rw [hr, hr']
    dsimp only
    rw [halike.isBubble_eq]
    cases b.isBubble
    · exact congrArg Except.ok halike.status_eq
    · rfl

theorem Aggregate.alike_ofReferences (hh : history.Alike history')
    (hperm : references.Perm references') :
    Outcome.Both Aggregate.Alike (ofReferences history references)
      (ofReferences history' references') := by
  rw [ofReferences_eq, ofReferences_eq, hh.statusOf_eq]
  have hstatuses := Outcome.mapM_perm (f := history'.statusOf) hperm
  revert hstatuses
  cases references.mapM history'.statusOf <;> cases references'.mapM history'.statusOf <;>
    intro hstatuses
  · trivial
  · exact hstatuses.elim
  · exact hstatuses.elim
  · have htally := Tally.ofStatuses_perm hstatuses
    exact ⟨congrArg (some ∘ Tally.status) htally, congrArg some htally, .some hperm⟩

/-- Placements that differ in the order of their sources, and of what they stand for. -/
structure Placement.Alike (q q' : Placement) : Prop where
  task : q.task = q'.task
  parent : q.parent = q'.parent
  position : q.position = q'.position
  aggregate : Option.Rel Aggregate.Alike q.aggregate q'.aggregate

theorem Aggregate.Alike.refl (a : Aggregate) : a.Alike a := ⟨rfl, rfl, relPerm_refl _⟩

theorem Placement.alike_with_sources (q : Placement) (sources : List String) :
    q.Alike { q with sources := sources } := by
  refine ⟨rfl, rfl, rfl, ?_⟩
  cases q.aggregate with
  | none => exact .none
  | some aggregate => exact .some (.refl aggregate)

theorem covers_refl (us : List String) : Covers id us us := covers_self fun _ _ => rfl

theorem Plan.mirrors_refl (p : Plan) : p.Mirrors id Placement.Alike p :=
  mirrors_self (fun q _ => ⟨q.alike_with_sources q.sources, rfl, fun _ _ => rfl⟩) fun _ _ => rfl

namespace Task

/-- What holds of the fork alone does not depend on the order of its children. -/
theorem alike_ofForked (hh : history.Alike history') {aggregate : Aggregate}
    (hof : Aggregate.OfForked history reference (history.spawnedBy reference) aggregate) :
    ∃ aggregate', Aggregate.OfForked history' reference (history'.spawnedBy reference)
      aggregate' ∧ aggregate.Alike aggregate' := by
  rcases hof with ⟨hlatest, rfl⟩ | ⟨a, hlatest, haggregate⟩
  · obtain ⟨latest', hlatest', halike⟩ := (hh.latestOfTask reference).of_ok hlatest
    cases halike
    exact ⟨.blank, Or.inl ⟨hlatest', rfl⟩, .refl _⟩
  · obtain ⟨latest', hlatest', halike⟩ := (hh.latestOfTask reference).of_ok hlatest
    obtain ⟨aggregate', haggregate', hsame⟩ :=
      (Aggregate.alike_ofReferences hh (hh.children reference)).of_ok haggregate
    cases halike with
    | @some _ b _ => exact ⟨aggregate', Or.inr ⟨b, hlatest', haggregate'⟩, hsame⟩

theorem planChild_alike (hh : history.Alike history') {child : String}
    (hcompletes : (planChild history reference path child).Completes) :
    (planChild history' reference path child).Completes ∧
      (planChild history reference path child).Mirrors id Placement.Alike
        (planChild history' reference path child) := by
  obtain ⟨a, ha, heq⟩ := planChild_cases hcompletes
  obtain ⟨latest', hlatest', halike⟩ := (hh.latestOfTask child).of_ok ha
  cases halike with
  | @some _ b halike =>
    have heq' : planChild history' reference path child = planChild history reference path child := by
      rw [heq, planChild, hlatest', halike.task_eq]
      rfl
    rw [heq']
    exact ⟨hcompletes, Plan.mirrors_refl _⟩

theorem planForked_alike (hh : history.Alike history')
    (hcompletes : (planForked settings history reference path).Completes) :
    (planForked settings history' reference path).Completes ∧
      (planForked settings history reference path).Mirrors id Placement.Alike
        (planForked settings history' reference path) := by
  have hchildren := hh.children reference
  have hfew' : settings.expands (history'.spawnedBy reference) =
      settings.expands (history.spawnedBy reference) := by
    rw [Settings.expands, Settings.expands, hchildren.isEmpty_eq, hchildren.length_eq]
  rcases planForked_cases hcompletes with ⟨hfew, heq⟩ | ⟨hmany, aggregate, hof, heq⟩
  · rw [heq, Plan.completes_beside] at hcompletes
    rw [heq, planForked_of_few (hfew'.trans hfew), Plan.completes_beside]
    have hchild : ∀ child ∈ history.spawnedBy reference,
        (planChild history' reference path child).Completes ∧
          (planChild history reference path child).Mirrors id Placement.Alike
            (planChild history' reference path child) :=
      fun child hmem => planChild_alike hh (hcompletes _ (List.mem_map_of_mem hmem))
    refine ⟨?_, Plan.mirrors_beside ?_ ?_⟩
    · rw [List.forall_mem_map]
      exact fun child hmem => (hchild child (hchildren.mem_iff.mpr hmem)).1
    · rw [List.forall_mem_map]
      exact fun child hmem =>
        ⟨_, List.mem_map_of_mem (hchildren.mem_iff.mp hmem), (hchild child hmem).2⟩
    · rw [List.forall_mem_map]
      intro child hmem
      have hmem := hchildren.mem_iff.mpr hmem
      exact ⟨_, List.mem_map_of_mem hmem, (hchild child hmem).2⟩
  · obtain ⟨aggregate', hof', halike⟩ := alike_ofForked hh hof
    rw [heq, planForked_of_many (hfew'.trans hmany) hof']
    exact ⟨Plan.completes_vertex,
      Plan.mirrors_vertex ⟨⟨rfl, rfl, rfl, .some halike⟩, rfl, covers_refl _⟩⟩

theorem planIterations_alike (hh : history.Alike history') {t bar : Task}
    (hcompletes : (planIterations history t bar path position).Completes) :
    (planIterations history' t bar path position).Completes ∧
      (planIterations history t bar path position).Mirrors id Placement.Alike
        (planIterations history' t bar path position) := by
  unfold planIterations at hcompletes ⊢
  dsimp only at hcompletes ⊢
  obtain ⟨aggregate, haggregate, heq⟩ := hcompletes.of_attempt
  obtain ⟨aggregate', haggregate', halike⟩ :=
    (Aggregate.alike_ofReferences hh (hh.references.filter _)).of_ok haggregate
  rw [heq, haggregate']
  dsimp only [Plan.attempt]
  rw [Plan.completes_andThen]
  refine ⟨⟨Plan.completes_vertex, Plan.completes_vertex⟩, ?_⟩
  refine Plan.Mirrors.andThen (Plan.mirrors_vertex ⟨⟨rfl, rfl, rfl, .some halike⟩, rfl,
    covers_refl _⟩) (Plan.mirrors_vertex ⟨⟨rfl, rfl, rfl, .some ?_⟩, rfl, covers_refl _⟩)
  exact ⟨halike.status, rfl, .none⟩

theorem inStep_alike (hh : history.Alike history') (t : Task) :
    t.InStep id Placement.Alike settings settings history history' where
  reference := rfl
  loopEnd _ _ _ := rfl
  latest := hh.latest?_isSome t.reference
  forked _ _ hcompletes _ := (planForked_alike hh hcompletes).2
  iterations _ _ _ hcompletes _ := (planIterations_alike hh hcompletes).2

end Task

theorem planTasks_completes_alike (htasks : ∀ t ∈ tasks, ∀ position sources sources',
      (t.plan settings history path position sources).Completes →
        (t.plan settings history' path position sources').Completes)
    (hcompletes : (planTasks settings history path position tasks sources).Completes) :
    (planTasks settings history' path position tasks sources').Completes := by
  induction tasks generalizing position sources sources' with
  | nil => exact Plan.completes_nothing _
  | cons t rest ih =>
    rw [planTasks_cons, Plan.completes_andThen] at hcompletes ⊢
    obtain ⟨ht, hrest⟩ := List.forall_mem_cons.mp htasks
    exact ⟨ht position sources sources' hcompletes.1, ih hrest hcompletes.2⟩

/-- Nothing that one of two alike histories can tell is missing in the other. -/
theorem Task.plan_completes_alike (hh : history.Alike history') (t : Task) :
    ∀ path position sources sources', (t.plan settings history path position sources).Completes →
      (t.plan settings history' path position sources').Completes := by
  induction t using Task.induction with
  | step t ih =>
    intro path position sources sources' hcompletes
    have hsequence : ∀ s ∈ t.kind.sequences, ∀ {path : TreePath} {sources sources' : List String},
        (planTasks settings history path 0 s sources).Completes →
          (planTasks settings history' path 0 s sources').Completes := fun s hs path _ _ =>
      planTasks_completes_alike fun u hu => ih s hs u hu path
    cases t.kind.form with
    | single hsingle _ =>
      rw [plan_of_single hsingle]
      exact Plan.completes_vertex
    | final hk =>
      rw [plan_eq, hk]
      simp [Plan.Completes, Plan.vertex]
    | branches hne =>
      rw [plan_of_branches hne, Plan.completes_andThen, Plan.completes_beside,
        List.forall_mem_map] at hcompletes ⊢
      exact ⟨Plan.completes_vertex, fun branch hmem =>
        hsequence _ (Kind.mem_sequences_of_branches hmem) (hcompletes.2 branch hmem)⟩
    | forked hk =>
      have htype : t.type = .forkJoinDynamic := Kind.type_eq_forkJoinDynamic.mpr ⟨_, _, hk⟩
      rw [plan_of_dynamicFork htype, Plan.completes_andThen] at hcompletes ⊢
      exact ⟨Plan.completes_vertex, (planForked_alike hh hcompletes.2).1⟩
    | loop hk =>
      rw [plan_eq, hk] at hcompletes ⊢
      dsimp only at hcompletes ⊢
      obtain ⟨latest, hlatest, heq⟩ := hcompletes.of_attempt
      obtain ⟨latest', hlatest', halike⟩ := (hh.latestOfTask t.reference).of_ok hlatest
      rw [heq] at hcompletes
      refine Plan.completes_attempt hlatest' ?_
      cases halike with
      | none =>
        dsimp only at hcompletes ⊢
        rw [Plan.completes_andThen, Plan.completes_andThen] at hcompletes ⊢
        exact ⟨Plan.completes_vertex,
          hsequence _ (Kind.mem_sequences_of_loop hk) hcompletes.2.1, Plan.completes_vertex⟩
      | some _ =>
        dsimp only at hcompletes ⊢
        rw [Plan.completes_andThen] at hcompletes ⊢
        exact ⟨Plan.completes_vertex, (planIterations_alike hh hcompletes.2).1⟩

theorem Plan.ofTasks_completes_alike (hh : history.Alike history')
    (hcompletes : (Plan.ofTasks settings history tasks).Completes) :
    (Plan.ofTasks settings history' tasks).Completes := by
  rw [Plan.ofTasks_eq, completes_andThen, completes_andThen] at hcompletes ⊢
  exact ⟨completes_vertex, planTasks_completes_alike
    (fun t _ => t.plan_completes_alike hh .root) hcompletes.2.1, completes_vertex⟩

theorem Task.isRunLoop_alike (hh : history.Alike history') (t : Task) :
    t.isRunLoop history = t.isRunLoop history' := by
  rw [isRunLoop, isRunLoop, hh.latest?_isSome]

theorem forkedRefs_perm (hh : history.Alike history') :
    (forkedRefs settings history reference).Perm (forkedRefs settings history' reference) := by
  have hchildren := hh.children reference
  unfold forkedRefs
  dsimp only
  rw [hchildren.isEmpty_eq, hchildren.length_eq]
  split
  · exact hchildren
  · exact List.Perm.refl _

theorem Task.trailingRefs_perm (hh : history.Alike history') (t : Task) :
    (t.trailingRefs settings history).Perm (t.trailingRefs settings history') := by
  unfold trailingRefs
  split
  · exact forkedRefs_perm hh
  · exact List.Perm.refl _
  · exact List.Perm.refl _

theorem Task.drawnRefs_perm (hh : history.Alike history') (t : Task) :
    (t.drawnRefs settings history).Perm (t.drawnRefs settings history') := by
  induction t using Task.induction with
  | step t ih =>
    rw [drawnRefs_eq, drawnRefs_eq, t.isRunLoop_alike hh]
    refine List.Perm.append (List.Perm.cons _ ?_) (t.trailingRefs_perm hh)
    split
    · exact List.Perm.refl _
    · exact List.Perm.flatMap_left _ fun s hs => List.Perm.flatMap_left _ (ih s hs)

theorem Plan.references_nodup_alike (hh : history.Alike history') (hfiled : history.Filed)
    (hfiled' : history'.Filed) (hcompletes : (Plan.ofTasks settings history tasks).Completes)
    (hnodup : (Plan.ofTasks settings history tasks).references.Nodup) :
    (Plan.ofTasks settings history' tasks).references.Nodup := by
  have hperm : (drawnRefs settings history tasks).Perm (drawnRefs settings history' tasks) :=
    List.Perm.flatMap_left _ fun t _ => t.drawnRefs_perm hh
  rw [references_eq_drawnRefs hfiled hcompletes] at hnodup
  rw [references_eq_drawnRefs hfiled' (ofTasks_completes_alike hh hcompletes)]
  exact ((hperm.cons startBubble).append_right [finalBubble]).nodup_iff.mp hnodup

/-- Lists of alike entries, in any order. -/
def Rearranged {α : Type} (R : α → α → Prop) (as bs : List α) : Prop :=
  ∃ cs, List.Forall₂ R as cs ∧ cs.Perm bs

/-- Lists whose entries are told apart by keys can be matched entry by entry. -/
theorem rearranged_of_keys {α κ : Type} {R : α → α → Prop} {key : α → κ}
    (hkey : ∀ a b, R a b → key a = key b) {as bs : List α} (has : (as.map key).Nodup)
    (hbs : (bs.map key).Nodup) (forth : ∀ a ∈ as, ∃ b ∈ bs, R a b)
    (back : ∀ b ∈ bs, ∃ a ∈ as, R a b) : Rearranged R as bs := by
  induction as generalizing bs with
  | nil =>
    obtain rfl : bs = [] := List.eq_nil_iff_forall_not_mem.mpr fun b hb => by
      obtain ⟨a, ha, -⟩ := back b hb
      cases ha
    exact ⟨[], .nil, .refl []⟩
  | cons a as ih =>
    obtain ⟨b, hb, hab⟩ := forth a List.mem_cons_self
    obtain ⟨before, after, rfl⟩ := List.append_of_mem hb
    have hperm : (before ++ b :: after).Perm (b :: (before ++ after)) := List.perm_middle
    rw [List.map_cons, List.nodup_cons] at has
    have hbs := ((hperm.map key).nodup_iff).mp hbs
    rw [List.map_cons, List.nodup_cons] at hbs
    have hforth : ∀ a' ∈ as, ∃ b' ∈ before ++ after, R a' b' := by
      intro a' ha'
      obtain ⟨b', hb', hab'⟩ := forth a' (List.mem_cons_of_mem a ha')
      refine ⟨b', (List.mem_cons.mp (hperm.mem_iff.mp hb')).resolve_left ?_, hab'⟩
      rintro rfl
      have hmem : key a' ∈ as.map key := List.mem_map_of_mem ha'
      rw [hkey _ _ hab', ← hkey _ _ hab] at hmem
      exact has.1 hmem
    have hback : ∀ b' ∈ before ++ after, ∃ a' ∈ as, R a' b' := by
      intro b' hb'
      obtain ⟨a', ha', hab'⟩ := back b' (hperm.mem_iff.mpr (List.mem_cons_of_mem b hb'))
      refine ⟨a', (List.mem_cons.mp ha').resolve_left ?_, hab'⟩
      rintro rfl
      have hmem : key b' ∈ (before ++ after).map key := List.mem_map_of_mem hb'
      rw [← hkey _ _ hab', hkey _ _ hab] at hmem
      exact hbs.1 hmem
    obtain ⟨cs, hcs, hrest⟩ := ih has.2 hbs.2 hforth hback
    exact ⟨b :: cs, .cons hab hcs, (hrest.cons b).trans hperm.symm⟩

/-- Vertices that differ in the order of the references that they list, if at all. -/
structure Vertex.Alike (v w : Vertex) : Prop where
  task : v.task = w.task
  parent : v.parent = w.parent
  position : v.position = w.position
  results : List.Forall₂ Attempt.Alike v.results w.results
  status : v.status = w.status
  tally : v.tally = w.tally
  standsFor : Option.Rel List.Perm v.standsFor w.standsFor

/-- What an edge says, but for when it was linked. -/
def Edge.data (e : Edge) : (String × String) × EdgeLabel := (e.ends, e.label)

/-- Graphs with alike vertices and the same edges, in any order. -/
structure Graph.Alike (g g' : Graph) : Prop where
  vertices : Rearranged Vertex.Alike g.vertices g'.vertices
  edges : (g.edges.map Edge.data).Perm (g'.edges.map Edge.data)

theorem Placement.Alike.toVertex {q q' : Placement} (hh : history.Alike history')
    (h : q.Alike q') : (q.toVertex history).Alike (q'.toVertex history') := by
  obtain ⟨t, path, position, aggregate, sources⟩ := q
  obtain ⟨t', path', position', aggregate', sources'⟩ := q'
  obtain ⟨rfl, rfl, rfl, haggregate⟩ := h
  have hstatus : ((history.attempts t.reportRef).getLast?.map (·.status)) =
      (history'.attempts t.reportRef).getLast?.map (·.status) := by
    rcases hh.latest? t.reportRef with ⟨hr, hr'⟩ | ⟨a, b, hr, hr', halike⟩
    · exact (congrArg _ hr).trans (congrArg _ hr').symm
    · refine (congrArg _ hr).trans (Eq.trans ?_ (congrArg _ hr').symm)
      exact congrArg some halike.status_eq
  cases haggregate with
  | none => exact ⟨rfl, rfl, rfl, hh.attempts _, hstatus, rfl, .none⟩
  | some halike =>
    exact ⟨rfl, rfl, rfl, hh.attempts _, halike.status, halike.tally, halike.standsFor⟩

theorem Placement.Alike.labelsAlike {q q' : Placement} (hh : history.Alike history')
    (h : q.Alike q') : q.LabelsAlike history history' q' :=
  ⟨h.task, congrArg Option.isSome (h.toVertex hh).status⟩

namespace Graph

variable {g g' : Graph} {ps ps' : List Placement}

/-- The edges of one graph are edges of the other. -/
theorem Shows.data_mem (hg : g.Shows history ps) (hg' : g'.Shows history' ps')
    (hh : history.Alike history') (hnodup' : (ps'.map Placement.reference).Nodup)
    (hforth : ∀ q ∈ ps, ∃ q' ∈ ps', q.Matches id Placement.Alike q') {e : Edge}
    (he : e ∈ g.edges) : e.data ∈ g'.edges.map Edge.data := by
  obtain ⟨q, hq, hsource, htarget, -⟩ := hg.labels e he
  obtain ⟨q', hq', hmatches⟩ := hforth q hq
  obtain ⟨e', he', hsource', htarget'⟩ :=
    hg'.joins q' hq' e.source ((hmatches.sources _).mpr ⟨e.source, hsource, rfl⟩)
  have hends : e.ends = e'.ends := by
    have hreference : q.reference = q'.reference := hmatches.reference
    rw [Edge.ends, Edge.ends, hsource', htarget', htarget, hreference]
  have hlabel : e.label = e'.label := by
    refine hg.label_eq hg' he he' hends (fun r hr r' hr' heq _ => ?_) hh.latest?_isSome
    obtain ⟨r'', hr'', hrr⟩ := hforth r hr
    have hreference : r.reference = r''.reference := hrr.reference
    obtain rfl := List.inj_on_of_nodup_map hnodup' hr'' hr' (hreference.symm.trans heq)
    exact hrr.kept.labelsAlike hh
  exact List.mem_map.mpr ⟨e', he', by rw [Edge.data, Edge.data, hends, hlabel]⟩

theorem nodup_data (h : (g.edges.map Edge.ends).Nodup) : (g.edges.map Edge.data).Nodup := by
  have hends : (g.edges.map Edge.data).map Prod.fst = g.edges.map Edge.ends := List.map_map
  exact List.Nodup.of_map Prod.fst (hends ▸ h)

/-- Two diagrams of alike histories are alike, if no two things in them have one reference. -/
theorem alike_ofTasks (hh : history.Alike history') (hg : ofTasks settings history tasks = .ok g)
    (hg' : ofTasks settings history' tasks = .ok g')
    (hnodup : (Plan.ofTasks settings history tasks).references.Nodup)
    (hnodup' : (Plan.ofTasks settings history' tasks).references.Nodup) : g.Alike g' := by
  have hmirrors : ∀ {h h' : History} {g g' : Graph}, h.Alike h' →
      ofTasks settings h tasks = .ok g → ofTasks settings h' tasks = .ok g' →
        (Plan.ofTasks settings h tasks).Mirrors id Placement.Alike
          (Plan.ofTasks settings h' tasks) := fun hh hg hg' =>
    Plan.ofTasks_mirrors (fun q sources _ => q.alike_with_sources sources) rfl rfl
      (fun u _ => u.inStep_alike hh) (ofTasks_completes hg) (ofTasks_completes hg')
  obtain ⟨hforth, hback⟩ := (hmirrors hh hg hg').shown fun _ => Iff.rfl
  obtain ⟨hforth', -⟩ := (hmirrors hh.symm hg' hg).shown fun _ => Iff.rfl
  have hshows := ofTasks_shows hg hnodup
  have hshows' := ofTasks_shows hg' hnodup'
  have hshown := Plan.nodup_shown hnodup
  have hshown' := Plan.nodup_shown hnodup'
  constructor
  · have hkey : ∀ v w : Vertex, v.Alike w → v.reference = w.reference :=
      fun v w hvw => congrArg Task.reference hvw.task
    refine rearranged_of_keys hkey ?_ ?_ ?_ ?_
    · change g.references.Nodup
      rwa [hshows.references_eq]
    · change g'.references.Nodup
      rwa [hshows'.references_eq]
    · rw [hshows.vertices, hshows'.vertices, List.forall_mem_map]
      intro q hq
      obtain ⟨q', hq', hmatches⟩ := hforth q hq
      exact ⟨_, List.mem_map_of_mem hq', hmatches.kept.toVertex hh⟩
    · rw [hshows.vertices, hshows'.vertices, List.forall_mem_map]
      intro q' hq'
      obtain ⟨q, hq, hmatches⟩ := hback q' hq'
      exact ⟨_, List.mem_map_of_mem hq, hmatches.kept.toVertex hh⟩
  · refine (List.perm_ext_iff_of_nodup (nodup_data (ofTasks_ends hg))
      (nodup_data (ofTasks_ends hg'))).mpr fun data => ⟨fun hdata => ?_, fun hdata => ?_⟩
    · obtain ⟨e, he, rfl⟩ := List.mem_map.mp hdata
      exact hshows.data_mem hshows' hh hshown' hforth he
    · obtain ⟨e, he, rfl⟩ := List.mem_map.mp hdata
      exact hshows'.data_mem hshows hh.symm hshown hforth' he

/-- What can be drawn of one of two alike histories can be drawn of the other. -/
theorem exists_alike (hh : history.Alike history') (hfiled : history.Filed)
    (hfiled' : history'.Filed) (hg : ofTasks settings history tasks = .ok g)
    (hnodup : (Plan.ofTasks settings history tasks).references.Nodup) :
    ∃ g', ofTasks settings history' tasks = .ok g' ∧ g.Alike g' := by
  have hcompletes := ofTasks_completes hg
  have hnodup' := Plan.references_nodup_alike hh hfiled hfiled' hcompletes hnodup
  obtain ⟨g', hg'⟩ :=
    exists_of_completes hfiled' (Plan.ofTasks_completes_alike hh hcompletes) hnodup'
  exact ⟨g', hg', alike_ofTasks hh hg hg' hnodup hnodup'⟩

end Graph

end

/-- **Interleavings give one picture.** Executions whose attempts differ in how those of different
tasks interleave are bound both or neither. Each reference then has the same attempts in both, and
the latest one spawned the same references, up to the order in which these are listed. The same
tasks, if no two things in a diagram that can be drawn of them have one reference, are drawn both
or neither, and the two diagrams are alike. -/
theorem alike_of_interleaved {as bs : List Attempt}
    (hsame : ∀ r, as.filter (·.reference = r) = bs.filter (·.reference = r)) (status : RunStatus)
    (settings : Settings) (tasks : List Task) :
    Outcome.Both (fun h h' : History =>
      (∀ r, List.Forall₂ Attempt.Alike (h.attempts r) (h'.attempts r)) ∧
      (∀ r, Option.Rel List.Perm (h.spawned? r) (h'.spawned? r)) ∧
      ((∀ g, Graph.ofTasks settings h tasks = .ok g →
          (Plan.ofTasks settings h tasks).references.Nodup) →
        (∀ g, Graph.ofTasks settings h' tasks = .ok g →
          (Plan.ofTasks settings h' tasks).references.Nodup) →
        Outcome.Both Graph.Alike (Graph.ofTasks settings h tasks)
          (Graph.ofTasks settings h' tasks)))
      (History.ofAttempts status as) (History.ofAttempts status bs) := by
  have hbound := History.alike_ofAttempts hsame status
  cases hbind : History.ofAttempts status as <;> cases hbind' : History.ofAttempts status bs <;>
    rw [hbind, hbind'] at hbound
  · trivial
  · exact hbound.elim
  · exact hbound.elim
  · next h h' =>
    have hh : h.Alike h' := hbound
    have hfiled := History.Filed.ofAttempts hbind
    have hfiled' := History.Filed.ofAttempts hbind'
    refine ⟨hh.attempts, hh.spawned?, fun hnodup hnodup' => ?_⟩
    cases hg : Graph.ofTasks settings h tasks with
    | ok g =>
      obtain ⟨g', hg', halike⟩ := Graph.exists_alike hh hfiled hfiled' hg (hnodup g hg)
      rw [hg']
      exact halike
    | error e =>
      cases hg' : Graph.ofTasks settings h' tasks with
      | error e' => trivial
      | ok g' =>
        obtain ⟨g, hg₂, -⟩ := Graph.exists_alike hh.symm hfiled' hfiled hg' (hnodup' g' hg')
        rw [hg] at hg₂
        cases hg₂

namespace Sample

/-- A dynamic fork, and what comes after it. -/
def spawning : List Task := [.ofRef "m" (.dynamicFork none none), .ofRef "z" (.worker .simple)]

def child (reference : String) (status : TaskStatus) : Attempt :=
  { Attempt.bare none reference .simple status with parent := some "m" }

/-- The fork arrives before its children, and one of these is tried twice. -/
def forkFirst : List Attempt :=
  [.bare none "m" .forkJoinDynamic .completed, child "c" .failed, child "c" .completed,
    child "e" .inProgress]

/-- The fork arrives between its children. -/
def childrenFirst : List Attempt :=
  [child "e" .inProgress, child "c" .failed, .bare none "m" .forkJoinDynamic .completed,
    child "c" .completed]

def bound (attempts : List Attempt) : History :=
  (History.ofAttempts .running attempts).toOption.getD .empty

theorem childrenFirst_same (r : String) :
    forkFirst.filter (·.reference = r) = childrenFirst.filter (·.reference = r) := by
  by_cases hc : r = "c"
  · subst hc
    decide +kernel
  by_cases he : r = "e"
  · subst he
    decide +kernel
  · simp [forkFirst, childrenFirst, child, Attempt.bare, List.filter_cons, Ne.symm hc, Ne.symm he]

end Sample

/-- The children stand in two orders, as single vertices and as parts of one. -/
theorem alike_of_interleaved_children :
    (∀ r, Sample.forkFirst.filter (·.reference = r) =
      Sample.childrenFirst.filter (·.reference = r)) ∧
    (Sample.bound Sample.forkFirst).spawned? "m" = some ["c", "e"] ∧
    (Sample.bound Sample.childrenFirst).spawned? "m" = some ["e", "c"] ∧
    ∀ settings ∈ [⟨2, by decide⟩, Settings.standard], ∃ g g',
      Graph.ofTasks settings (Sample.bound Sample.forkFirst) Sample.spawning = .ok g ∧
      Graph.ofTasks settings (Sample.bound Sample.childrenFirst) Sample.spawning = .ok g' ∧
      g.Alike g' := by
  have hsame := Sample.childrenFirst_same
  refine ⟨hsame, by decide +kernel, by decide +kernel, fun settings hsettings => ?_⟩
  have hbind : History.ofAttempts .running Sample.forkFirst =
      .ok (Sample.bound Sample.forkFirst) := Outcome.eq_ok_of_isOk (by decide +kernel) _
  have hbind' : History.ofAttempts .running Sample.childrenFirst =
      .ok (Sample.bound Sample.childrenFirst) := Outcome.eq_ok_of_isOk (by decide +kernel) _
  have hboth := alike_of_interleaved hsame .running settings Sample.spawning
  rw [hbind, hbind'] at hboth
  have hnodup : ∀ settings ∈ [⟨2, by decide⟩, Settings.standard],
      (Plan.ofTasks settings (Sample.bound Sample.forkFirst) Sample.spawning).references.Nodup ∧
      (Plan.ofTasks settings (Sample.bound Sample.childrenFirst) Sample.spawning).references.Nodup ∧
      (Graph.ofTasks settings (Sample.bound Sample.forkFirst) Sample.spawning).isOk = true := by
    decide +kernel
  obtain ⟨hdistinct, hdistinct', hok⟩ := hnodup settings hsettings
  have hg := Outcome.eq_ok_of_isOk hok .empty
  obtain ⟨g', hg', halike⟩ :=
    (hboth.2.2 (fun _ _ => hdistinct) (fun _ _ => hdistinct')).of_ok hg
  exact ⟨_, g', hg, hg', halike⟩

end Flowchart

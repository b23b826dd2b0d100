import Flowchart.Proofs.Landings

/-!
# Insertions that commute

Of two insertions into a definition at different places, either may come first. The second one finds
its place again, since the first has only moved it. It finds the same name for its task, since names
that are made for different types never meet. And behind different tasks, it does not matter which
of two tasks is put in first.
-/

namespace Flowchart

/-- What is put in for a new task of the type is one task. -/
def TaskType.InsertsOne (type : TaskType) : Prop :=
  type.HasTemplate ∧ type ≠ .forkJoin ∧ type ≠ .forkJoinDynamic

/-- A task that stands alone: it is no fork, and there is nothing in it. -/
structure Task.IsAlone (t : Task) : Prop where
  fork : t.kind.isFork = false
  inner : t.kind.sequences.flatten = []

theorem Task.exists_template_of_insertsOne {type : TaskType} (h : type.InsertsOne)
    (reference : String) :
    ∃ x, template type reference = .ok [x] ∧ x.reference = reference ∧ x.IsAlone := by
  obtain ⟨htemplate, hfork, hdynamic⟩ := h
  obtain ⟨inserted, hinserted⟩ := template_of_hasTemplate htemplate reference
  rcases template_ok hinserted with ⟨x, rfl, href, hx, hinner, -⟩ | ⟨-, -, -, -, -, hpair⟩
  · exact ⟨x, hinserted, href, hx, hinner⟩
  · exact absurd hpair (not_or.mpr ⟨hfork, hdynamic⟩)

namespace Task.IsAlone

variable {x : Task} {r : String} {y : Task}

theorem family (hx : x.IsAlone) : x.family = [x] := by
  rw [family_eq_listing, hx.inner]
  rfl

/-- Nothing is put in behind it that belongs behind another task. -/
theorem expand (hx : x.IsAlone) (hne : x.reference ≠ r) : x.expand r y = [x] := by
  refine expand_eq_self x fun u hu => ?_
  rw [hx.family, List.mem_singleton] at hu
  exact hu ▸ hne

/-- It is drawn under its reference, and perhaps with a bar. -/
theorem mem_drawnRefs {settings : Settings} {name : String} (hx : x.IsAlone)
    (h : name ∈ Flowchart.drawnRefs settings .empty [x]) :
    name = x.reference ∨ name = loopEndRef x.reference := by
  rw [drawnRefs_cons, drawnRefs_nil, List.append_nil, Task.drawnRefs_of_idle rfl hx.inner] at h
  refine (List.mem_cons.mp h).imp_right fun hmem => ?_
  unfold trailingRefs at hmem
  split at hmem
  · next htype =>
    obtain ⟨tasksParam, inputParam, hk⟩ := Kind.type_eq_forkJoinDynamic.mp htype
    have hfork := hx.fork
    rw [hk] at hfork
    cases hfork
  · exact List.mem_singleton.mp hmem
  · cases hmem

end Task.IsAlone

/-! ### Places that have moved

The second of two insertions finds its place in a tree that the first one has changed. Which path
leads there now is never needed: it is enough that one leads to the same sequence, with the first
task put into it where it belongs there.
-/

/-- The name of what a task is put in behind. -/
def anchor : Option Task → String
  | none => startBubble
  | some host => host.reference

section

variable {tasks s : List Task} {r : String} {place : Place} {host landing : Option Task} {x : Task}

/-- Only the reference of the task in front matters. -/
theorem insertAfter_congr {landing' : Option Task}
    (h : landing'.map (·.reference) = landing.map (·.reference)) (x : Task) (tasks : List Task) :
    insertAfter landing' x tasks = insertAfter landing x tasks := by
  cases landing with
  | none => rw [Option.map_eq_none_iff.mp h]
  | some t =>
    obtain ⟨t', rfl, heq⟩ := Option.map_eq_some_iff.mp h
    exact congrArg (insertBehind · x tasks) heq

/-- A path leads on to where it led before, and a task in front of all moves it by one place. -/
theorem TreePath.exists_insertAfter {path : TreePath} (host : Option Task) (x : Task)
    (hstart : startBubble ∉ treeRefs tasks) (h : path.get? tasks = some s) : ∃ path' front,
      TreePath.get? path' (insertAfter host x tasks) =
        some (front ++ insertBehind (anchor host) x s) := by
  obtain ⟨segments⟩ := path
  cases host with
  | some t =>
    obtain ⟨segments', hs⟩ := exists_insertBehind h
    exact ⟨⟨segments'⟩, [], hs⟩
  | none =>
    have hself : insertBehind startBubble x s = s := by
      obtain ⟨left, right, heq⟩ := treeRefs_follow? h
      refine insertBehind_eq_self fun hmem => hstart ?_
      rw [heq]
      exact List.mem_append_left _ (List.mem_append_right _ hmem)
    rw [anchor, hself]
    cases segments with
    | nil =>
      obtain rfl := Option.some.inj h
      exact ⟨.root, [x], rfl⟩
    | cons segment rest => exact ⟨⟨⟨segment.index + 1, segment.branch⟩ :: rest⟩, [], h⟩

theorem TreePath.exists_slot_insertAfter {path : TreePath} {before back : List Task} {t : Task}
    (host : Option Task) (x : Task) (hstart : startBubble ∉ treeRefs tasks)
    (h : path.get? tasks = some (before ++ t :: back)) :
    ∃ path' before', TreePath.get? path' (insertAfter host x tasks) =
      some (before' ++ t.hosting (anchor host) x ::
        ((if t.reference = anchor host then [x] else []) ++
          insertBehind (anchor host) x back)) := by
  obtain ⟨path', front, hs⟩ := exists_insertAfter host x hstart h
  refine ⟨path', front ++ insertBehind (anchor host) x before, hs.trans ?_⟩
  rw [insertBehind_append, insertBehind_cons, Task.expand_eq, List.append_assoc, List.cons_append]

/-- An insertion does not part a fork from its join, and what another one lands behind is there
still. -/
theorem Lands.moved (h : Lands tasks r place landing) (x : Task)
    (hstart : startBubble ∉ treeRefs tasks)
    (hfork : ∀ path s fork, TreePath.get? path tasks = some s → fork ∈ s →
      fork.kind.isFork = true → fork.reference ≠ anchor host) :
    ∃ place' landing', Lands (insertAfter host x tasks) r place' landing' ∧
      landing'.map (·.reference) = landing.map (·.reference) := by
  have hkind : ∀ t : Task, (t.hosting (anchor host) x).kind.isFork = t.kind.isFork ∧
      (t.hosting (anchor host) x).kind.isJoin = t.kind.isJoin := by
    intro t
    unfold Task.hosting
    cases t.kind <;> exact ⟨rfl, rfl⟩
  cases h with
  | start => exact ⟨_, none, .start, rfl⟩
  | @own path before back t hs hnot =>
    obtain ⟨path', before', hs'⟩ := TreePath.exists_slot_insertAfter host x hstart hs
    have hlands := Lands.own hs' ((hkind t).1.trans hnot)
    exact ⟨_, _, hlands, rfl⟩
  | @bar path before back body t condition hs hk =>
    obtain ⟨path', before', hs'⟩ := TreePath.exists_slot_insertAfter host x hstart hs
    have hlands := Lands.bar hs' (Task.kind_hosting_of_loop hk)
    exact ⟨_, _, hlands, rfl⟩
  | @join path before back fork join hs hf hj =>
    obtain ⟨path', before', hs'⟩ := TreePath.exists_slot_insertAfter host x hstart hs
    have hne := hfork path _ fork hs (List.mem_append_right _ List.mem_cons_self) hf
    rw [if_neg hne, List.nil_append, insertBehind_cons, Task.expand_eq, List.cons_append] at hs'
    have hlands := Lands.join hs' ((hkind fork).1.trans hf) ((hkind join).2.trans hj)
    exact ⟨_, _, hlands, rfl⟩

/-- Behind different tasks, it does not matter which of two tasks is put in first. -/
theorem insertAfter_comm {x' : Task} (hne : anchor host ≠ anchor landing)
    (hx : x.IsAlone) (hx' : x'.IsAlone) (hfresh : x.reference ≠ anchor landing)
    (hfresh' : x'.reference ≠ anchor host) (tasks : List Task) :
    insertAfter landing x' (insertAfter host x tasks) =
      insertAfter host x (insertAfter landing x' tasks) := by
  have hcons : ∀ {t y z : Task}, y.expand t.reference z = [y] →
      insertBehind t.reference z (y :: tasks) = y :: insertBehind t.reference z tasks := by
    intro t y z h
    rw [insertBehind_cons, h]
    rfl
  cases host <;> cases landing
  case none.none => exact absurd rfl hne
  case none.some t => exact hcons (hx.expand hfresh)
  case some.none t => exact (hcons (hx'.expand hfresh')).symm
  case some.some t u =>
    exact insertBehind_comm (Ne.symm hne) (hx'.expand hfresh') (hx.expand hfresh) tasks

end

namespace Lands

variable {settings : Settings} {tasks : List Task} {r r' : String} {place place' : Place}
  {host host' : Option Task}

theorem mem_listing {t : Task} (h : Lands tasks r place (some t)) : t ∈ listing tasks :=
  mem_listing_of_visible h.mem_visible

theorem anchor_mem (h : Lands tasks r place host) :
    anchor host ∈ (Plan.ofTasks settings .empty tasks).references := by
  cases host with
  | none => exact List.mem_cons_self
  | some t =>
    refine (Plan.references_perm settings tasks).mem_iff.mpr ?_
    exact List.mem_map_of_mem (List.mem_append_left _ h.mem_listing)

variable (hnodup : (Plan.ofTasks settings .empty tasks).references.Nodup)

include hnodup

theorem ne_startBubble {t : Task} (ht : t ∈ listing tasks) : t.reference ≠ startBubble :=
  fun heq => Plan.bubble_not_mem_ownRefs hnodup List.mem_cons_self ht
    (List.mem_cons.mpr (Or.inl heq.symm))

/-- Different places are behind different tasks. -/
theorem anchor_ne (h : Lands tasks r place host) (h' : Lands tasks r' place' host')
    (hne : place ≠ place') : anchor host ≠ anchor host' := by
  intro heq
  cases host with
  | none =>
    cases host' with
    | none =>
      cases h
      cases h'
      exact hne rfl
    | some t => exact ne_startBubble hnodup h'.mem_listing heq.symm
  | some t =>
    cases host' with
    | none => exact ne_startBubble hnodup h.mem_listing heq
    | some u =>
      have hcompletes := (Plan.ofTasks_draws_walk settings tasks).completes
      obtain ⟨front, back, hs, hindex⟩ := h.exists_slot
      obtain ⟨front', back', hs', hindex'⟩ := h'.exists_slot
      obtain ⟨sources, hp⟩ := Plan.placement_of_leads hcompletes (TreePath.leads_of_follow? hs)
        (getElem?_middle front back t)
      obtain ⟨sources', hp'⟩ := Plan.placement_of_leads hcompletes (TreePath.leads_of_follow? hs')
        (getElem?_middle front' back' u)
      have hsame := List.inj_on_of_nodup_map hnodup hp hp' heq
      rw [Placement.mk.injEq, Option.some.injEq] at hsame
      obtain ⟨path, index⟩ := place
      obtain ⟨path', index'⟩ := place'
      dsimp only at hindex hindex' hsame
      exact hne (by rw [hindex, hindex', hsame.2.1, hsame.2.2.1])

/-- Nothing is put in right behind a fork. -/
theorem fork_ne_anchor (h : Lands tasks r place host) {path : TreePath} {s : List Task}
    {fork : Task} (hs : path.get? tasks = some s) (hmem : fork ∈ s)
    (hfork : fork.kind.isFork = true) : fork.reference ≠ anchor host := by
  have hlisted := mem_listing_of_visible (TreePath.mem_visible_of_follow? hs hmem)
  intro heq
  cases host with
  | none => exact ne_startBubble hnodup hlisted heq
  | some t =>
    have hall := (Plan.references_perm settings tasks).nodup hnodup
    rw [List.map_append] at hall
    rw [List.inj_on_of_nodup_map hall.of_append_left hlisted h.mem_listing heq,
      h.isFork_host] at hfork
    cases hfork

end Lands

namespace Diagram

variable {d after : Diagram} {type type' : TaskType} {x : Task} {inserted : List Task}

/-- But for the final bubble, what is planned is drawn, and nothing else is. -/
theorem Reachable.mem_references_iff (hd : d.Reachable) {r : String} (hne : r ≠ finalBubble) :
    r ∈ d.graph.references ↔ r ∈ d.plan.references := by
  refine ⟨fun hr => ?_, fun hr => Graph.mem_references_ofTasks hd.graph_eq hr hne⟩
  obtain ⟨v, hv, rfl⟩ := List.mem_map.mp hr
  obtain ⟨p, hp, rfl⟩ := Graph.mem_vertices_ofTasks hd.graph_eq hv
  exact List.mem_map_of_mem hp

/-- Where a task of one type has been put in, the name for a task of another type stays free, and is
found again. -/
theorem Reachable.freshRef_after (hd : d.Reachable) (hafter : after.Reachable)
    (hswaps : Swaps [] (drawnRefs d.settings .empty [x]) d.plan.references after.plan.references)
    (hinserted : d.freshTasks type = .ok [x]) (hx : x.IsAlone)
    (hinserted' : d.freshTasks type' = .ok inserted) (hne : type ≠ type') :
    after.freshRef type'.stem = d.freshRef type'.stem := by
  refine freshRef_congr fun n => ?_
  obtain ⟨-, hfinal⟩ := numberedRef_append_ne_bubble hinserted' n ""
  rw [String.append_empty] at hfinal
  have hunlike : numberedRef type'.stem n ∉ drawnRefs d.settings .empty [x] := by
    intro hmem
    obtain ⟨m, hm, -⟩ := d.freshRef_spec type.stem
    rcases hx.mem_drawnRefs hmem with heq | heq
    · rw [Task.reference_of_template hinserted, hm] at heq
      exact hne (TaskType.eq_of_stem hinserted' hinserted (numberedRef_inj heq).1).symm
    · have hlast := getLast?_loopEndRef x.reference
      rw [← heq] at hlast
      exact absurd (isDigit_of_getLast?_numberedRef hlast) (by decide)
  rw [hafter.mem_references_iff hfinal, hd.mem_references_iff hfinal]
  obtain ⟨before, behind, hold, hnew⟩ := hswaps
  rw [hold, hnew]
  simp only [List.mem_append, hunlike, List.not_mem_nil, or_false]

end Diagram

namespace Diagram

variable {d : Diagram} {r₁ r₂ : String} {place₁ place₂ : Place} {host₁ host₂ : Option Task}
  {type₁ type₂ : TaskType} {x₁ x₂ : Task}

/-- After the first insertion, the second one makes of the new tree what it would have made of the
old one at the same task. -/
theorem Reachable.insert_twice (hd : d.Reachable) (hdefinition : d.execution = none)
    (hends : Throughout (·.type ≠ .doWhileEnd) d.tasks) (hnodup : d.plan.references.Nodup)
    (hlands₁ : Lands d.tasks r₁ place₁ host₁) (hlands₂ : Lands d.tasks r₂ place₂ host₂)
    (hne : type₁ ≠ type₂) (hinserted₁ : d.freshTasks type₁ = .ok [x₁])
    (hinserted₂ : d.freshTasks type₂ = .ok [x₂]) (hx₁ : x₁.IsAlone)
    (hnodup₁ : (Plan.ofTasks d.settings d.history
      (insertAfter host₁ x₁ d.tasks)).references.Nodup) :
    ∃ d₁, d.edit (.insert r₁ type₁) = .ok d₁ ∧
      d₁.editedTasks (.insert r₂ type₂) =
        .ok (insertAfter host₂ x₂ (insertAfter host₁ x₁ d.tasks)) ∧
      ∀ tasks, d₁.redraw tasks = d.redraw tasks := by
  have hempty := hd.history_eq_empty hdefinition
  have hplan : (Plan.ofTasks d.settings .empty d.tasks).references.Nodup := hempty ▸ hnodup
  obtain ⟨d₁, hedit, hredraw⟩ :=
    hd.insert_of_lands hdefinition hends hnodup hlands₁ hinserted₁ hnodup₁
  have hd₁ := hd.edit hedit
  have hends₁ : Throughout (·.type ≠ .doWhileEnd) d₁.tasks :=
    throughout_editedTasks Kind.isNotLoopEnd_kept hends throughout_nil (edit_ok hedit).1
  have hswaps : Swaps [] (drawnRefs d.settings .empty [x₁]) d.plan.references
      (Plan.ofTasks d.settings d.history (insertAfter host₁ x₁ d.tasks)).references := by
    rw [plan, hempty]
    exact hlands₁.references_swaps (hd.nodup_treeRefs hdefinition hnodup) d.settings
  have hstart : startBubble ∉ treeRefs d.tasks := fun hmem => by
    obtain ⟨t, ht, heq⟩ := List.mem_map.mp hmem
    exact Lands.ne_startBubble hplan ht heq
  obtain ⟨place, landing, hlands, hlanding⟩ := hlands₂.moved x₁ hstart
    fun path s fork hs hmem hfork => hlands₁.fork_ne_anchor hplan hs hmem hfork
  obtain ⟨graph, -, rfl⟩ := draw_ok hredraw
  have hname := hd.freshRef_after hd₁ hswaps hinserted₁ hx₁ hinserted₂ hne
  have hinserted := hinserted₂
  rw [freshTasks, ← hname] at hinserted
  have htasks₂ := hd₁.editedTasks_of_lands hdefinition hends₁ hnodup₁ hlands hinserted
  rw [insertAfter_congr hlanding] at htasks₂
  exact ⟨_, hedit, htasks₂, fun _ => rfl⟩

/-- **Insertions commute.** Two tasks of different types are put into a definition at different
places, one after the other. If in none of the trees on the way two things have one reference, both
orders go through, and both end in the same diagram. -/
theorem Reachable.insert_comm (hd : d.Reachable) (hdefinition : d.execution = none)
    (hkeyed : Throughout Kind.Keyed d.tasks) (hends : Throughout (·.type ≠ .doWhileEnd) d.tasks)
    (hne : type₁ ≠ type₂) (hone₁ : type₁.InsertsOne) (hone₂ : type₂.InsertsOne)
    (hplace₁ : d.insertionPlace r₁ = .ok place₁) (hplace₂ : d.insertionPlace r₂ = .ok place₂)
    (hapart : place₁ ≠ place₂) (hnodup : d.plan.references.Nodup)
    (hnodup₁ : ∀ tasks, d.editedTasks (.insert r₁ type₁) = .ok tasks →
      (Plan.ofTasks d.settings d.history tasks).references.Nodup)
    (hnodup₂ : ∀ tasks, d.editedTasks (.insert r₂ type₂) = .ok tasks →
      (Plan.ofTasks d.settings d.history tasks).references.Nodup)
    (hfinal : ∀ d₁ tasks, d.edit (.insert r₁ type₁) = .ok d₁ →
      d₁.editedTasks (.insert r₂ type₂) = .ok tasks →
        (Plan.ofTasks d.settings d.history tasks).references.Nodup) :
    ∃ d₁ d₂ after, d.edit (.insert r₁ type₁) = .ok d₁ ∧ d.edit (.insert r₂ type₂) = .ok d₂ ∧
      d₁.edit (.insert r₂ type₂) = .ok after ∧ d₂.edit (.insert r₁ type₁) = .ok after := by
  obtain ⟨host₁, hlands₁⟩ := hd.exists_lands hkeyed hplace₁
  obtain ⟨host₂, hlands₂⟩ := hd.exists_lands hkeyed hplace₂
  obtain ⟨x₁, hinserted₁, hname₁, hx₁⟩ :=
    Task.exists_template_of_insertsOne hone₁ (d.freshRef type₁.stem)
  obtain ⟨x₂, hinserted₂, hname₂, hx₂⟩ :=
    Task.exists_template_of_insertsOne hone₂ (d.freshRef type₂.stem)
  have htasks₁ := hd.editedTasks_of_lands hdefinition hends hnodup hlands₁ hinserted₁
  have htasks₂ := hd.editedTasks_of_lands hdefinition hends hnodup hlands₂ hinserted₂
  obtain ⟨d₁, hedit₁, hthen₁, hredraw₁⟩ := hd.insert_twice hdefinition hends hnodup hlands₁ hlands₂
    hne hinserted₁ hinserted₂ hx₁ (hnodup₁ _ htasks₁)
  obtain ⟨d₂, hedit₂, hthen₂, hredraw₂⟩ := hd.insert_twice hdefinition hends hnodup hlands₂ hlands₁
    hne.symm hinserted₂ hinserted₁ hx₂ (hnodup₂ _ htasks₂)
  have hplan : (Plan.ofTasks d.settings .empty d.tasks).references.Nodup :=
    hd.history_eq_empty hdefinition ▸ hnodup
  -- what is drawn already is not the new name of either task
  have hfresh : ∀ {r : String} {place : Place} {host : Option Task} {type : TaskType} {x : Task},
      Lands d.tasks r place host → d.freshTasks type = .ok [x] → x.reference ≠ anchor host := by
    intro r place host type x hlands hinserted heq
    refine hd.freshRef_not_mem_plan hinserted ?_
    rw [← Task.reference_of_template hinserted, heq, plan, hd.history_eq_empty hdefinition]
    exact hlands.anchor_mem
  have hcomm := insertAfter_comm (hlands₁.anchor_ne hplan hlands₂ hapart) hx₁ hx₂
    (hfresh hlands₂ hinserted₁) (hfresh hlands₁ hinserted₂) d.tasks
  obtain ⟨after, hafter⟩ := hd.exists_redraw hdefinition (hfinal d₁ _ hedit₁ hthen₁)
  refine ⟨d₁, d₂, after, hedit₁, hedit₂, ?_, ?_⟩
  · exact (Outcome.bind_of_ok hthen₁).trans ((hredraw₁ _).trans hafter)
  · rw [← hcomm] at hthen₂
    exact (Outcome.bind_of_ok hthen₂).trans ((hredraw₂ _).trans hafter)

end Diagram

def Sample.waitingDiagram : Diagram :=
  (nestedCasesDiagram.edit (.insert "a" .wait)).toOption.getD nestedCasesDiagram

/-- A wait in a case of a switch in a fork, and a loop in front of all, which moves that case. -/
theorem Diagram.Reachable.insert_comm_of_case :
    Sample.nestedCasesDiagram.insertionPlace "a" =
        .ok ⟨⟨[⟨0, .fork 0⟩, ⟨0, .case "case_1"⟩]⟩, 1⟩ ∧
      Sample.nestedCasesDiagram.insertionPlace startBubble = .ok ⟨.root, 0⟩ ∧
      ∃ d₁ d₂ after, Sample.nestedCasesDiagram.edit (.insert "a" .wait) = .ok d₁ ∧
        Sample.nestedCasesDiagram.edit (.insert startBubble .doWhile) = .ok d₂ ∧
        d₁.edit (.insert startBubble .doWhile) = .ok after ∧
        d₂.edit (.insert "a" .wait) = .ok after := by
  have hd : Diagram.ofDefinition Sample.nestedCases .standard = .ok Sample.nestedCasesDiagram :=
    Outcome.eq_ok_of_isOk (by decide +kernel) _
  have hplace : Sample.nestedCasesDiagram.insertionPlace "a" =
      .ok ⟨⟨[⟨0, .fork 0⟩, ⟨0, .case "case_1"⟩]⟩, 1⟩ := by
    decide +kernel
  have hwait : Sample.nestedCasesDiagram.edit (.insert "a" .wait) = .ok Sample.waitingDiagram :=
    Outcome.eq_ok_of_isOk (by decide +kernel) _
  have hfirst : ∀ tasks ∈ (Sample.nestedCasesDiagram.editedTasks (.insert "a" .wait)).toOption,
      (Plan.ofTasks .standard .empty tasks).references.Nodup := by
    decide +kernel
  have hsecond : ∀ tasks ∈
      (Sample.nestedCasesDiagram.editedTasks (.insert startBubble .doWhile)).toOption,
      (Plan.ofTasks .standard .empty tasks).references.Nodup := by
    decide +kernel
  have hboth : ∀ tasks ∈
      (Sample.waitingDiagram.editedTasks (.insert startBubble .doWhile)).toOption,
      (Plan.ofTasks .standard .empty tasks).references.Nodup := by
    decide +kernel
  have hreads : ∀ {result : Except Error (List Task)} {tasks : List Task}, result = .ok tasks →
      tasks ∈ result.toOption := by
    rintro _ tasks rfl
    rfl
  refine ⟨hplace, rfl, Diagram.Reachable.insert_comm (.ofDefinition hd) rfl (by decide +kernel)
    (by decide +kernel) (by decide) ⟨⟨"", _, rfl⟩, by decide, by decide⟩
    ⟨⟨"", _, rfl⟩, by decide, by decide⟩ hplace rfl (by decide) (by decide +kernel)
    (fun tasks h => hfirst tasks (hreads h)) (fun tasks h => hsecond tasks (hreads h)) ?_⟩
  intro d₁ tasks h₁ h
  obtain rfl := Except.ok.inj (hwait.symm.trans h₁)
  exact hboth tasks (hreads h)

end Flowchart

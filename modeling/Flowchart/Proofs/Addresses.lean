import Flowchart.Proofs.Drawn
import Flowchart.Proofs.InsertedOverlays
import Flowchart.Proofs.Siblings

/-!
# Addressing by id and by reference

A task is addressed by the id of an attempt or by its reference. The id goes through the places that
the history keeps, the reference through the graph and through what is filed under it. The two agree
in all that is asked of a task, whether it is drawn or known from its attempts only.
-/

namespace Flowchart

namespace History

variable {h : History} {log : List Attempt} {b : Attempt} {r : String}

/-- The latest attempt of a reference without bubbles is the last one that is filed under it. -/
theorem latestOfTask_of_getLast? (hlast : (h.attempts r).getLast? = some b)
    (htask : b.isBubble = false) : h.latestOfTask r = .ok (some b) := by
  rw [latestOfTask, latest?, hlast]
  simp only [htask]
  rfl

end History

namespace Run

variable {run : Run} {h : History} {a b : Attempt} {id : String}

section

variable (hrun : run.Identified)
  (hbind : History.ofAttempts run.execution.status run.attempts = .ok h) (ha : a ∈ run.attempts)

include hrun hbind ha

/-- Under the reference of an attempt, the history has the attempts of the run. -/
theorem Identified.attempts_unsaid :
    (h.attempts a.reference).map Attempt.unsaid =
      (run.attemptsOf a.reference).map Attempt.unsaid := by
  obtain ⟨hstart, hfinal⟩ := hrun.reference_ne a ha
  rw [(History.Logs.ofAttempts hbind).filed, List.filter_append, History.filter_bubbles,
    if_neg hstart, if_neg fun h => hfinal h.1, List.append_nil]
  rfl

/-- None of them is that of a bubble. -/
theorem Identified.isBubble_eq_false (hb : b ∈ h.attempts a.reference) : b.isBubble = false := by
  have hmem : b.unsaid ∈ (run.attemptsOf a.reference).map Attempt.unsaid :=
    hrun.attempts_unsaid hbind ha ▸ List.mem_map_of_mem hb
  obtain ⟨c, hc, hsame⟩ := List.mem_map.mp hmem
  rw [← Attempt.isBubble_eq_of_unsaid hsame]
  exact beq_false_of_ne (hrun.type_ne c (List.mem_of_mem_filter hc))

theorem Identified.exists_latest :
    ∃ latest, (h.attempts a.reference).getLast? = some latest ∧
      h.latestOfTask a.reference = .ok (some latest) := by
  have hne : h.attempts a.reference ≠ [] := by
    intro hnil
    have hnone := hrun.attempts_unsaid hbind ha
    rw [hnil, List.map_nil, eq_comm, List.map_eq_nil_iff, attemptsOf_eq_nil] at hnone
    exact hnone a ha rfl
  have hlast := List.getLast?_eq_some_getLast hne
  exact ⟨_, hlast, History.latestOfTask_of_getLast? hlast
    (hrun.isBubble_eq_false hbind ha (List.getLast_mem hne))⟩

/-- The id finds the attempt among those of its reference. -/
theorem Identified.exists_withId (hid : a.id = some id) :
    ∃ b ∈ h.attempts a.reference, h.withId id = .ok b ∧ b.unsaid = a.unsaid := by
  obtain ⟨before, hlatest⟩ := hrun.isLatest run.execution.status ha hid
  obtain ⟨b, hfinds, hsame, -, -, hplace⟩ :=
    (History.Logs.ofAttempts hbind).withId_of_isLatest hlatest
  exact ⟨b, List.mem_of_getElem? hplace, hfinds, hsame⟩

end

end Run

namespace Diagram

variable {d : Diagram} {run : Run} {settings : Settings} {a b latest : Attempt} {id r : String}

theorem referenceAt_ofId (hfinds : d.history.withId id = .ok b) :
    d.referenceAt (.ofId id) = .ok b.reference :=
  Outcome.bind_of_ok hfinds

/-- What is not drawn is reported by its latest attempt. -/
theorem exists_find (hlatest : d.history.latestOfTask r = .ok (some latest)) :
    ∃ found, d.find r = .ok found ∧ found.reference = r ∧
      (r ∈ d.graph.references → ∃ v, d.graph.vertex? r = some v ∧ found = .drawn v.task) ∧
      (r ∉ d.graph.references → found = .reported latest.definitionName r) := by
  cases hv : d.graph.vertex? r with
  | some v =>
    obtain ⟨hmem, hreference⟩ := Graph.vertex?_ok hv
    have hdrawn : r ∈ d.graph.references := by
      rw [← hreference]
      exact List.mem_map_of_mem hmem
    refine ⟨.drawn v.task, ?_, hreference, fun _ => ⟨v, rfl, rfl⟩, fun hnot => absurd hdrawn hnot⟩
    simp only [find, hv]
    rfl
  | none =>
    refine ⟨.reported latest.definitionName r, ?_, rfl, fun hdrawn => ?_, fun _ => rfl⟩
    · simp only [find, hv, hlatest]
      rfl
    · obtain ⟨v, hsome⟩ := Graph.exists_vertex? hdrawn
      rw [hv] at hsome
      cases hsome

/-- What is answered of an attempt with an id and of its task with a reference: the attempt itself,
all attempts of the task and the latest of them, and what is known of the task. -/
structure Answers (d : Diagram) (id reference : String) (own latest : Attempt)
    (attempts : List Attempt) (found : Found) : Prop where
  attempt_ofId : d.attemptAt (.ofId id) = .ok (some own)
  attempt_ofReference : d.attemptAt (.ofReference reference) = .ok (some latest)
  own_mem : own ∈ attempts
  latest_last : attempts.getLast? = some latest
  attempts_ofId : d.attemptsAt (.ofId id) = .ok attempts
  attempts_ofReference : d.attemptsAt (.ofReference reference) = .ok attempts
  vertex_ofId : d.vertexAt (.ofId id) = .ok (d.graph.vertex? reference)
  vertex_ofReference : d.vertexAt (.ofReference reference) = .ok (d.graph.vertex? reference)
  found_ofId : d.findAt (.ofId id) = .ok found
  found_ofReference : d.findAt (.ofReference reference) = .ok found
  reference_found : found.reference = reference
  drawn : reference ∈ d.graph.references →
    ∃ v, d.graph.vertex? reference = some v ∧ found = .drawn v.task
  reported : reference ∉ d.graph.references →
    found = .reported latest.definitionName reference

/-- What an id finds under its reference settles every answer. -/
theorem exists_answers (hfinds : d.history.withId id = .ok b)
    (hb : b ∈ d.history.attempts b.reference)
    (hlast : (d.history.attempts b.reference).getLast? = some latest)
    (hlatest : d.history.latestOfTask b.reference = .ok (some latest)) :
    ∃ found, d.Answers id b.reference b latest (d.history.attempts b.reference) found := by
  have hreference := referenceAt_ofId hfinds
  obtain ⟨found, hfind, hsame, hdrawn, hreported⟩ := exists_find hlatest
  refine ⟨found, ?_⟩
  exact {
    attempt_ofId := congrArg (Except.map some) hfinds
    attempt_ofReference := hlatest
    own_mem := hb
    latest_last := hlast
    attempts_ofId := Outcome.bind_of_ok hreference
    attempts_ofReference := rfl
    vertex_ofId := Outcome.bind_of_ok hreference
    vertex_ofReference := rfl
    found_ofId := (Outcome.bind_of_ok hreference).trans hfind
    found_ofReference := hfind
    reference_found := hsame
    drawn := hdrawn
    reported := hreported }

/-- **Addresses.** However the diagram of a run was edited, an attempt of the run is found by its
id, and all that is asked of its task has the same answer by the id and by the reference: its
attempts, which are those of the run, its vertex, and what is known of it, which is the task that is
drawn under the reference, or else the name that the latest attempt gives. -/
theorem addresses_agree (hd : Diagram.ofRun run settings = .ok d) (hrun : run.Identified)
    (es : List Edit) (ha : a ∈ run.attempts) (hid : a.id = some id) :
    ∃ own latest attempts found,
      (d.performAll es).Answers id a.reference own latest attempts found ∧
        own.unsaid = a.unsaid ∧
        attempts.map Attempt.unsaid = (run.attemptsOf a.reference).map Attempt.unsaid := by
  have hbind := history_of_ofRun hd
  rw [← (Reachable.ofRun hd).history_performAll es] at hbind
  obtain ⟨own, hmem, hfinds, hsame⟩ := hrun.exists_withId hbind ha hid
  obtain ⟨latest, hlast, hlatest⟩ := hrun.exists_latest hbind ha
  have hreference : own.reference = a.reference :=
    History.Filed.ofAttempts hbind a.reference own hmem
  have hattempts := hrun.attempts_unsaid hbind ha
  rw [← hreference] at hmem hlast hlatest hattempts ⊢
  obtain ⟨found, hanswers⟩ := exists_answers hfinds hmem hlast hlatest
  exact ⟨own, latest, _, found, hanswers, hsame, hattempts⟩

end Diagram

/-- A child that was tried twice is drawn, and reported by its second attempt once its fork has been
deleted. -/
theorem Diagram.addresses_agree_of_deleted :
    Diagram.ofRun Sample.siblingsRun .standard = .ok Sample.siblingsDiagram ∧
    Sample.siblingsRun.Identified ∧
    (∃ own latest attempts found,
      Sample.siblingsDiagram.Answers "2" "c" own latest attempts found ∧
        own.id = some "2" ∧ latest.id = some "4" ∧ ∃ task, found = .drawn task) ∧
    ∃ own latest attempts found,
      (Sample.siblingsDiagram.performAll [.delete "m"]).Answers "2" "c" own latest attempts found ∧
        own.id = some "2" ∧ latest.id = some "4" ∧ found = .reported none "c" := by
  have hd : Diagram.ofRun Sample.siblingsRun .standard = .ok Sample.siblingsDiagram :=
    Outcome.eq_ok_of_isOk (by decide +kernel) _
  have hrun : Sample.siblingsRun.Identified :=
    ⟨⟨by decide +kernel, by decide +kernel⟩, by decide +kernel⟩
  have hlatest : ∀ {attempts : List Attempt} {latest : Attempt},
      attempts.map Attempt.unsaid = (Sample.siblingsRun.attemptsOf "c").map Attempt.unsaid →
        attempts.getLast? = some latest →
        latest.id = some "4" ∧ latest.definitionName = none := by
    intro attempts latest hsame hlast
    have hunsaid := congrArg List.getLast? hsame
    rw [List.getLast?_map, hlast] at hunsaid
    exact ⟨congrArg (·.bind (·.id)) hunsaid, congrArg (·.bind (·.definitionName)) hunsaid⟩
  let child : Attempt :=
    { Attempt.bare (some "2") "c" .simple .failed with parent := some "m" }
  have hchild : child ∈ Sample.siblingsRun.attempts := by decide +kernel
  refine ⟨hd, hrun, ?_, ?_⟩
  · obtain ⟨own, latest, attempts, found, h, hown, hsame⟩ := addresses_agree hd hrun [] hchild rfl
    obtain ⟨v, -, hfound⟩ := h.drawn (by decide +kernel)
    exact ⟨own, latest, attempts, found, h, congrArg Attempt.id hown,
      (hlatest hsame h.latest_last).1, v.task, hfound⟩
  · obtain ⟨own, latest, attempts, found, h, hown, hsame⟩ :=
      addresses_agree hd hrun [.delete "m"] hchild rfl
    obtain ⟨hid, hname⟩ := hlatest hsame h.latest_last
    refine ⟨own, latest, attempts, found, h, congrArg Attempt.id hown, hid, ?_⟩
    rw [h.reported (by decide +kernel), hname]
    rfl

end Flowchart

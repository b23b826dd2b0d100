import Flowchart.Proofs.Positions

/-!
# Saving a task as it is drawn

What is drawn at the place of a task is that task, and putting it there again changes nothing. The
one exception is the bar that closes a loop. It is drawn with a task of its own but stands at the
place of its loop, so that saving the bar puts it where the loop was.
-/

namespace Flowchart

namespace Place

variable {place : Place} {tasks tasks' s : List Task} {t : Task}

/-- A task that is put where it is already leaves the tree as it is. -/
theorem modify?_self (hs : place.path.get? tasks = some s) (ht : s[place.index]? = some t) :
    place.modify? (fun _ => t) tasks = some tasks := by
  obtain ⟨plug, rfl, hplug⟩ := TreePath.exists_hole hs
  obtain ⟨hindex, rfl⟩ := List.getElem?_eq_some_iff.mp ht
  rw [modify?_eq hs ht]
  refine ((hplug s).2 _).trans ?_
  rw [List.set_getElem_self]

/-- What holds throughout the tree after a task was put in holds of that task. -/
theorem of_modify? {P : Kind (List Task) → Prop} (htasks' : Throughout P tasks')
    (h : place.modify? (fun _ => t) tasks = some tasks') : P t.kind := by
  obtain ⟨s, u, hs, hu, hchange⟩ := modify?_eq_some.mp h
  have hput : t ∈ s.set place.index t := List.mem_set (List.getElem?_eq_some_iff.mp hu).1 t
  have hfound := htasks'.follow? (TreePath.follow?_change? hchange hs)
  exact (throughout_iff.mp hfound t hput).1

end Place

namespace Diagram

variable {d after : Diagram} {r : String} {place : Place} {s : List Task} {t : Task}

/-- What is located can be put in again, and nothing changes. -/
theorem Reachable.replace_located (hd : d.Reachable) (h : d.locate r = .ok (place, s, t)) :
    d.edit (.replace r t) = .ok d := by
  obtain ⟨v, -, -, -, hs, ht, -⟩ := locate_ok h
  refine Outcome.bind_eq_ok.mpr ⟨d.tasks, Outcome.bind_eq_ok.mpr ⟨(place, s, t), h, ?_⟩,
    hd.redraw_tasks⟩
  dsimp only
  rw [Place.modify?_self hs ht]
  rfl

theorem vertex?_of_find (h : d.find r = .ok (.drawn t)) :
    ∃ v, d.graph.vertex? r = some v ∧ v.task = t := by
  unfold find at h
  cases hv : d.graph.vertex? r with
  | some v =>
    rw [hv] at h
    cases h
    exact ⟨v, rfl, rfl⟩
  | none =>
    rw [hv] at h
    dsimp only at h
    obtain ⟨latest, -, h⟩ := Outcome.bind_eq_ok.mp h
    cases latest <;> cases h

/-- What is drawn is located as the task itself, or else as the loop that it closes. -/
theorem Reachable.locate_drawn (hd : d.Reachable) (hkeyed : Throughout Kind.Keyed d.tasks)
    {u : Task} (hfound : d.find r = .ok (.drawn t)) (hlocate : d.locate r = .ok (place, s, u)) :
    u.DrawnAs t := by
  obtain ⟨v, hv, hpath, hindex, hs, hu, -⟩ := locate_ok hlocate
  obtain ⟨v', hv', rfl⟩ := vertex?_of_find hfound
  obtain rfl := Option.some.inj (hv.symm.trans hv')
  obtain ⟨s', u', hleads, hu', hdrawn⟩ :=
    Graph.recorded hd.graph_eq hkeyed (List.mem_of_find?_eq_some hv) hindex
  rw [hpath] at hleads
  obtain rfl := Option.some.inj (hleads.follow?.symm.trans hs)
  obtain rfl := Option.some.inj (hu'.symm.trans hu)
  exact hdrawn

/-- **Saving what is drawn.** When a task is put in again just as it is drawn, nothing changes, with
one exception: for the bar of a loop, the bar comes to stand in the tree in the place of the
loop. -/
theorem Reachable.replace_drawn_iff (hd : d.Reachable) (hkeyed : Throughout Kind.Keyed d.tasks)
    (hends : Throughout (·.type ≠ .doWhileEnd) d.tasks) (hfound : d.find r = .ok (.drawn t))
    (hsaved : d.edit (.replace r t) = .ok after) :
    (after = d ↔ t.type ≠ .doWhileEnd) ∧
      (t.type = .doWhileEnd → ∃ place s l, d.locate r = .ok (place, s, l) ∧ l.type = .doWhile ∧
        t = l.loopEnd ∧ place.modify? (fun _ => t) d.tasks = some after.tasks) := by
  obtain ⟨place, s, u, hlocate, hmodify⟩ := replace_ok (edit_ok hsaved).1
  have hput (hsame : after = d) : t.type ≠ .doWhileEnd :=
    Place.of_modify? (hsame ▸ hends) hmodify
  rcases hd.locate_drawn hkeyed hfound hlocate with rfl | ⟨⟨condition, body, hk⟩, rfl⟩
  · have hsame : after = d := by
      rw [hd.replace_located hlocate] at hsaved
      exact (Except.ok.inj hsaved).symm
    exact ⟨iff_of_true hsame (hput hsame), fun h => absurd h (hput hsame)⟩
  · have hloop : u.type = .doWhile := Kind.type_eq_doWhile.mpr ⟨condition, body, hk⟩
    exact ⟨iff_of_false (fun hsame => hput hsame rfl) fun h => h rfl, fun _ =>
      ⟨place, s, u, hlocate, hloop, rfl, hmodify⟩⟩

end Diagram

/-- The bar of the loop is drawn with a task of its own, and saving that task puts the bar where the
loop was. -/
theorem Diagram.Reachable.replace_drawn_iff_of_bar :
    Diagram.ofRun Sample.loopedRun .standard = .ok Sample.loopedDiagram ∧
      ∃ after, Sample.loopedDiagram.edit (.replace "l-END" (.plain "l" "l-END" (.loopEnd "l"))) =
          .ok after ∧ after ≠ Sample.loopedDiagram ∧
        ∃ place s l, Sample.loopedDiagram.locate "l-END" = .ok (place, s, l) ∧
          l.type = .doWhile := by
  have hd : Diagram.ofRun Sample.loopedRun .standard = .ok Sample.loopedDiagram :=
    Outcome.eq_ok_of_isOk (by decide +kernel) _
  have hsaved := Outcome.eq_ok_of_isOk (x := Sample.loopedDiagram.edit
    (.replace "l-END" (.plain "l" "l-END" (.loopEnd "l")))) (by decide +kernel)
    Sample.loopedDiagram
  have hfound : Sample.loopedDiagram.find "l-END" =
      .ok (.drawn (.plain "l" "l-END" (.loopEnd "l"))) := by
    decide +kernel
  obtain ⟨hsame, hbar⟩ := Diagram.Reachable.replace_drawn_iff (.ofRun hd) (by decide +kernel)
    (by decide +kernel) hfound hsaved
  obtain ⟨place, s, l, hlocate, hloop, -, -⟩ := hbar rfl
  exact ⟨hd, _, hsaved, fun heq => hsame.mp heq rfl, place, s, l, hlocate, hloop⟩

end Flowchart

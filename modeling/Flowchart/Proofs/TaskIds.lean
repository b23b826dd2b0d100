import Flowchart.Proofs.Bindings
import Mathlib.Data.List.Induction

/-!
# Attempts that are found by id

A history keeps for each id a reference and a place among the attempts of that reference. However
the history was come by, the attempt at that place is the one that was added last under the id.
Links change attempts where they stand, and the attempts of bubbles are not found by id.
-/

namespace Flowchart

namespace Attempt

/-- The attempt is one that the id finds. -/
def Bears (a : Attempt) (id : String) : Prop := a.isBubble = false ∧ a.id = some id

instance (a : Attempt) (id : String) : Decidable (a.Bears id) :=
  inferInstanceAs (Decidable (_ ∧ _))

/-- The attempt without a note of what it spawned. -/
def unsaid (a : Attempt) : Attempt := { a with spawned := none }

theorem unsaid_addSpawned (a : Attempt) (child : String) :
    (a.addSpawned child).unsaid = a.unsaid := rfl

theorem isBubble_eq_of_unsaid {a b : Attempt} (h : a.unsaid = b.unsaid) :
    a.isBubble = b.isBubble := by
  have htype := congrArg isBubble h
  exact htype

/-- `a` was added behind `before`, and is the last one in the log that bears the id. -/
def IsLatest (log : List Attempt) (id : String) (before : List Attempt) (a : Attempt) : Prop :=
  ∃ after, log = before ++ a :: after ∧ a.Bears id ∧ ∀ b ∈ after, ¬ b.Bears id

variable {log before : List Attempt} {a c : Attempt} {id : String}

theorem isLatest_concat : IsLatest (log ++ [c]) id before a ↔
    c.Bears id ∧ before = log ∧ a = c ∨ ¬ c.Bears id ∧ IsLatest log id before a := by
  constructor
  · rintro ⟨after, hlog, hbears, hlast⟩
    rcases List.eq_nil_or_concat' after with rfl | ⟨init, last, rfl⟩
    · obtain ⟨rfl, heq⟩ := List.append_inj' hlog rfl
      obtain rfl := List.singleton_inj.mp heq
      exact Or.inl ⟨hbears, rfl, rfl⟩
    · rw [← List.cons_append, ← List.append_assoc] at hlog
      obtain ⟨rfl, heq⟩ := List.append_inj' hlog rfl
      obtain rfl := List.singleton_inj.mp heq
      refine Or.inr ⟨hlast c (by simp), init, rfl, hbears, fun b hb => ?_⟩
      exact hlast b (List.mem_append_left _ hb)
  · rintro (⟨hbears, rfl, rfl⟩ | ⟨hnot, after, rfl, hbears, hlast⟩)
    · exact ⟨[], rfl, hbears, by simp⟩
    · refine ⟨after ++ [c], by simp, hbears, fun b hb => ?_⟩
      rcases List.mem_append.mp hb with hb | hb
      · exact hlast b hb
      · rwa [List.mem_singleton.mp hb]

theorem exists_isLatest (log : List Attempt) (id : String) :
    (∃ before a, IsLatest log id before a) ∨ ∀ a ∈ log, ¬ a.Bears id := by
  induction log using List.reverseRecOn with
  | nil => exact Or.inr (by simp)
  | append_singleton log c ih =>
    by_cases hc : c.Bears id
    · exact Or.inl ⟨log, c, isLatest_concat.mpr (Or.inl ⟨hc, rfl, rfl⟩)⟩
    · rcases ih with ⟨before, a, hlatest⟩ | hnone
      · exact Or.inl ⟨before, a, isLatest_concat.mpr (Or.inr ⟨hc, hlatest⟩)⟩
      · right
        simpa [or_imp, forall_and] using ⟨hnone, hc⟩

/-- Where ids are distinct, an attempt of a task is the only one under its id. -/
theorem exists_isLatest_of_nodup (hnodup : (log.filterMap (·.id)).Nodup) (ha : a ∈ log)
    (hid : a.id = some id) (htask : a.isBubble = false) : ∃ before, IsLatest log id before a := by
  obtain ⟨before, after, rfl⟩ := List.append_of_mem ha
  refine ⟨before, after, rfl, ⟨htask, hid⟩, fun b hb hbears => ?_⟩
  rw [List.filterMap_append, List.filterMap_cons, hid] at hnodup
  have hlater : id ∈ after.filterMap (·.id) := List.mem_filterMap.mpr ⟨b, hb, hbears.2⟩
  exact (List.nodup_cons.mp (List.nodup_append.mp hnodup).2.1).1 hlater

theorem IsLatest.append (h : IsLatest log id before a) {others : List Attempt}
    (hbubbles : ∀ b ∈ others, b.isBubble = true) : IsLatest (log ++ others) id before a := by
  obtain ⟨after, rfl, hbears, hlast⟩ := h
  refine ⟨after ++ others, by simp, hbears, fun b hb hsame => ?_⟩
  rcases List.mem_append.mp hb with hb | hb
  · exact hlast b hb hsame
  · exact Bool.false_ne_true (hsame.1.symm.trans (hbubbles b hb))

end Attempt

theorem map_mapLast {α β : Type} {f : α → α} {g : α → β} (h : ∀ a, g (f a) = g a) (as : List α) :
    (mapLast f as).map g = as.map g := by
  induction as with
  | nil => rfl
  | cons a as ih =>
    cases as with
    | nil => simp [mapLast, h]
    | cons b bs => exact congrArg (g a :: ·) ih

namespace History

variable {h h' : History} {log : List Attempt} {id : String}

/-- The place that the history keeps for the id. -/
def place? (h : History) (id : String) : Option (String × Nat) := Dict.get? h.ids id

/-- What a history keeps of the attempts that were added to it, in this order. -/
structure Logs (h : History) (log : List Attempt) : Prop where
  filed : ∀ r, (h.attempts r).map Attempt.unsaid =
    (log.filter (·.reference = r)).map Attempt.unsaid
  unknown : ∀ id, (∀ a ∈ log, ¬ a.Bears id) → h.place? id = none
  known : ∀ id before a, Attempt.IsLatest log id before a →
    h.place? id = some (a.reference, before.countP (·.reference = a.reference))

theorem Logs.length_attempts (hlogs : h.Logs log) (r : String) :
    (h.attempts r).length = log.countP (·.reference = r) := by
  have hlength := congrArg List.length (hlogs.filed r)
  simpa [List.countP_eq_length_filter] using hlength

theorem Logs.empty : empty.Logs [] where
  filed := fun _ => rfl
  unknown := fun _ _ => rfl
  known := fun id before a ⟨after, hlog, _⟩ => by simp at hlog

theorem place?_add (h : History) (a : Attempt) (id : String) : (h.add a).place? id =
    if a.Bears id then some (a.reference, (h.attempts a.reference).length) else h.place? id := by
  unfold place? add
  dsimp only
  split
  · next id' hbubble hid =>
    have hbears : a.Bears id ↔ id' = id := by simp [Attempt.Bears, hbubble, hid]
    simp only [Dict.get?_put, hbears]
  · next hother =>
    have hbears : ¬ a.Bears id := fun ⟨hbubble, hid⟩ => hother id hbubble hid
    rw [if_neg hbears]

theorem Logs.add (hlogs : h.Logs log) (c : Attempt) : (h.add c).Logs (log ++ [c]) where
  filed := by
    intro r
    by_cases hr : c.reference = r <;> simp [attempts_add, hlogs.filed r, hr]
  unknown := by
    intro id hnone
    have hc : ¬ c.Bears id := hnone c (by simp)
    rw [place?_add, if_neg hc]
    exact hlogs.unknown id fun a ha => hnone a (List.mem_append_left _ ha)
  known := by
    intro id before a hlatest
    rw [place?_add]
    rcases Attempt.isLatest_concat.mp hlatest with ⟨hc, rfl, rfl⟩ | ⟨hc, hlatest⟩
    · rw [if_pos hc, hlogs.length_attempts]
    · rw [if_neg hc]
      exact hlogs.known id before a hlatest

theorem Logs.foldl_add (hlogs : h.Logs log) (as : List Attempt) :
    (as.foldl History.add h).Logs (log ++ as) := by
  induction as generalizing h log with
  | nil => simpa using hlogs
  | cons a as ih => simpa using ih (hlogs.add a)

theorem Logs.link {parent child : String} (hlogs : h.Logs log)
    (hlink : h.link parent child = .ok h') : h'.Logs log := by
  have hids : h'.ids = h.ids := by
    unfold History.link at hlink
    split at hlink
    · cases hlink
    · rw [← Outcome.pure_eq_ok.mp hlink]
  have hplace : ∀ id, h'.place? id = h.place? id := fun id => by rw [place?, hids, place?]
  refine ⟨fun r => ?_, fun id => ?_, fun id => ?_⟩
  · rw [attempts_link hlink]
    split
    · rw [map_mapLast fun a => a.unsaid_addSpawned child, hlogs.filed r]
    · exact hlogs.filed r
  · rw [hplace]
    exact hlogs.unknown id
  · rw [hplace]
    exact hlogs.known id

theorem Logs.ofAttempts {status : RunStatus} {attempts : List Attempt}
    (hbind : ofAttempts status attempts = .ok h) :
    h.Logs (attempts ++ bubbles status attempts) := by
  obtain ⟨linked, hlinked, rfl⟩ := ofAttempts_ok hbind
  have hadded : (ofAdded attempts).Logs attempts := by
    obtain ⟨hfiled, hunknown, hknown⟩ := Logs.empty.foldl_add attempts
    exact ⟨hfiled, hunknown, hknown⟩
  apply Logs.foldl_add
  exact Outcome.foldlM_keeps (P := fun h : History => h.Logs attempts) hlinked hadded
    fun _ _ _ _ hlogs hlink => hlogs.link hlink

/-- Histories that were come by in any way, with the attempts that were added to them in order. -/
inductive Reached : List Attempt → History → Prop where
  | empty : Reached [] .empty
  | bound {status : RunStatus} {attempts : List Attempt} {h : History} :
    ofAttempts status attempts = .ok h → Reached (attempts ++ bubbles status attempts) h
  | add {log : List Attempt} {h : History} (a : Attempt) : Reached log h →
    Reached (log ++ [a]) (h.add a)

theorem Reached.filed (hh : Reached log h) : h.Filed := by
  induction hh with
  | empty => exact Filed.empty
  | bound hbind => exact Filed.ofAttempts hbind
  | add a _ ih => exact ih.add a

theorem Reached.logs (hh : Reached log h) : h.Logs log := by
  induction hh with
  | empty => exact Logs.empty
  | bound hbind => exact Logs.ofAttempts hbind
  | add a _ ih => exact ih.add a

/-- Where the log has an attempt, the history has it but for the note on it. -/
theorem Logs.getElem?_attempts (hlogs : h.Logs log) {before after : List Attempt} {a : Attempt}
    (hlog : log = before ++ a :: after) :
    ∃ b, (h.attempts a.reference)[before.countP (·.reference = a.reference)]? = some b ∧
      b.unsaid = a.unsaid := by
  have hfound : ((log.filter (·.reference = a.reference)).map Attempt.unsaid)[before.countP
      (·.reference = a.reference)]? = some a.unsaid := by
    simp [hlog, List.countP_eq_length_filter]
  rw [← hlogs.filed, List.getElem?_map] at hfound
  exact Option.map_eq_some_iff.mp hfound

theorem withId_eq_ok {r : String} {k : Nat} {b : Attempt} (hplace : h.place? id = some (r, k))
    (hfound : (h.attempts r)[k]? = some b) (htask : b.isBubble = false) :
    h.withId id = .ok b := by
  rw [place?] at hplace
  simp only [withId, hplace, hfound, htask]
  rfl

theorem Logs.withId_of_isLatest {before : List Attempt} {a : Attempt} (hlogs : h.Logs log)
    (hlatest : Attempt.IsLatest log id before a) :
    ∃ b, h.withId id = .ok b ∧ b.unsaid = a.unsaid ∧ b.isBubble = false ∧
      h.place? id = some (a.reference, before.countP (·.reference = a.reference)) ∧
      (h.attempts a.reference)[before.countP (·.reference = a.reference)]? = some b := by
  have hplace := hlogs.known id before a hlatest
  obtain ⟨after, hlog, hbears, -⟩ := hlatest
  obtain ⟨b, hfound, hsame⟩ := hlogs.getElem?_attempts hlog
  have htask : b.isBubble = false := (Attempt.isBubble_eq_of_unsaid hsame).trans hbears.1
  exact ⟨b, withId_eq_ok hplace hfound htask, hsame, htask, hplace, hfound⟩

theorem Logs.withId_of_unknown (hlogs : h.Logs log) (hnone : ∀ a ∈ log, ¬ a.Bears id) :
    h.place? id = none ∧ h.withId id = .error (.notFound .taskId id) := by
  have hplace := hlogs.unknown id hnone
  refine ⟨hplace, ?_⟩
  rw [place?] at hplace
  simp only [withId, hplace]
  rfl

/-- **Ids find what was added last.** In a history that was come by in any way, an id finds the
last attempt of a task that was added under it, at its place among the attempts of its reference,
and nothing is found if and only if there is none. A place that is kept for an id is never missing,
and never that of a bubble's attempt. -/
theorem Reached.withId_finds (hh : Reached log h) (id : String) :
    (∀ before a, Attempt.IsLatest log id before a → ∃ b, h.withId id = .ok b ∧
      b.unsaid = a.unsaid ∧
      h.place? id = some (a.reference, before.countP (·.reference = a.reference)) ∧
      (h.attempts a.reference)[before.countP (·.reference = a.reference)]? = some b) ∧
    (h.withId id = .error (.notFound .taskId id) ↔ ∀ a ∈ log, ¬ a.Bears id) ∧
    (∀ e, h.withId id = .error e → e = .notFound .taskId id) ∧
    ∀ r k, h.place? id = some (r, k) → ∃ b, (h.attempts r)[k]? = some b ∧ b.isBubble = false := by
  have hlogs := hh.logs
  refine ⟨fun before a hlatest => ?_, ?_⟩
  · obtain ⟨b, hfinds, hsame, -, hplace, hfound⟩ := hlogs.withId_of_isLatest hlatest
    exact ⟨b, hfinds, hsame, hplace, hfound⟩
  rcases Attempt.exists_isLatest log id with ⟨before, a, hlatest⟩ | hnone
  · obtain ⟨b, hfinds, -, htask, hplace, hfound⟩ := hlogs.withId_of_isLatest hlatest
    have hmem : ∃ a ∈ log, a.Bears id := by
      obtain ⟨after, hlog, hbears, -⟩ := hlatest
      exact ⟨a, by simp [hlog], hbears⟩
    rw [hfinds, hplace]
    refine ⟨⟨nofun, fun hnone => ?_⟩, nofun, fun r k hkept => ?_⟩
    · obtain ⟨a, ha, hbears⟩ := hmem
      exact absurd hbears (hnone a ha)
    · cases hkept
      exact ⟨b, hfound, htask⟩
  · obtain ⟨hplace, herror⟩ := hlogs.withId_of_unknown hnone
    rw [herror, hplace]
    refine ⟨iff_of_true rfl hnone, fun e he => ?_, nofun⟩
    cases he
    rfl

end History

namespace Sample

/-- A fork and its child, which failed. -/
def triedChild : List Attempt :=
  [.bare (some "t") "m" .fork .completed,
    { Attempt.bare (some "u") "c" .simple .failed with parent := some "m" }]

/-- The child is tried again under the id of the fork. -/
def triedAgain : Attempt := .bare (some "t") "c" .simple .completed

/-- A bubble's attempt that has the id as well. -/
def bubbleWithId : Attempt := { Attempt.bubble "c" .completed with id := some "t" }

end Sample

/-- The child takes the id over, and the bubble does not. -/
theorem History.Reached.withId_finds_of_reused : ∃ h,
    Reached (Sample.triedChild ++ bubbles .running Sample.triedChild ++ [Sample.triedAgain] ++
      [Sample.bubbleWithId]) h ∧
    (∃ b, h.withId "t" = .ok b ∧ b.unsaid = Sample.triedAgain ∧ h.place? "t" = some ("c", 1)) ∧
    h.withId "v" = .error (.notFound .taskId "v") := by
  have hbind : ofAttempts .running Sample.triedChild =
      .ok ((ofAttempts .running Sample.triedChild).toOption.getD .empty) :=
    Outcome.eq_ok_of_isOk (by decide +kernel) _
  have hreached := ((Reached.bound hbind).add Sample.triedAgain).add Sample.bubbleWithId
  have hlatest : Attempt.IsLatest (Sample.triedChild ++ bubbles .running Sample.triedChild ++
      [Sample.triedAgain] ++ [Sample.bubbleWithId]) "t"
      (Sample.triedChild ++ bubbles .running Sample.triedChild) Sample.triedAgain :=
    ⟨[Sample.bubbleWithId], by simp, by decide, by decide⟩
  obtain ⟨b, hfinds, hsame, hplace, -⟩ := (hreached.withId_finds "t").1 _ _ hlatest
  refine ⟨_, hreached, ⟨b, hfinds, hsame, ?_⟩, (hreached.withId_finds "v").2.1.mpr (by decide)⟩
  rw [hplace]
  decide

end Flowchart

import Flowchart.Proofs.WrittenTasks

/-!
# Members that are kept

What is read of an object and written again has each key once, and behind its own members it has all
members that nothing reads. Each task of a tree has an object in the value that was read and one in
the value that is written, and one path leads to both.
-/

namespace Flowchart

/-! ### Places in values

A path leads through a value as it leads through the tree. Each segment names an item of an array,
and then the member of that object which holds the sequences of one branch.
-/

namespace Json

def item? (i : Nat) : Json → Option Json
  | arr items => items[i]?
  | _ => none

/-- The value of a sequence, in the object of the task that owns it. -/
def branch? (j : Json) : Branch → Option Json
  | .fork i => (j.member? Kind.branchesKey).bind (item? i)
  | .case key => (j.member? Kind.casesKey).bind (member? · key)
  | .default => j.member? Kind.defaultKey
  | .loopBody => j.member? Kind.bodyKey

/-- Goes the way of a path through the value of a sequence. -/
def follow? : List Segment → Json → Option Json
  | [], j => some j
  | s :: rest, j => do follow? rest (← (← j.item? s.index).branch? s.branch)

/-- The value of the task at an index of the sequence that a path leads to. -/
def task? (j : Json) (segments : List Segment) (i : Nat) : Option Json :=
  (j.follow? segments).bind (item? i)

theorem follow?_cons {j task value : Json} {segment : Segment} {rest : List Segment}
    (htask : j.item? segment.index = some task) (hvalue : task.branch? segment.branch = some value) :
    j.follow? (segment :: rest) = value.follow? rest := by
  rw [follow?, htask]
  change (task.branch? segment.branch).bind (follow? rest) = _
  rw [hvalue, Option.bind_some]

variable {j : Json} {d : Doc} {flaw : Option Flaw}

theorem exists_item {items : List Doc} {i : Nat} (hj : j.distinct = true)
    (h : Doc.ofJson j = .arr items flaw) (hd : items[i]? = some d) :
    ∃ j', j.item? i = some j' ∧ j'.distinct = true ∧ d = Doc.ofJson j' := by
  cases j with
  | arr values =>
    cases h
    rw [Doc.ofItems_eq, List.getElem?_map] at hd
    obtain ⟨j', hj', rfl⟩ := Option.map_eq_some_iff.mp hd
    exact ⟨j', hj', distinct_arr.mp hj j' (List.mem_of_getElem? hj'), rfl⟩
  | _ => cases h

theorem exists_member {members : Members} {key : String} (hj : j.distinct = true)
    (h : Doc.ofJson j = .obj members flaw) (hd : (key, d) ∈ members) :
    ∃ j', j.member? key = some j' ∧ j'.distinct = true ∧ d = Doc.ofJson j' := by
  cases j with
  | obj values =>
    cases h
    rw [Doc.ofMembers_eq] at hd
    obtain ⟨⟨key, j'⟩, hj', heq⟩ := List.mem_map.mp hd
    cases heq
    obtain ⟨hkeys, hvalues⟩ := distinct_obj.mp hj
    exact ⟨j', Dict.get?_of_mem hkeys hj', hvalues _ hj', rfl⟩
  | _ => cases h

/-- A document in a value is a value in it. -/
theorem exists_branch_of_at {branch : Branch} (hj : j.distinct = true)
    (h : Doc.At branch (Doc.ofJson j) d) :
    ∃ j', j.branch? branch = some j' ∧ j'.distinct = true ∧ d = Doc.ofJson j' := by
  generalize hdoc : Doc.ofJson j = whole at h
  cases h with
  | fork hd hitem =>
    obtain ⟨value, hvalue, hdistinct, hitems⟩ := exists_member hj hdoc (Dict.mem_of_get? hd)
    rw [branch?, hvalue]
    exact exists_item hdistinct hitems.symm hitem
  | case hd hcase =>
    obtain ⟨value, hvalue, hdistinct, hcases⟩ := exists_member hj hdoc (Dict.mem_of_get? hd)
    rw [branch?, hvalue]
    exact exists_member hdistinct hcases.symm hcase
  | default hd => exact exists_member hj hdoc (Dict.mem_of_get? hd)
  | loopBody hd => exact exists_member hj hdoc (Dict.mem_of_get? hd)

end Json

/-- What is written for an object that was read: each key once, and behind the modelled members all
members that are not modelled. -/
structure KeptIn (keys : List String) (read written : List (String × Json)) : Prop where
  nodup : (Dict.keys written).Nodup
  kept : ∃ own, written = own ++ unmodelled keys read ∧ ∀ key ∈ Dict.keys own, key ∈ keys

theorem keptIn_written {slots : List (String × Option Json)} {read : List (String × Json)}
    (hslots : (slots.map (·.1)).Nodup) (hread : (Json.obj read).distinct = true) :
    KeptIn (slots.map (·.1)) read
      (writtenMembers slots ++ unmodelled (slots.map (·.1)) read) where
  nodup := by
    refine nodup_keys_written (List.nodup_append.mpr ⟨hslots, ?_, ?_⟩)
    · exact (Json.distinct_obj.mp (distinct_unmodelled hread)).1
    · rintro key hkey _ hmem rfl
      obtain ⟨m, hm, rfl⟩ := List.mem_map.mp hmem
      exact of_decide_eq_true (List.mem_filter.mp hm).2 hkey
  kept := ⟨_, rfl, fun _ => mem_keys_writtenMembers⟩

namespace Task

/-- The keys of the members that a task has for itself. -/
def ownKeys (t : Task) : List String := t.slots.map (·.1)

/-- The values are objects, and what the first one has beside the members of the task is kept in
the second one: also what is a field of other kinds only. -/
structure KeptFrom (t : Task) (read written : Json) : Prop where
  kept : ∃ members members', read = .obj members ∧ written = .obj members' ∧
    KeptIn t.ownKeys members members'
  foreign : ∀ (k : Kind (List Json)) key value, key ∈ k.slots.map (·.1) →
    key ∉ (t.kind.map (List.map toJson)).slots.map (·.1) → read.member? key = some value →
      key ∉ t.ownKeys ∧ written.member? key = some value

theorem ReadFrom.extra_eq {members : List (String × Json)} {t : Task}
    (h : ReadFrom (Doc.ofMembers members) t) (hmembers : (Json.obj members).distinct = true) :
    t.extra = unmodelled t.ownKeys members := by
  obtain ⟨others, hothers, hextra⟩ := h.extra
  rw [Doc.memberValues_unmodelled hmembers] at hothers
  obtain rfl := Except.ok.inj hothers
  rw [hextra, Dict.ofEntries_eq_self (Json.distinct_obj.mp (distinct_unmodelled hmembers)).1,
    ownKeys, keys_slots, modelledKeys, ← unmodelled_unmodelled]
  rfl

/-- No field of a kind is called like a member that every task has. -/
theorem not_mem_header {k : Kind (List Json)} {key : String} (h : key ∈ k.slots.map (·.1)) :
    key ∉ Dict.keys checks ∧ key ≠ Kind.typeKey := by
  rw [Kind.keys_slots] at h
  obtain ⟨-, htype, hapart⟩ := List.nodup_append.mp (nodup_modelledKeys k.type)
  refine ⟨fun hmem => hapart key hmem key (List.mem_cons_of_mem _ h) rfl, ?_⟩
  rintro rfl
  exact (List.nodup_cons.mp htype).1 h

theorem keptFrom_of_ofDoc {j : Json} {t : Task} (hj : j.distinct = true)
    (h : ofDoc (Doc.ofJson j) = .ok t) : t.KeptFrom j t.toJson := by
  obtain ⟨members, flaw, hdoc, hread⟩ := ofDoc_ok h
  cases j with
  | obj read =>
    cases hdoc
    have hextra := hread.extra_eq hj
    have hkept := keptIn_written (t.keys_slots ▸ nodup_modelledKeys t.type) hj
    rw [← ownKeys, ← hextra] at hkept
    refine ⟨⟨read, _, rfl, t.toJson_eq_written, hkept⟩, fun k key value hkey hother hvalue => ?_⟩
    obtain ⟨hheader, htype⟩ := not_mem_header hkey
    have hown : key ∉ t.ownKeys := by
      rw [ownKeys, slots, List.map_append, List.map_cons, List.mem_append, List.mem_cons]
      rintro (hmem | heq | hmem)
      · exact hheader hmem
      · exact htype heq
      · exact hother hmem
    refine ⟨hown, ?_⟩
    rw [toJson_eq_written]
    refine Dict.get?_of_mem hkept.nodup (List.mem_append_right _ ?_)
    rw [hextra]
    exact List.mem_filter.mpr ⟨Dict.mem_of_get? hvalue, decide_eq_true hown⟩
  | _ => cases hdoc

variable {segments : List Segment} {tasks s : List Task} {i : Nat} {u : Task}

/-- The value of a task inside a sequence that was read is where the path says, and the task was
read from it. -/
theorem exists_task_of_sequenceOfDoc {j : Json} (hj : j.distinct = true)
    (h : sequenceOfDoc (Doc.ofJson j) = .ok tasks)
    (hs : TreePath.follow? segments tasks = some s) (hu : s[i]? = some u) :
    ∃ j', j.task? segments i = some j' ∧ j'.distinct = true ∧ ofDoc (Doc.ofJson j') = .ok u := by
  have hitem : ∀ {j : Json} {tasks : List Task} {i : Nat} {u : Task}, j.distinct = true →
      sequenceOfDoc (Doc.ofJson j) = .ok tasks → tasks[i]? = some u →
        ∃ j', j.item? i = some j' ∧ j'.distinct = true ∧ ofDoc (Doc.ofJson j') = .ok u := by
    intro j tasks i u hj h hu
    obtain ⟨items, flaw, hdoc, hitems⟩ := Reading.tasks_ok h
    obtain ⟨d, hd, hread⟩ := hitems i u hu
    obtain ⟨j', hj', hdistinct, rfl⟩ := Json.exists_item hj hdoc hd
    exact ⟨j', hj', hdistinct, hread⟩
  induction segments generalizing j tasks with
  | nil =>
    obtain rfl := Option.some.inj hs
    exact hitem hj h hu
  | cons segment rest ih =>
    obtain ⟨t, q, ht, hq, hs⟩ := TreePath.follow?_cons_eq_some.mp hs
    obtain ⟨value, hvalue, hdistinct, hread⟩ := hitem hj h ht
    obtain ⟨members, flaw, hdoc, hfrom⟩ := ofDoc_ok hread
    rcases Kind.at_of_ofFields flaw hfrom.kind hq with rfl | ⟨d, hd, hsequence⟩
    · cases rest with
      | nil =>
        obtain rfl := Option.some.inj hs
        cases hu
      | cons => cases hs
    · rw [← hdoc] at hd
      obtain ⟨inner, hinner, hinnerDistinct, rfl⟩ := Json.exists_branch_of_at hdistinct hd
      obtain ⟨j', hj', hfound⟩ := ih hinnerDistinct hsequence hs
      refine ⟨j', ?_, hfound⟩
      rw [Json.task?, Json.follow?_cons hvalue hinner]
      exact hj'

theorem member?_toJson {t : Task} (ht : t.Proper) {slot : String × Option Json}
    (h : slot ∈ (t.kind.map (List.map toJson)).slots) : t.toJson.member? slot.1 = slot.2 := by
  rw [toJson_eq_written]
  exact get?_written (nodup_slots ht) (List.mem_append_right _ (List.mem_cons_of_mem _ h))

/-- The sequence at a branch is written where the branch is read. -/
theorem branch?_toJson {t : Task} {branch : Branch} {q : List Task} (ht : t.Proper)
    (hq : t.kind.get? branch = some q) : t.toJson.branch? branch = some (sequenceToJson q) := by
  have hmember : ∀ slot ∈ (t.kind.map (List.map toJson)).slots,
      t.toJson.member? slot.1 = slot.2 := fun _ => member?_toJson ht
  generalize t.toJson = j at hmember ⊢
  generalize t.kind = k at hq hmember
  unfold Kind.get? at hq
  split at hq
  · next branches i =>
    have hbranches : j.member? Kind.branchesKey =
        some (.arr ((branches.map (List.map toJson)).map .arr)) := hmember _ List.mem_cons_self
    rw [Json.branch?, hbranches, Option.bind_some, Json.item?, List.getElem?_map,
      List.getElem?_map, hq]
    rfl
  · next form switch key =>
    have hcases : j.member? Kind.casesKey = some (.obj ((switch.map (List.map toJson)).cases.map
        fun c => (c.1, .arr c.2))) :=
      hmember (Kind.casesKey, some _) (by simp [Kind.map, Kind.slots])
    rw [Json.branch?, hcases, Option.bind_some, Json.member?, Dict.get?_map, Switch.map,
      Dict.get?_map, hq]
    rfl
  · next form switch =>
    obtain rfl := Option.some.inj hq
    exact hmember (Kind.defaultKey, some (sequenceToJson _))
      (by simp [Kind.map, Kind.slots, Switch.map, sequenceToJson])
  · next condition body =>
    obtain rfl := Option.some.inj hq
    exact hmember (Kind.bodyKey, some (sequenceToJson _))
      (by simp [Kind.map, Kind.slots, sequenceToJson])
  · cases hq

theorem task?_sequenceToJson (hs : TreePath.follow? segments tasks = some s)
    (hu : s[i]? = some u) (hproper : ∀ t ∈ listing tasks, t.Proper) :
    (sequenceToJson tasks).task? segments i = some u.toJson := by
  have hitem : ∀ {s : List Task} {i : Nat} {u : Task}, s[i]? = some u →
      (sequenceToJson s).item? i = some u.toJson := by
    intro s i u hu
    rw [sequenceToJson, Json.item?, List.getElem?_map, hu]
    rfl
  induction segments generalizing tasks with
  | nil =>
    obtain rfl := Option.some.inj hs
    exact hitem hu
  | cons segment rest ih =>
    obtain ⟨t, q, ht, hq, hs⟩ := TreePath.follow?_cons_eq_some.mp hs
    have hmem := List.mem_of_getElem? ht
    have hfamily : ∀ v ∈ listing q, v ∈ listing tasks := fun v hv =>
      mem_listing.mpr ⟨t, hmem, mem_family.mpr (Or.inr ⟨q, Kind.mem_sequences_of_get? hq, hv⟩)⟩
    have htProper := hproper t (mem_listing.mpr ⟨t, hmem, mem_family.mpr (Or.inl rfl)⟩)
    rw [Json.task?, Json.follow?_cons (hitem ht) (branch?_toJson htProper hq)]
    exact ih hs fun v hv => hproper v (hfamily v hv)

theorem exists_place_of_family (t : Task) : Throughout Kind.Keyed [t] → u ∈ t.family →
    ∀ {tasks : List Task} {k : Nat}, tasks[k]? = some t →
      ∃ (segments : List Segment) (s : List Task) (i : Nat),
        TreePath.follow? segments tasks = some s ∧ s[i]? = some u := by
  induction t using Task.induction with
  | step t ih =>
    intro ht hu tasks k hk
    rcases mem_family.mp hu with rfl | ⟨q, hq, hinside⟩
    · exact ⟨[], tasks, k, rfl, hk⟩
    · obtain ⟨hkeyed, hinner⟩ := throughout_iff.mp ht t List.mem_cons_self
      obtain ⟨v, hv, hfamily⟩ := mem_listing.mp hinside
      obtain ⟨j, hj⟩ := List.mem_iff_getElem?.mp hv
      have hvKeyed : Throughout Kind.Keyed [v] :=
        (hinner q hq).of_subset fun w hw => List.mem_singleton.mp hw ▸ hv
      obtain ⟨segments, s, i, hs, hi⟩ := ih q hq v hv hvKeyed hfamily hj
      rw [Kind.sequences_eq_parts] at hq
      obtain ⟨⟨branch, q⟩, hpart, rfl⟩ := List.mem_map.mp hq
      have hget := Kind.get?_of_mem_parts hkeyed hpart
      exact ⟨⟨k, branch⟩ :: segments, s, i,
        TreePath.follow?_cons_eq_some.mpr ⟨t, q, hk, hget, hs⟩, hi⟩

/-- Every task of a tree with distinct cases is at the end of a path. -/
theorem exists_place (htasks : Throughout Kind.Keyed tasks) (hu : u ∈ listing tasks) :
    ∃ (segments : List Segment) (s : List Task) (i : Nat),
      TreePath.follow? segments tasks = some s ∧ s[i]? = some u := by
  obtain ⟨t, ht, hfamily⟩ := mem_listing.mp hu
  obtain ⟨k, hk⟩ := List.mem_iff_getElem?.mp ht
  have htKeyed : Throughout Kind.Keyed [t] :=
    htasks.of_subset fun w hw => List.mem_singleton.mp hw ▸ ht
  exact exists_place_of_family t htKeyed hfamily hk

end Task

/-- Each task of the tree has a place, and has its object there in both values of the sequence. The
second of them keeps what the task does not have for itself. -/
structure KeptThroughout (tasks : List Task) (read written : Json) : Prop where
  placed : ∀ u ∈ listing tasks, ∃ (segments : List Segment) (s : List Task) (i : Nat),
    TreePath.follow? segments tasks = some s ∧ s[i]? = some u
  kept : ∀ (segments : List Segment) (s : List Task) (i : Nat) (u : Task),
    TreePath.follow? segments tasks = some s → s[i]? = some u →
      ∃ j j', read.task? segments i = some j ∧ written.task? segments i = some j' ∧
        u.KeptFrom j j'

theorem keptThroughout {j : Json} {tasks : List Task} (hj : j.distinct = true)
    (h : Task.sequenceOfDoc (Doc.ofJson j) = .ok tasks) :
    KeptThroughout tasks j (Task.sequenceToJson tasks) := by
  have hkeyed : Throughout Kind.Keyed tasks := (Reading.keyed_ofDoc _).tasks tasks h
  have hread : ∀ segments s, ∀ i : Nat, ∀ u, TreePath.follow? segments tasks = some s →
      s[i]? = some u → ∃ j', j.task? segments i = some j' ∧ j'.distinct = true ∧
        Task.ofDoc (Doc.ofJson j') = .ok u := fun segments s i u hs hu =>
    Task.exists_task_of_sequenceOfDoc hj h hs hu
  have hproper : ∀ t ∈ listing tasks, t.Proper := by
    intro t ht
    obtain ⟨segments, s, i, hs, hi⟩ := Task.exists_place hkeyed ht
    obtain ⟨j', -, -, hj'⟩ := hread segments s i t hs hi
    exact Task.proper_of_ofDoc hj'
  refine ⟨fun u => Task.exists_place hkeyed, fun segments s i u hs hu => ?_⟩
  obtain ⟨j', hplace, hdistinct, hj'⟩ := hread segments s i u hs hu
  exact ⟨j', u.toJson, hplace, Task.task?_sequenceToJson hs hu hproper,
    Task.keptFrom_of_ofDoc hdistinct hj'⟩

namespace Definition

def ownKeys (w : Definition) : List String := w.slots.map (·.1)

/-- The values are objects, and what the first one has beside the members of the definition is kept
in the second one, as it is in the objects of all tasks. -/
structure KeptFrom (w : Definition) (read written : Json) : Prop where
  kept : ∃ members members', read = .obj members ∧ written = .obj members' ∧
    KeptIn w.ownKeys members members'
  tasks : w.tasks = [] ∨ ∃ j j', read.member? tasksField.key = some j ∧
    written.member? tasksField.key = some j' ∧ KeptThroughout w.tasks j j'

theorem keptFrom_of_ofDoc {j : Json} {w : Definition} (hj : j.distinct = true)
    (h : ofDoc (Doc.ofJson j) = .ok w) : w.KeptFrom j w.toJson := by
  obtain ⟨members, flaw, hdoc, hread⟩ := ofDoc_ok h
  cases j with
  | obj read =>
    cases hdoc
    have hextra : w.extra = unmodelled w.ownKeys read := by
      obtain ⟨others, hothers, hextra⟩ := hread.extra
      rw [Doc.memberValues_unmodelled hj] at hothers
      obtain rfl := Except.ok.inj hothers
      rw [hextra, Dict.ofEntries_eq_self (Json.distinct_obj.mp (distinct_unmodelled hj)).1]
      rfl
    have hkept := keptIn_written (List.nodup_append.mp hread.nodup_slots).1 hj
    rw [← ownKeys, ← hextra] at hkept
    refine ⟨⟨read, _, rfl, w.toJson_eq_written, hkept⟩, ?_⟩
    rcases Field.get_ok hread.tasks with ⟨d, hd, htasks⟩ | ⟨-, hmissing⟩
    · obtain ⟨value, hvalue, hdistinct, rfl⟩ := Json.exists_member hj rfl (Dict.mem_of_get? hd)
      refine Or.inr ⟨value, Task.sequenceToJson w.tasks, hvalue, ?_,
        keptThroughout hdistinct htasks⟩
      have hslot : tasksField.slot w.tasks ∈ w.slots := by simp [slots]
      rw [toJson_eq_written]
      exact get?_written hread.nodup_slots hslot
    · exact Or.inl (Option.some.inj hmissing).symm
  | _ => cases hdoc

end Definition

/-- **Members are kept.** In what is written for a task or a definition that was read from any value
or text, no key comes twice in one object. If no key comes twice in what was read either, then in
the object that is written for it, and in the object of each task inside it, all other members of
the object that was read stand behind those that a task or a definition has for itself, with their
values and in their order. The fields of other kinds are among the other members. -/
theorem keptMembers :
    ((∀ d t, Task.ofDoc d = .ok t → t.toJson.distinct = true) ∧
      ∀ d w, Definition.ofDoc d = .ok w → w.toJson.distinct = true) ∧
    ∀ j : Json, j.distinct = true →
      (∀ t, Task.ofDoc (Doc.ofJson j) = .ok t →
        KeptThroughout [t] (.arr [j]) (Task.sequenceToJson [t])) ∧
      ∀ w, Definition.ofDoc (Doc.ofJson j) = .ok w → w.KeptFrom j w.toJson := by
  refine ⟨⟨fun _ t h => (t.readAgain_of_ofDoc h).1,
    fun _ _ h => (Definition.readAgain_of_ofDoc h).1⟩, fun j hj => ⟨fun t ht => ?_, fun w hw =>
      Definition.keptFrom_of_ofDoc hj hw⟩⟩
  have hread : [Reading.ofDoc (Doc.ofJson j)].mapM (·.task) = .ok [t] := by
    change (Reading.ofDoc (Doc.ofJson j)).task = .ok t at ht
    rw [List.mapM_cons, ht]
    rfl
  refine keptThroughout (Json.distinct_arr.mpr (List.forall_mem_singleton.mpr hj)) ?_
  change ([Reading.ofDoc (Doc.ofJson j)].mapM (·.task) >>= _) = _
  rw [hread]
  rfl

theorem keptMembers_of_order :
    Sample.orderValue.distinct = true ∧
      Task.ofDoc (Doc.ofJson Sample.routeValue) = .ok Sample.route ∧
      Definition.ofDoc (Doc.ofJson Sample.orderValue) = .ok Sample.order ∧
      Sample.route.toJson.distinct = true ∧ Sample.order.toJson.distinct = true ∧
      KeptThroughout [Sample.route] (.arr [Sample.routeValue]) (Task.sequenceToJson [Sample.route]) ∧
      Sample.order.KeptFrom Sample.orderValue Sample.order.toJson := by
  have hroute : Task.ofDoc (Doc.ofJson Sample.routeValue) = .ok Sample.route :=
    Outcome.eq_ok_of_isOk (by decide +kernel) _
  have horder : Definition.ofDoc (Doc.ofJson Sample.orderValue) = .ok Sample.order :=
    Outcome.eq_ok_of_isOk (by decide +kernel) _
  have hdistinct : Sample.orderValue.distinct = true := by decide +kernel
  have hdistinct' : Sample.routeValue.distinct = true := by decide +kernel
  exact ⟨hdistinct, hroute, horder, keptMembers.1.1 _ _ hroute, keptMembers.1.2 _ _ horder,
    (keptMembers.2 _ hdistinct').1 _ hroute, (keptMembers.2 _ hdistinct).2 _ horder⟩

end Flowchart

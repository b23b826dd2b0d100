import Flowchart.Definition.Basic
import Flowchart.Proofs.TaskDocuments

/-!
# Definitions that are written are read again

The object that is written for a task has the slots of the task, with what was only kept behind
them. The table of the keys of each type says which members were not kept, so that none of those is
written twice. Sequences in it are read again as far as the tasks in them are, which is an
induction on the tree.
-/

namespace Flowchart

namespace Kind

/-- The slots of the fields of a kind. -/
def slots : Kind (List Json) → List (String × Option Json)
  | join on | exclusiveJoin on => [joinOnField.slot on]
  | subWorkflow param => [subWorkflowField.slot param]
  | event sink => [sinkField.slot sink]
  | fork branches => [(branchesKey, some (.arr (branches.map .arr)))]
  | dynamicFork tasksParam inputParam =>
    [tasksParamField.slot tasksParam, inputParamField.slot inputParam]
  | switch _ s =>
    [evaluatorField.slot s.evaluator, expressionField.slot s.expression,
      caseParamField.slot s.caseParam,
      (casesKey, some (.obj (s.cases.map fun c => (c.1, .arr c.2)))),
      (defaultKey, some (.arr s.otherwise))]
  | loop condition body => [conditionField.slot condition, (bodyKey, some (.arr body))]
  | loopEnd r => [loopField.slot r]
  | worker _ | terminate | marker _ => []

theorem fields_eq (k : Kind (List Json)) : k.fields = writtenMembers k.slots := by
  cases k <;> simp [fields, slots]

/-- The table of the keys of a type agrees with what is written for its kinds. -/
theorem keys_slots (k : Kind (List Json)) : k.slots.map (·.1) = k.type.fieldKeys := by
  cases k with
  | worker w => cases w <;> rfl
  | switch form s => cases form <;> rfl
  | marker m => cases m <;> rfl
  | _ => rfl

theorem type_map {σ τ : Type} (f : σ → τ) (k : Kind σ) : (k.map f).type = k.type := by
  cases k <;> rfl

theorem typeOfDoc_name (k : Kind (List Task)) : typeOfDoc (.str k.type.name) = .ok k.type := by
  cases k with
  | worker w => cases w <;> rfl
  | switch form s => cases form <;> rfl
  | marker m => cases m <;> rfl
  | _ => rfl

/-- What can be in a kind that was read. -/
structure Proper (k : Kind (List Task)) : Prop where
  keyed : k.Keyed
  param : ∀ param, k = .subWorkflow param → param.distinct = true

end Kind

section

variable {s : List Task} {branches : List (List Task)} {cases : List (String × List Task)}

theorem Task.readAgain_sequence (h : ∀ u ∈ s, ReadAgain Task.ofDoc Task.toJson u) :
    ReadAgain Task.sequenceOfDoc (fun s => .arr (s.map Task.toJson)) s := by
  constructor
  · rw [Json.distinct_arr, List.forall_mem_map]
    exact fun u hu => (h u hu).1
  · have hread : (Reading.ofItems (Doc.ofItems (s.map Task.toJson))).mapM (·.task) = .ok s := by
      rw [Reading.ofItems_eq, ← mapM_ofJson fun u hu => (h u hu).2, List.mapM_map]
      rfl
    change ((Reading.ofItems (Doc.ofItems (s.map Task.toJson))).mapM (·.task) >>= _) = _
    rw [hread]
    rfl

theorem Reading.branches_written (h : ∀ s ∈ branches, ∀ u ∈ s, ReadAgain Task.ofDoc Task.toJson u) :
    ReadAgain (fun d => (Reading.ofDoc d).branches)
      (fun branches => .arr ((branches.map (List.map Task.toJson)).map .arr)) branches := by
  constructor
  · rw [Json.distinct_arr, List.map_map, List.forall_mem_map]
    exact fun s hs => (Task.readAgain_sequence (h s hs)).1
  · have hread : (Reading.ofItems (Doc.ofItems
        ((branches.map (List.map Task.toJson)).map .arr))).mapM (·.tasks) = .ok branches := by
      rw [Reading.ofItems_eq, List.map_map,
        ← mapM_ofJson fun s hs => (Task.readAgain_sequence (h s hs)).2, List.mapM_map]
      rfl
    change (List.mapM _ _ >>= _) = _
    rw [hread]
    rfl

theorem Reading.cases_written (hnodup : (Dict.keys cases).Nodup)
    (h : ∀ c ∈ cases, ∀ u ∈ c.2, ReadAgain Task.ofDoc Task.toJson u) :
    ReadAgain (fun d => (Reading.ofDoc d).cases)
      (fun cases => .obj (cases.map fun c => (c.1, .arr (c.2.map Task.toJson)))) cases := by
  constructor
  · refine Json.distinct_obj.mpr ⟨?_, ?_⟩
    · rw [Dict.keys, List.map_map]
      exact hnodup
    · rw [List.forall_mem_map]
      exact fun c hc => (Task.readAgain_sequence (h c hc)).1
  · have hread : (Reading.ofMembers (Doc.ofMembers
        (cases.map fun c => (c.1, .arr (c.2.map Task.toJson))))).mapM
          (fun r => do pure (r.1, ← r.2.tasks)) = (.ok cases : Except Fault _) := by
      clear hnodup
      induction cases with
      | nil => rfl
      | cons c rest ih =>
        obtain ⟨hfirst, hrest⟩ := List.forall_mem_cons.mp h
        have htasks := (Task.readAgain_sequence hfirst).2
        unfold Task.sequenceOfDoc at htasks
        rw [List.map_cons, Doc.ofMembers, Reading.ofMembers, List.mapM_cons, htasks, ih hrest]
        rfl
    change (List.mapM _ _ >>= _) = _
    rw [hread]
    exact congrArg Except.ok (Dict.ofEntries_eq_self hnodup)

end

namespace Kind

variable {k : Kind (List Task)}

theorem distinct_slots (hk : k.Proper)
    (hinner : ∀ s ∈ k.sequences, ∀ u ∈ s, ReadAgain Task.ofDoc Task.toJson u) :
    ∀ slot ∈ (k.map (List.map Task.toJson)).slots, ∀ j, slot.2 = some j → j.distinct = true := by
  have hfield : ∀ {α : Type} {field : Field α} {a : α}, field.Keeps a →
      ∀ j, (field.slot a).2 = some j → j.distinct = true := fun h j hj => (h.written j hj).1
  have hsome : ∀ {j : Json}, j.distinct = true → ∀ j', some j = some j' → j'.distinct = true :=
    fun h j' hj => Option.some.inj hj ▸ h
  have hnone : ∀ slot ∈ ([] : List (String × Option Json)), ∀ j, slot.2 = some j →
      j.distinct = true := fun _ hslot => absurd hslot List.not_mem_nil
  cases k with
  | worker w | marker m | terminate => exact hnone
  | join on | exclusiveJoin on =>
    exact List.forall_mem_singleton.mpr (hfield (Field.keeps_many (readAgain_strings on)))
  | subWorkflow param =>
    exact List.forall_mem_singleton.mpr (hfield (Field.keeps_payload (hk.param param rfl)))
  | event sink => exact List.forall_mem_singleton.mpr (hfield (Field.keeps_string _ sink))
  | loopEnd r =>
    exact List.forall_mem_singleton.mpr (hfield (Field.keeps_required (readAgain_string r)))
  | fork branches =>
    exact List.forall_mem_singleton.mpr (hsome (Reading.branches_written hinner).1)
  | dynamicFork tasksParam inputParam =>
    simp only [map, slots, List.forall_mem_cons]
    exact ⟨hfield (Field.keeps_string _ _), hfield (Field.keeps_string _ _), hnone⟩
  | loop condition body =>
    simp only [map, slots, List.forall_mem_cons]
    exact ⟨hfield (Field.keeps_string _ _),
      hsome (Task.readAgain_sequence (hinner body List.mem_cons_self)).1, hnone⟩
  | switch form s =>
    obtain ⟨hdefault, hcases⟩ := List.forall_mem_cons.mp hinner
    have hwritten := Reading.cases_written (hk.keyed s rfl) (List.forall_mem_map.mp hcases)
    simp only [map, Switch.map, slots, List.forall_mem_cons, List.map_map]
    exact ⟨hfield (Field.keeps_string _ _), hfield (Field.keeps_string _ _),
      hfield (Field.keeps_string _ _), hsome hwritten.1,
      hsome (Task.readAgain_sequence hdefault).1, hnone⟩

theorem repeats_eq_false {keys : List String} {members : Members}
    (h : (members.map (·.1)).Nodup) : repeats keys members = false := by
  refine List.any_eq_false.mpr fun key _ => ?_
  have hcount := List.nodup_iff_count_le_one.mp h key
  rw [List.count, List.countP_map] at hcount
  exact fun hmany => absurd (of_decide_eq_true hmany) (Nat.not_lt.mpr hcount)

variable {slots : List (String × Option Json)} {others : List (String × Json)}

theorem get_written {α : Type} {part : Reading → Except Fault (List α)} {as : List α} {key : String}
    {j : Json} (hnodup : (slots.map (·.1) ++ Dict.keys others).Nodup)
    (hmem : (key, some j) ∈ slots) (hread : part (Reading.ofDoc (Doc.ofJson j)) = .ok as) :
    Reading.get part (Reading.ofMembers (Doc.ofMembers (writtenMembers slots ++ others))) key =
      .ok as := by
  unfold Reading.get
  rw [Reading.get?_ofMembers, Doc.get?_ofMembers, get?_written hnodup hmem]
  exact hread

theorem switchOfFields_written {form : SwitchForm} {s : Switch (List Task)}
    (hkeyed : (Dict.keys s.cases).Nodup)
    (hinner : ∀ q ∈ (Kind.switch form s).sequences, ∀ u ∈ q, ReadAgain Task.ofDoc Task.toJson u)
    (hnodup : (slots.map (·.1) ++ Dict.keys others).Nodup)
    (hslots : ∀ slot ∈ ((Kind.switch form s).map (List.map Task.toJson)).slots, slot ∈ slots) :
    ofFields.switchOfFields (Doc.ofMembers (writtenMembers slots ++ others))
      (Reading.ofMembers (Doc.ofMembers (writtenMembers slots ++ others))) = .ok s := by
  obtain ⟨hdefault, hcases⟩ := List.forall_mem_cons.mp hinner
  have hwritten := Reading.cases_written hkeyed (List.forall_mem_map.mp hcases)
  simp only [map, Switch.map, Kind.slots, List.forall_mem_cons, List.map_map] at hslots
  obtain ⟨hevaluator, hexpression, hcaseParam, hcasesSlot, hdefaultSlot, -⟩ := hslots
  have hget₁ : evaluatorField.get _ = _ := (Field.keeps_string _ _).get hnodup hevaluator
  have hget₂ : expressionField.get _ = _ := (Field.keeps_string _ _).get hnodup hexpression
  have hget₃ : caseParamField.get _ = _ := (Field.keeps_string _ _).get hnodup hcaseParam
  rw [ofFields.switchOfFields, hget₁, hget₂, hget₃, get_written hnodup hcasesSlot hwritten.2,
    get_written hnodup hdefaultSlot (Task.readAgain_sequence hdefault).2]
  rfl

/-- A kind is read again from an object that has its slots. -/
theorem ofFields_written (hk : k.Proper)
    (hinner : ∀ s ∈ k.sequences, ∀ u ∈ s, ReadAgain Task.ofDoc Task.toJson u)
    (hnodup : (slots.map (·.1) ++ Dict.keys others).Nodup)
    (hslots : ∀ slot ∈ (k.map (List.map Task.toJson)).slots, slot ∈ slots) :
    ofFields k.type (Doc.ofMembers (writtenMembers slots ++ others))
      (Reading.ofMembers (Doc.ofMembers (writtenMembers slots ++ others))) = .ok k := by
  cases k with
  | worker w => cases w <;> rfl
  | marker m => cases m <;> rfl
  | terminate => rfl
  | join on | exclusiveJoin on =>
    exact Outcome.bind_eq_ok.mpr ⟨on, (Field.keeps_many (readAgain_strings on)).get hnodup
      (hslots _ List.mem_cons_self), rfl⟩
  | subWorkflow param =>
    exact Outcome.bind_eq_ok.mpr ⟨param, (Field.keeps_payload (hk.param param rfl)).get hnodup
      (hslots _ List.mem_cons_self), rfl⟩
  | event sink =>
    exact Outcome.bind_eq_ok.mpr ⟨sink, (Field.keeps_string _ sink).get hnodup
      (hslots _ List.mem_cons_self), rfl⟩
  | loopEnd r =>
    exact Outcome.bind_eq_ok.mpr ⟨r, (Field.keeps_required (readAgain_string r)).get hnodup
      (hslots _ List.mem_cons_self), rfl⟩
  | fork branches =>
    exact Outcome.bind_eq_ok.mpr ⟨branches, get_written hnodup (hslots _ List.mem_cons_self)
      (Reading.branches_written hinner).2, rfl⟩
  | dynamicFork tasksParam inputParam =>
    simp only [map, Kind.slots, List.forall_mem_cons] at hslots
    exact Outcome.bind_eq_ok.mpr ⟨tasksParam, (Field.keeps_string _ _).get hnodup hslots.1,
      Outcome.bind_eq_ok.mpr ⟨inputParam, (Field.keeps_string _ _).get hnodup hslots.2.1, rfl⟩⟩
  | loop condition body =>
    simp only [map, Kind.slots, List.forall_mem_cons] at hslots
    exact Outcome.bind_eq_ok.mpr ⟨condition, (Field.keeps_string _ _).get hnodup hslots.1,
      Outcome.bind_eq_ok.mpr ⟨body, get_written hnodup hslots.2.1
        (Task.readAgain_sequence (hinner body List.mem_cons_self)).2, rfl⟩⟩
  | switch form s =>
    have hswitch := switchOfFields_written (hk.keyed s rfl) hinner hnodup hslots
    cases form <;> exact Outcome.bind_eq_ok.mpr ⟨s, hswitch, rfl⟩

end Kind

namespace Task

/-- The slots of the members that do not depend on the kind. -/
def headerSlots (t : Task) : List (String × Option Json) :=
  [nameField.slot t.name, referenceField.slot t.reference, descriptionField.slot t.description,
    optionalField.slot t.optional, inputsField.slot t.inputs]

def slots (t : Task) : List (String × Option Json) :=
  t.headerSlots ++ (Kind.typeKey, some (.str t.type.name)) :: (t.kind.map (List.map toJson)).slots

theorem toJson_eq_written (t : Task) : t.toJson = .obj (writtenMembers t.slots ++ t.extra) := by
  have hheader : t.header = writtenMembers t.headerSlots := by simp [header, headerSlots]
  rw [toJson_eq, hheader, Kind.fields_eq, slots, writtenMembers_append, writtenMembers_some]

theorem keys_slots (t : Task) : t.slots.map (·.1) = modelledKeys t.type := by
  rw [slots, List.map_append, List.map_cons, Kind.keys_slots, Kind.type_map]
  rfl

theorem nodup_modelledKeys (type : TaskType) : (modelledKeys type).Nodup := by
  cases type with
  | other name => exact (by decide : (modelledKeys .simple).Nodup)
  | _ => decide

/-- What can be in a task that was read. -/
structure Proper (t : Task) : Prop where
  inputs : (Json.obj t.inputs).distinct = true
  kind : t.kind.Proper
  extra : (Json.obj t.extra).distinct = true
  apart : ∀ key ∈ Dict.keys t.extra, key ∉ modelledKeys t.type

theorem ReadFrom.proper {members : Members} {t : Task} (h : ReadFrom members t)
    (hkeyed : t.kind.Keyed) : t.Proper := by
  obtain ⟨others, hothers, hextra⟩ := h.extra
  have hdistinct := Json.distinct_obj.mp
    (Doc.distinct_ofEntries (Doc.distinct_of_memberValues hothers))
  refine ⟨Field.distinct_of_dict h.inputs, ⟨hkeyed, fun param hk => ?_⟩, ?_, ?_⟩
  · have hparam := h.kind
    rw [type, hk] at hparam
    rcases Field.get_ok (Kind.param_of_ofFields hparam) with ⟨d, -, hread⟩ | ⟨-, hmissing⟩
    · exact Doc.distinct_of_value hread
    · obtain rfl := Option.some.inj hmissing
      rfl
  · rw [hextra]
    refine Json.distinct_obj.mpr ⟨?_, fun m hm => hdistinct.2 m (List.mem_of_mem_filter hm)⟩
    exact (List.filter_sublist.map _).nodup hdistinct.1
  · intro key hkey
    rw [hextra] at hkey
    obtain ⟨m, hm, rfl⟩ := List.mem_map.mp hkey
    obtain ⟨hm, hown⟩ := List.mem_filter.mp hm
    rw [modelledKeys, List.mem_append, not_or]
    exact ⟨Doc.apart_of_others hothers m.1 (List.mem_map_of_mem hm), of_decide_eq_true hown⟩

theorem proper_of_ofDoc {d : Doc} {t : Task} (h : ofDoc d = .ok t) : t.Proper := by
  obtain ⟨members, flaw, rfl, hread⟩ := ofDoc_ok h
  exact hread.proper (throughout_iff.mp ((Reading.keyed_ofDoc _).task t h) t List.mem_cons_self).1

theorem headerSlots_pass {t : Task} (ht : t.Proper) :
    List.Forall₂ Members.SlotPasses checks t.headerSlots :=
  .cons (Members.slotPasses (Field.keeps_required (readAgain_string t.name))) <|
  .cons (Members.slotPasses (Field.keeps_required (readAgain_string t.reference))) <|
  .cons (Members.slotPasses (Field.keeps_string _ t.description)) <|
  .cons (Members.slotPasses (Field.keeps_boolean _ t.optional)) <|
  .cons (Members.slotPasses (Field.keeps_dict ht.inputs)) .nil

section

variable {t : Task} (ht : t.Proper)
  (hinner : ∀ s ∈ t.kind.sequences, ∀ u ∈ s, ReadAgain ofDoc toJson u)

include ht

theorem nodup_slots : (t.slots.map (·.1) ++ Dict.keys t.extra).Nodup := by
  rw [keys_slots]
  refine List.nodup_append.mpr ⟨nodup_modelledKeys t.type, (Json.distinct_obj.mp ht.extra).1, ?_⟩
  rintro key hmodelled _ hkey rfl
  exact ht.apart key hkey hmodelled

include hinner

theorem distinct_slots : ∀ slot ∈ t.slots, ∀ j, slot.2 = some j → j.distinct = true := by
  intro slot hslot j hj
  rcases List.mem_append.mp hslot with hslot | hslot
  · obtain ⟨check, -, hpasses⟩ := Members.exists_check (headerSlots_pass ht) hslot
    exact hpasses.distinct j hj
  · rcases List.mem_cons.mp hslot with rfl | hslot
    · exact Option.some.inj hj ▸ rfl
    · exact Kind.distinct_slots ht.kind hinner slot hslot j hj

theorem taken_slots : Members.taken checks (Doc.ofMembers (writtenMembers t.slots ++ t.extra)) =
    .ok (Doc.ofMembers (writtenMembers t.slots ++ t.extra)) := by
  have hnodup := nodup_slots ht
  have hslots := distinct_slots ht hinner
  rw [slots] at hnodup hslots ⊢
  rw [List.map_append, List.append_assoc] at hnodup
  have hothers := distinct_written (List.nodup_append.mp hnodup).2.1
    (fun slot hslot => hslots slot (List.mem_append_right _ hslot))
    (Json.distinct_obj.mp ht.extra).2
  rw [writtenMembers_append, List.append_assoc]
  refine Members.taken_written (headerSlots_pass ht) ?_ (Json.distinct_obj.mp hothers).2
  rw [Dict.keys_append]
  exact ((keys_writtenMembers_sublist.append_right _).append_left _).nodup hnodup

theorem kind_written :
    Kind.ofMembers Kind.typeOfDoc (Doc.ofMembers (writtenMembers t.slots ++ t.extra))
      (Reading.ofMembers (Doc.ofMembers (writtenMembers t.slots ++ t.extra))) = .ok t.kind := by
  have hnodup := nodup_slots ht
  have htype : (Kind.typeKey, some (.str t.type.name)) ∈ t.slots :=
    List.mem_append_right _ List.mem_cons_self
  have hslots : ∀ slot ∈ (t.kind.map (List.map toJson)).slots, slot ∈ t.slots := fun slot hslot =>
    List.mem_append_right _ (List.mem_cons_of_mem _ hslot)
  have hkeys : ((Doc.ofMembers (writtenMembers t.slots ++ t.extra)).map (·.1)).Nodup :=
    Doc.keys_ofMembers _ ▸ nodup_keys_written hnodup
  unfold Kind.ofMembers
  rw [Doc.get?_ofMembers, get?_written hnodup htype]
  refine Outcome.bind_eq_ok.mpr ⟨t.type, t.kind.typeOfDoc_name, ?_⟩
  dsimp only
  rw [Kind.repeats_eq_false hkeys, if_neg Bool.false_ne_true]
  exact Kind.ofFields_written ht.kind hinner hnodup hslots

/-- A task is read again from what is written for it if the tasks inside it are. -/
theorem readAgain_of_inner : ReadAgain ofDoc toJson t := by
  have hnodup := nodup_slots ht
  have hdistinct := distinct_written hnodup (distinct_slots ht hinner)
    (Json.distinct_obj.mp ht.extra).2
  have hheader : ∀ slot ∈ t.headerSlots, slot ∈ t.slots := fun slot hslot =>
    List.mem_append_left _ hslot
  simp only [headerSlots, List.forall_mem_cons] at hheader
  obtain ⟨hname, hreference, hdescription, hoptional, hinputs, -⟩ := hheader
  refine ⟨t.toJson_eq_written ▸ hdistinct, ?_⟩
  rw [toJson_eq_written]
  refine Outcome.bind_eq_ok.mpr ⟨_, taken_slots ht hinner, ?_⟩
  refine Outcome.bind_eq_ok.mpr ⟨(), rfl, ?_⟩
  refine Outcome.bind_eq_ok.mpr
    ⟨_, (Field.keeps_required (readAgain_string t.name)).get hnodup hname, ?_⟩
  refine Outcome.bind_eq_ok.mpr
    ⟨_, (Field.keeps_required (readAgain_string t.reference)).get hnodup hreference, ?_⟩
  refine Outcome.bind_eq_ok.mpr ⟨_, (Field.keeps_string _ _).get hnodup hdescription, ?_⟩
  refine Outcome.bind_eq_ok.mpr ⟨_, (Field.keeps_boolean _ _).get hnodup hoptional, ?_⟩
  refine Outcome.bind_eq_ok.mpr ⟨_, (Field.keeps_dict ht.inputs).get hnodup hinputs, ?_⟩
  refine Outcome.bind_eq_ok.mpr ⟨_, kind_written ht hinner, ?_⟩
  refine Outcome.bind_eq_ok.mpr ⟨_, Doc.memberValues_unmodelled hdistinct, ?_⟩
  have hextra : (Dict.ofEntries (unmodelled (Dict.keys checks) (writtenMembers t.slots ++
      t.extra))).filter (fun m => m.1 ∉ Kind.typeKey :: t.kind.type.fieldKeys) = t.extra := by
    rw [Dict.ofEntries_eq_self (Json.distinct_obj.mp (distinct_unmodelled hdistinct)).1]
    change unmodelled _ (unmodelled _ _) = _
    rw [unmodelled_unmodelled]
    change unmodelled (modelledKeys t.type) _ = _
    rw [← keys_slots]
    exact unmodelled_written (t.keys_slots ▸ ht.apart)
  dsimp only
  rw [hextra]
  cases t
  rfl

end

theorem readAgain_of_ofDoc (t : Task) : ∀ {d : Doc}, ofDoc d = .ok t → ReadAgain ofDoc toJson t := by
  induction t using Task.induction with
  | step t ih =>
    intro d h
    refine readAgain_of_inner (proper_of_ofDoc h) fun s hs u hu => ?_
    obtain ⟨d', hd'⟩ := exists_ofDoc_of_mem h hs hu
    exact ih s hs u hu hd'

end Task

namespace Definition

def slots (w : Definition) : List (String × Option Json) :=
  [nameField.slot w.name, descriptionField.slot w.description, versionField.slot w.version,
    schemaVersionField.slot w.schemaVersion, tasksField.slot w.tasks, inputsField.slot w.inputs,
    outputsField.slot w.outputs, ownerField.slot w.owner]

theorem toJson_eq_written (w : Definition) :
    w.toJson = .obj (writtenMembers w.slots ++ w.extra) := by
  simp [toJson, slots]

theorem keys_slots (w : Definition) : w.slots.map (·.1) = Dict.keys checks := rfl

/-- What is known of a definition that was read from members. -/
structure ReadFrom (members : Members) (w : Definition) : Prop where
  version : versionField.get members = .ok w.version
  schemaVersion : schemaVersionField.get members = .ok w.schemaVersion
  tasks : tasksField.get members = .ok w.tasks
  outputs : outputsField.get members = .ok w.outputs
  extra : ∃ others, Doc.memberValues (members.filter fun m => (Dict.get? checks m.1).isNone) =
    .ok others ∧ w.extra = Dict.ofEntries others

theorem ofDoc_ok {d : Doc} {w : Definition} (h : ofDoc d = .ok w) :
    ∃ members flaw, d = .obj members flaw ∧ ReadFrom members w := by
  cases d with
  | obj members flaw =>
    refine ⟨members, flaw, rfl, ?_⟩
    obtain ⟨taken, htaken, h⟩ := Outcome.bind_eq_ok.mp h
    obtain ⟨members', hmembers', htaken⟩ := Outcome.bind_eq_ok.mp htaken
    obtain ⟨-, -, hmembers'⟩ := Outcome.bind_eq_ok.mp hmembers'
    obtain rfl := Outcome.pure_eq_ok.mp hmembers'
    obtain ⟨-, -, htaken⟩ := Outcome.bind_eq_ok.mp htaken
    obtain rfl := Outcome.pure_eq_ok.mp htaken
    obtain ⟨others, hothers, h⟩ := Outcome.bind_eq_ok.mp h
    obtain ⟨name, -, h⟩ := Outcome.bind_eq_ok.mp h
    obtain ⟨description, -, h⟩ := Outcome.bind_eq_ok.mp h
    obtain ⟨version, hversion, h⟩ := Outcome.bind_eq_ok.mp h
    obtain ⟨schemaVersion, hschemaVersion, h⟩ := Outcome.bind_eq_ok.mp h
    obtain ⟨tasks, htasks, h⟩ := Outcome.bind_eq_ok.mp h
    obtain ⟨inputs, -, h⟩ := Outcome.bind_eq_ok.mp h
    obtain ⟨outputs, houtputs, h⟩ := Outcome.bind_eq_ok.mp h
    obtain ⟨owner, -, h⟩ := Outcome.bind_eq_ok.mp h
    obtain rfl := Outcome.pure_eq_ok.mp h
    exact ⟨hversion, hschemaVersion, htasks, houtputs, others, hothers, rfl⟩
  | deep d => cases d <;> cases h
  | _ => cases h

theorem ReadFrom.readAgain_tasks {members : Members} {w : Definition} (h : ReadFrom members w) :
    ReadAgain Task.sequenceOfDoc Task.sequenceToJson w.tasks := by
  refine Task.readAgain_sequence fun u hu => ?_
  rcases Field.get_ok h.tasks with ⟨d, -, hread⟩ | ⟨-, hmissing⟩
  · obtain ⟨items, flaw, rfl, hitems⟩ := Reading.tasks_ok hread
    obtain ⟨i, hi⟩ := List.mem_iff_getElem?.mp hu
    obtain ⟨d', -, hd'⟩ := hitems i u hi
    exact u.readAgain_of_ofDoc hd'
  · rw [← Option.some.inj hmissing] at hu
    cases hu

theorem ReadFrom.distinct_extra {members : Members} {w : Definition} (h : ReadFrom members w) :
    (Json.obj w.extra).distinct = true := by
  obtain ⟨others, hothers, hextra⟩ := h.extra
  exact hextra ▸ Doc.distinct_ofEntries (Doc.distinct_of_memberValues hothers)

theorem ReadFrom.nodup_slots {members : Members} {w : Definition} (h : ReadFrom members w) :
    (w.slots.map (·.1) ++ Dict.keys w.extra).Nodup := by
  have hchecks : (Dict.keys checks).Nodup := by decide
  refine List.nodup_append.mpr ⟨hchecks, (Json.distinct_obj.mp h.distinct_extra).1, ?_⟩
  rintro key hmodelled _ hkey rfl
  obtain ⟨others, hothers, hextra⟩ := h.extra
  exact Doc.apart_of_others hothers key (hextra ▸ hkey) hmodelled

theorem ReadFrom.distinct_written {members : Members} {w : Definition} (h : ReadFrom members w)
    (hslots : List.Forall₂ Members.SlotPasses checks w.slots) :
    (Json.obj (writtenMembers w.slots ++ w.extra)).distinct = true := by
  refine Flowchart.distinct_written h.nodup_slots (fun slot hslot => ?_)
    (Json.distinct_obj.mp h.distinct_extra).2
  obtain ⟨check, -, hpasses⟩ := Members.exists_check hslots hslot
  exact hpasses.distinct

/-- Each member of a definition is read again from its slot. -/
structure FieldsKept (w : Definition) : Prop where
  name : nameField.Keeps w.name
  description : descriptionField.Keeps w.description
  version : versionField.Keeps w.version
  schemaVersion : schemaVersionField.Keeps w.schemaVersion
  tasks : tasksField.Keeps w.tasks
  inputs : inputsField.Keeps w.inputs
  outputs : outputsField.Keeps w.outputs
  owner : ownerField.Keeps w.owner

theorem ReadFrom.fieldsKept {members : Members} {w : Definition} (h : ReadFrom members w) :
    w.FieldsKept where
  name := Field.keeps_required (readAgain_string w.name)
  description := Field.keeps_string _ _
  version := Field.keeps_optional (fun _ => nofun) fun n hn =>
    let ⟨_, hd⟩ := Field.get_optional_ok h.version n hn
    readAgain_unsigned32 (Doc.lt_of_unsigned32 hd)
  schemaVersion := Field.keeps_optional (fun _ => nofun) fun n hn =>
    let ⟨_, hd⟩ := Field.get_optional_ok h.schemaVersion n hn
    readAgain_unsigned32 (Doc.lt_of_unsigned32 hd)
  tasks := Field.keeps_defaulted h.readAgain_tasks
  inputs := Field.keeps_many (readAgain_strings w.inputs)
  outputs := Field.keeps_dict (Field.distinct_of_dict h.outputs)
  owner := Field.keeps_string _ _

theorem FieldsKept.slots_pass {w : Definition} (h : w.FieldsKept) :
    List.Forall₂ Members.SlotPasses checks w.slots :=
  .cons (Members.slotPasses h.name) <| .cons (Members.slotPasses h.description) <|
  .cons (Members.slotPasses h.version) <| .cons (Members.slotPasses h.schemaVersion) <|
  .cons (Members.slotPasses h.tasks) <| .cons (Members.slotPasses h.inputs) <|
  .cons (Members.slotPasses h.outputs) <| .cons (Members.slotPasses h.owner) .nil

theorem readAgain_of_ofDoc {d : Doc} {w : Definition} (h : ofDoc d = .ok w) :
    ReadAgain ofDoc toJson w := by
  obtain ⟨members, flaw, rfl, hread⟩ := ofDoc_ok h
  have hnodup := hread.nodup_slots
  have hkept := hread.fieldsKept
  have hdistinct := hread.distinct_written hkept.slots_pass
  have htaken := Members.taken_written hkept.slots_pass hnodup
    (Json.distinct_obj.mp hread.distinct_extra).2
  have hslots : ∀ slot ∈ w.slots, slot ∈ w.slots := fun _ => id
  rw [slots] at hslots
  simp only [List.forall_mem_cons] at hslots
  obtain ⟨hname, hdescription, hversion, hschemaVersion, htasks, hinputs, houtputs, howner, -⟩ :=
    hslots
  have hextra : Dict.ofEntries (unmodelled (Dict.keys checks) (writtenMembers w.slots ++ w.extra)) =
      w.extra := by
    rw [Dict.ofEntries_eq_self (Json.distinct_obj.mp (distinct_unmodelled hdistinct)).1,
      ← w.keys_slots]
    exact unmodelled_written fun key hkey hslot =>
      (List.nodup_append.mp hnodup).2.2 key hslot key hkey rfl
  refine ⟨w.toJson_eq_written ▸ hdistinct, ?_⟩
  rw [toJson_eq_written, Doc.ofJson, ofDoc, Doc.object, htaken]
  refine Outcome.bind_eq_ok.mpr ⟨_, rfl, ?_⟩
  rw [ofMembers, Doc.memberValues_unmodelled hdistinct, hkept.name.get hnodup hname,
    hkept.description.get hnodup hdescription, hkept.version.get hnodup hversion,
    hkept.schemaVersion.get hnodup hschemaVersion, hkept.tasks.get hnodup htasks,
    hkept.inputs.get hnodup hinputs, hkept.outputs.get hnodup houtputs,
    hkept.owner.get hnodup howner]
  exact congrArg (fun extra => Except.ok { w with extra }) hextra

end Definition

/-- **Saving and loading.** A task, or a definition, that was read from any value or text is read
again from the value that is written for it. It comes back with all that is inside it, each list
and each dictionary in the order that it had. -/
theorem ofDoc_toJson :
    (∀ d t, Task.ofDoc d = .ok t → Task.ofDoc (Doc.ofJson t.toJson) = .ok t) ∧
      ∀ d w, Definition.ofDoc d = .ok w → Definition.ofDoc (Doc.ofJson w.toJson) = .ok w :=
  ⟨fun _ t h => (t.readAgain_of_ofDoc h).2, fun _ _ h => (Definition.readAgain_of_ofDoc h).2⟩

namespace Sample

/-- A switch with members of other kinds and its type last. -/
def routeValue : Json :=
  .obj [("note", .null), ("decisionCases", .obj [
      ("b", .arr [.obj [("type", .int 5), ("name", .str "wait for all"),
        ("taskReferenceName", .str "j"), ("expression", .arr []), ("joinOn", .arr [.str "x"])]]),
      ("a", .arr []),
      ("c", .arr [.obj [("name", .str "call"), ("taskReferenceName", .str "h"),
        ("type", .str "HTTP"), ("optional", .null), ("sink", .obj [("k", .decimal "1.5")])]])]),
    ("loopOver", .arr []), ("name", .str "route"), ("taskReferenceName", .str "s"),
    ("inputParameters", .obj [("z", .int 1), ("a", .bool true)]), ("type", .str "SWITCH")]

def orderValue : Json :=
  .obj [("ownerApp", .str "shop"), ("name", .str "orders"), ("tasks", .arr [routeValue]),
    ("version", .int 3), ("timeoutSeconds", .int 60)]

def route : Task :=
  (Task.ofDoc (Doc.ofJson routeValue)).toOption.getD (.ofRef "" .terminate)

def order : Definition :=
  (Definition.ofDoc (Doc.ofJson orderValue)).toOption.getD (.ofTasks "" [])

end Sample

theorem ofDoc_toJson_of_order :
    Task.ofDoc (Doc.ofJson Sample.routeValue) = .ok Sample.route ∧
      Task.ofDoc (Doc.ofJson Sample.route.toJson) = .ok Sample.route ∧
      Definition.ofDoc (Doc.ofJson Sample.orderValue) = .ok Sample.order ∧
      Definition.ofDoc (Doc.ofJson Sample.order.toJson) = .ok Sample.order := by
  have hroute : Task.ofDoc (Doc.ofJson Sample.routeValue) = .ok Sample.route :=
    Outcome.eq_ok_of_isOk (by decide +kernel) _
  have horder : Definition.ofDoc (Doc.ofJson Sample.orderValue) = .ok Sample.order :=
    Outcome.eq_ok_of_isOk (by decide +kernel) _
  exact ⟨hroute, ofDoc_toJson.1 _ _ hroute, horder, ofDoc_toJson.2 _ _ horder⟩

end Flowchart

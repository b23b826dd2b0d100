import Flowchart.Graph.Vertex
import Flowchart.Proofs.BoundHistories
import Flowchart.Proofs.WrittenTasks
import Flowchart.TreePath.Encoding

/-!
# Runs that are written are read again

What is read from a document is in bounds: numbers fit their width, opaque objects have no key
twice, and types are those of their names. This is all that it takes for a field to be read again
from what is written for it, and a record is read again as far as its fields are. It does not
matter whether a record was read from a value or from a text, nor whether it was an array.
-/

namespace Flowchart

/-- Whatever the one reader reads is read again by the other from what is written for it. -/
def Restores {α : Type} (read read' : Doc → Except Fault α) (write : α → Json) : Prop :=
  ∀ d a, read d = .ok a → ReadAgain read' write a

theorem restores_unsigned32 : Restores Doc.unsigned32 Doc.unsigned32 .nat :=
  fun _ _ h => readAgain_unsigned32 (Doc.lt_of_unsigned32 h)

theorem restores_unsigned64 : Restores Doc.unsigned64 Doc.unsigned64 .nat :=
  fun _ _ h => readAgain_unsigned64 (Doc.lt_of_unsigned64 h)

theorem restores_signed64 : Restores Doc.signed64 Doc.signed64 .int :=
  fun _ _ h => readAgain_signed64 (Doc.range_of_whole h)

section

variable {α : Type} {read read' : Doc → Except Fault α} {write : α → Json}

theorem restores_list (h : Restores read read' write) :
    Restores (Doc.list read) (Doc.list read') fun as => .arr (as.map write) := by
  intro d as has
  refine readAgain_list fun a ha => ?_
  cases d with
  | arr items flaw =>
    obtain ⟨as', has', hclose⟩ := Outcome.bind_eq_ok.mp has
    obtain ⟨-, -, heq⟩ := Outcome.bind_eq_ok.mp hclose
    obtain rfl := Outcome.pure_eq_ok.mp heq
    obtain ⟨item, -, hitem⟩ := (Outcome.mem_of_mapM has').1 a ha
    exact h item a hitem
  | deep d => cases d <;> cases has
  | _ => cases has

/-- A name that is read is among the names that can be written. -/
theorem readAgain_named {name : α → String} {all : List α} {a : α} (source : Source)
    (hfound : all.find? (name · == name a) = some a) :
    ReadAgain (Doc.named name all source) (fun a => .str (name a)) a := by
  refine ⟨rfl, ?_⟩
  change Doc.named.ofName name all (name a) = .ok a
  rw [Doc.named.ofName, hfound]
  rfl

end

theorem TaskStatus.restores_ofDoc (source source' : Source) :
    Restores (ofDoc source) (ofDoc source') toJson :=
  fun _ s _ => readAgain_named source' (by cases s <;> rfl)

theorem RunStatus.restores_ofDoc (source source' : Source) :
    Restores (ofDoc source) (ofDoc source') toJson :=
  fun _ s _ => readAgain_named source' (by cases s <;> rfl)

/-- A type that is read is the type of its name. -/
theorem Attempt.restores_typeOfDoc : Restores typeOfDoc typeOfDoc typeToJson := by
  intro d type htype
  obtain ⟨s, -, heq⟩ := Outcome.bind_eq_ok.mp htype
  obtain rfl := Outcome.pure_eq_ok.mp heq
  refine ⟨rfl, ?_⟩
  rw [typeToJson, TaskType.name_ofName]
  rfl

theorem TaskType.ofName_injective : Function.Injective ofName :=
  Function.LeftInverse.injective name_ofName

namespace Field

variable {α : Type} {read read' : Doc → Except Fault α} {write : α → Json} {key : String}
  {members : Members} {a : α}

theorem keeps_of_required (h : Restores read read' write)
    (hget : (required key read write).get members = .ok a) :
    (required key read' write).Keeps a := by
  rcases get_ok hget with ⟨d, -, hread⟩ | ⟨-, hmissing⟩
  · exact keeps_required (h d a hread)
  · cases hmissing

theorem keeps_of_defaulted {value : α} (h : Restores read read' write)
    (hvalue : ReadAgain read' write value)
    (hget : (defaulted key read write value).get members = .ok a) :
    (defaulted key read' write value).Keeps a := by
  rcases get_ok hget with ⟨d, -, hread⟩ | ⟨-, hmissing⟩
  · exact keeps_defaulted (h d a hread)
  · obtain rfl := Option.some.inj hmissing
    exact keeps_defaulted hvalue

theorem keeps_of_optional {o : Option α} (h : Restores read read' write)
    (hnull : ∀ a, write a ≠ .null) (hget : (optional key read write).get members = .ok o) :
    (optional key read' write).Keeps o := by
  refine keeps_optional hnull fun a ha => ?_
  obtain ⟨d, hread⟩ := get_optional_ok hget a ha
  exact h d a hread

theorem keeps_of_dict {d : Dict Json} (hget : (dict key).get members = .ok d) :
    (dict key).Keeps d :=
  keeps_dict (distinct_of_dict hget)

end Field

section

variable {checks : List Check} {slots : List (String × Option Json)}

theorem nodup_written (hkeys : (slots.map (·.1)).Nodup) :
    (slots.map (·.1) ++ Dict.keys ([] : List (String × Json))).Nodup := by
  rwa [Dict.keys, List.map_nil, List.append_nil]

/-- What is written for a record is taken as one. -/
theorem Doc.record_written (source : Source) (hslots : List.Forall₂ Members.SlotPasses checks slots)
    (hkeys : (slots.map (·.1)).Nodup) :
    record source checks (ofJson (.obj (writtenMembers slots))) =
      .ok (ofMembers (writtenMembers slots)) := by
  have hscan : Members.scan checks skip [] (ofMembers (writtenMembers slots ++ [])) = .ok () :=
    Members.scan_written hslots (nodup_written hkeys) fun _ hm => absurd hm List.not_mem_nil
  rw [List.append_nil] at hscan
  rw [ofJson, record, hscan]
  rfl

theorem Field.Keeps.get_record {α : Type} {field : Field α} {a : α} (h : field.Keeps a)
    (hkeys : (slots.map (·.1)).Nodup) (hslot : field.slot a ∈ slots) :
    field.get (Doc.ofMembers (writtenMembers slots)) = .ok a := by
  have hget := h.get (nodup_written hkeys) hslot
  rwa [List.append_nil] at hget

/-- A record is read again if each of its slots passes and gives back what was in it. -/
theorem readAgain_record {α : Type} {source : Source} {build : Members → Except Fault α}
    {write : α → Json} {a : α} (hwrite : write a = .obj (writtenMembers slots))
    (hslots : List.Forall₂ Members.SlotPasses checks slots) (hkeys : (slots.map (·.1)).Nodup)
    (hbuild : build (Doc.ofMembers (writtenMembers slots)) = .ok a) :
    ReadAgain (fun d => d.record source checks >>= build) write a := by
  have hdistinct := distinct_written (nodup_written hkeys) (fun slot hslot => by
    obtain ⟨check, -, hpasses⟩ := Members.exists_check hslots hslot
    exact hpasses.distinct) fun _ hm => absurd hm List.not_mem_nil
  rw [List.append_nil] at hdistinct
  refine ⟨hwrite ▸ hdistinct, ?_⟩
  dsimp only
  rw [hwrite, Doc.record_written source hslots hkeys]
  exact hbuild

end

/-- A coordinate is read again, whichever parts it has. -/
theorem Coordinate.readAgain (c : Coordinate) : ReadAgain ofDoc toJson c := by
  have hid : idField.Keeps c.id := Field.keeps_string _ _
  have hreference : referenceField.Keeps c.reference := Field.keeps_string _ _
  have hkeys : ([idField.slot c.id, referenceField.slot c.reference].map (·.1)).Nodup :=
    (by decide : [idField.key, referenceField.key].Nodup)
  refine readAgain_record (by simp [toJson])
    (.cons (Members.slotPasses hid) <| .cons (Members.slotPasses hreference) .nil) hkeys ?_
  rw [hid.get_record hkeys (by simp), hreference.get_record hkeys (by simp)]
  rfl

theorem EdgeLabel.readAgain (e : EdgeLabel) : ReadAgain ofDoc toJson e := by
  have hexecuted : executedField.Keeps e.executed :=
    Field.keeps_required (readAgain_boolean e.executed)
  have hcaseValue : caseValueField.Keeps e.caseValue := Field.keeps_string _ _
  have hkeys : ([executedField.slot e.executed, caseValueField.slot e.caseValue].map
      (·.1)).Nodup :=
    (by decide : [executedField.key, caseValueField.key].Nodup)
  refine readAgain_record (by simp [toJson])
    (.cons (Members.slotPasses hexecuted) <| .cons (Members.slotPasses hcaseValue) .nil) hkeys ?_
  rw [hexecuted.get_record hkeys (by simp), hcaseValue.get_record hkeys (by simp)]
  rfl

namespace Tally

def slots (t : Tally) : List (String × Option Json) :=
  [totalField.slot t.total, successField.slot t.success, inProgressField.slot t.inProgress,
    canceledField.slot t.canceled]

theorem nodup_slots (t : Tally) : (t.slots.map (·.1)).Nodup :=
  (by decide : ["total", "success", "inProgress", "canceled"].Nodup)

theorem restores_ofDoc : Restores ofDoc ofDoc toJson := by
  intro d t h
  obtain ⟨members, -, h⟩ := Outcome.bind_eq_ok.mp h
  obtain ⟨total, htotal, h⟩ := Outcome.bind_eq_ok.mp h
  obtain ⟨success, hsuccess, h⟩ := Outcome.bind_eq_ok.mp h
  obtain ⟨inProgress, hinProgress, h⟩ := Outcome.bind_eq_ok.mp h
  obtain ⟨canceled, hcanceled, h⟩ := Outcome.bind_eq_ok.mp h
  obtain rfl := Outcome.pure_eq_ok.mp h
  have htotal : totalField.Keeps total := Field.keeps_of_required restores_unsigned64 htotal
  have hsuccess : successField.Keeps success :=
    Field.keeps_of_required restores_unsigned64 hsuccess
  have hinProgress : inProgressField.Keeps inProgress :=
    Field.keeps_of_required restores_unsigned64 hinProgress
  have hcanceled : canceledField.Keeps canceled :=
    Field.keeps_of_required restores_unsigned64 hcanceled
  have hslots : List.Forall₂ Members.SlotPasses
      [totalField.check, successField.check, inProgressField.check, canceledField.check]
      (slots ⟨total, success, inProgress, canceled⟩) :=
    .cons (Members.slotPasses htotal) <| .cons (Members.slotPasses hsuccess) <|
    .cons (Members.slotPasses hinProgress) <| .cons (Members.slotPasses hcanceled) .nil
  have hkeys := nodup_slots ⟨total, success, inProgress, canceled⟩
  refine readAgain_record (by simp [toJson, slots]) hslots hkeys ?_
  rw [htotal.get_record hkeys (by simp [slots]), hsuccess.get_record hkeys (by simp [slots]),
    hinProgress.get_record hkeys (by simp [slots]), hcanceled.get_record hkeys (by simp [slots])]
  rfl

end Tally

namespace Branch

theorem lt_of_ofSort {sort : String} {key : Option Doc} {i : Nat}
    (h : ofSort sort key = .ok (fork i)) : i < Nat.pow 2 64 := by
  unfold ofSort at h
  split at h
  · obtain ⟨n, hn, h⟩ := Outcome.bind_eq_ok.mp h
    obtain rfl := fork.inj (Outcome.pure_eq_ok.mp h)
    exact Doc.lt_of_unsigned64 hn
  · obtain ⟨s, -, h⟩ := Outcome.bind_eq_ok.mp h
    cases h
  all_goals cases h

/-- Whether it is an array or an object, a branch is made of a sort and what stands beside it. -/
theorem exists_ofSort {d : Doc} {b : Branch} (h : ofDoc d = .ok b) :
    ∃ sort key, ofSort sort key = .ok b := by
  unfold ofDoc at h
  split at h
  · obtain ⟨sort, -, h⟩ := Outcome.bind_eq_ok.mp h
    exact ⟨sort, _, h⟩
  · cases d with
    | obj members flaw =>
      obtain ⟨b', hb', h⟩ := Outcome.bind_eq_ok.mp h
      obtain ⟨-, -, h⟩ := Outcome.bind_eq_ok.mp h
      obtain rfl := Outcome.pure_eq_ok.mp h
      dsimp only at hb'
      split at hb'
      · obtain ⟨sort, -, hb'⟩ := Outcome.bind_eq_ok.mp hb'
        exact ⟨sort, _, hb'⟩
      · cases hb'
    | deep d => cases d <;> cases h
    | _ => cases h

theorem ofDoc_obj {members : Members} {sort : String} {b : Branch}
    (hnamed : Doc.named id sorts .value (.str sort) = .ok sort)
    (hfound : Dict.get? members "branch" = some (.str sort))
    (h : ofSort sort (Dict.get? members "key") = .ok b) : ofDoc (.obj members none) = .ok b := by
  refine Outcome.bind_eq_ok.mpr ⟨b, ?_, rfl⟩
  dsimp only
  rw [hfound]
  exact Outcome.bind_eq_ok.mpr ⟨sort, hnamed, h⟩

theorem restores_ofDoc : Restores ofDoc ofDoc toJson := by
  intro d b h
  obtain ⟨sort, key, hsort⟩ := exists_ofSort h
  refine ⟨by cases b <;> rfl, ?_⟩
  cases b with
  | fork i =>
    have hindex := (readAgain_unsigned64 (lt_of_ofSort hsort)).2
    exact ofDoc_obj rfl rfl (Outcome.bind_eq_ok.mpr ⟨i, hindex, rfl⟩)
  | case s => exact ofDoc_obj rfl rfl rfl
  | default => exact ofDoc_obj rfl rfl rfl
  | loopBody => exact ofDoc_obj rfl rfl rfl

end Branch

theorem Segment.restores_ofDoc : Restores ofDoc ofDoc toJson := by
  intro d s h
  obtain ⟨members, -, h⟩ := Outcome.bind_eq_ok.mp h
  obtain ⟨index, hindex, h⟩ := Outcome.bind_eq_ok.mp h
  obtain ⟨branch, hbranch, h⟩ := Outcome.bind_eq_ok.mp h
  obtain rfl := Outcome.pure_eq_ok.mp h
  have hindex : indexField.Keeps index := Field.keeps_of_required restores_unsigned64 hindex
  have hbranch : branchField.Keeps branch :=
    Field.keeps_of_required Branch.restores_ofDoc hbranch
  have hkeys : ([indexField.slot index, branchField.slot branch].map (·.1)).Nodup :=
    (by decide : ["index", "branch"].Nodup)
  refine readAgain_record (by simp [toJson])
    (.cons (Members.slotPasses hindex) <| .cons (Members.slotPasses hbranch) .nil) hkeys ?_
  rw [hindex.get_record hkeys (by simp), hbranch.get_record hkeys (by simp)]
  rfl

theorem TreePath.restores_ofDoc : Restores ofDoc ofDoc toJson := by
  intro d p h
  obtain ⟨segments, hsegments, h⟩ := Outcome.bind_eq_ok.mp h
  obtain rfl := Outcome.pure_eq_ok.mp h
  obtain ⟨hdistinct, hread⟩ := restores_list Segment.restores_ofDoc d segments hsegments
  exact ⟨hdistinct, Outcome.bind_eq_ok.mpr ⟨segments, hread, rfl⟩⟩

namespace Attempt

/-- The slots of an attempt that is not said to have spawned anything. -/
def slots (a : Attempt) : List (String × Option Json) :=
  [idField.slot a.id, referenceField.slot a.reference, typeField.slot a.type,
    definitionNameField.slot a.definitionName, (statusField .value).slot a.status,
    parentField.slot a.parent, seqField.slot a.seq, retryCountField.slot a.retryCount,
    iterationField.slot a.iteration, startTimeField.slot a.startTime, endTimeField.slot a.endTime,
    reasonField.slot a.reason, workerField.slot a.worker, inputField.slot a.input,
    outputField.slot a.output]

theorem toJson_eq_written {a : Attempt} (h : a.spawned = none) :
    a.toJson = .obj (writtenMembers a.slots) := by
  simp [toJson, slots, h]

theorem nodup_slots (a : Attempt) : (a.slots.map (·.1)).Nodup :=
  (by decide : (Dict.keys (checks .value)).Nodup)

/-- Each member of an attempt is read again from its slot, out of a value or of a text. -/
structure FieldsKept (source : Source) (a : Attempt) : Prop where
  id : idField.Keeps a.id
  reference : referenceField.Keeps a.reference
  type : typeField.Keeps a.type
  definitionName : definitionNameField.Keeps a.definitionName
  status : (statusField source).Keeps a.status
  parent : parentField.Keeps a.parent
  seq : seqField.Keeps a.seq
  retryCount : retryCountField.Keeps a.retryCount
  iteration : iterationField.Keeps a.iteration
  startTime : startTimeField.Keeps a.startTime
  endTime : endTimeField.Keeps a.endTime
  reason : reasonField.Keeps a.reason
  worker : workerField.Keeps a.worker
  input : inputField.Keeps a.input
  output : outputField.Keeps a.output

theorem fieldsKept_of_ofDoc {source : Source} {d : Doc} {a : Attempt} (h : ofDoc source d = .ok a)
    (source' : Source) : a.FieldsKept source' := by
  obtain ⟨members, -, h⟩ := Outcome.bind_eq_ok.mp h
  obtain ⟨id, -, h⟩ := Outcome.bind_eq_ok.mp h
  obtain ⟨reference, -, h⟩ := Outcome.bind_eq_ok.mp h
  obtain ⟨type, htype, h⟩ := Outcome.bind_eq_ok.mp h
  obtain ⟨definitionName, -, h⟩ := Outcome.bind_eq_ok.mp h
  obtain ⟨status, hstatus, h⟩ := Outcome.bind_eq_ok.mp h
  obtain ⟨parent, -, h⟩ := Outcome.bind_eq_ok.mp h
  obtain ⟨seq, hseq, h⟩ := Outcome.bind_eq_ok.mp h
  obtain ⟨retryCount, hretryCount, h⟩ := Outcome.bind_eq_ok.mp h
  obtain ⟨iteration, hiteration, h⟩ := Outcome.bind_eq_ok.mp h
  obtain ⟨startTime, hstartTime, h⟩ := Outcome.bind_eq_ok.mp h
  obtain ⟨endTime, hendTime, h⟩ := Outcome.bind_eq_ok.mp h
  obtain ⟨reason, -, h⟩ := Outcome.bind_eq_ok.mp h
  obtain ⟨worker, -, h⟩ := Outcome.bind_eq_ok.mp h
  obtain ⟨input, hinput, h⟩ := Outcome.bind_eq_ok.mp h
  obtain ⟨output, houtput, h⟩ := Outcome.bind_eq_ok.mp h
  obtain rfl := Outcome.pure_eq_ok.mp h
  have hzero : ReadAgain Doc.unsigned32 .nat 0 := readAgain_unsigned32 (by decide)
  exact {
    id := Field.keeps_string _ _
    reference := Field.keeps_required (readAgain_string _)
    type := Field.keeps_of_required restores_typeOfDoc htype
    definitionName := Field.keeps_string _ _
    status := Field.keeps_of_required (TaskStatus.restores_ofDoc source source') hstatus
    parent := Field.keeps_string _ _
    seq := Field.keeps_of_optional restores_unsigned64 (fun _ => nofun) hseq
    retryCount := Field.keeps_of_defaulted restores_unsigned32 hzero hretryCount
    iteration := Field.keeps_of_defaulted restores_unsigned32 hzero hiteration
    startTime := Field.keeps_of_optional restores_signed64 (fun _ => nofun) hstartTime
    endTime := Field.keeps_of_optional restores_signed64 (fun _ => nofun) hendTime
    reason := Field.keeps_string _ _
    worker := Field.keeps_string _ _
    input := Field.keeps_of_dict hinput
    output := Field.keeps_of_dict houtput }

theorem FieldsKept.slots_pass {source : Source} {a : Attempt} (h : a.FieldsKept source) :
    List.Forall₂ Members.SlotPasses (checks source) a.slots :=
  .cons (Members.slotPasses h.id) <| .cons (Members.slotPasses h.reference) <|
  .cons (Members.slotPasses h.type) <| .cons (Members.slotPasses h.definitionName) <|
  .cons (Members.slotPasses h.status) <| .cons (Members.slotPasses h.parent) <|
  .cons (Members.slotPasses h.seq) <| .cons (Members.slotPasses h.retryCount) <|
  .cons (Members.slotPasses h.iteration) <| .cons (Members.slotPasses h.startTime) <|
  .cons (Members.slotPasses h.endTime) <| .cons (Members.slotPasses h.reason) <|
  .cons (Members.slotPasses h.worker) <| .cons (Members.slotPasses h.input) <|
  .cons (Members.slotPasses h.output) .nil

theorem restores_ofDoc (source source' : Source) :
    Restores (ofDoc source) (ofDoc source') toJson := by
  intro d a h
  have hkept := fieldsKept_of_ofDoc h source'
  have hspawned := spawned_of_ofDoc h
  have hkeys := a.nodup_slots
  have hslots : ∀ slot ∈ a.slots, slot ∈ a.slots := fun _ hslot => hslot
  rw [slots] at hslots
  simp only [List.forall_mem_cons] at hslots
  obtain ⟨hid, hreference, htype, hdefinitionName, hstatus, hparent, hseq, hretryCount, hiteration,
    hstartTime, hendTime, hreason, hworker, hinput, houtput, -⟩ := hslots
  refine readAgain_record (toJson_eq_written hspawned) hkept.slots_pass hkeys ?_
  rw [hkept.id.get_record hkeys hid, hkept.reference.get_record hkeys hreference,
    hkept.type.get_record hkeys htype, hkept.definitionName.get_record hkeys hdefinitionName,
    hkept.status.get_record hkeys hstatus, hkept.parent.get_record hkeys hparent,
    hkept.seq.get_record hkeys hseq, hkept.retryCount.get_record hkeys hretryCount,
    hkept.iteration.get_record hkeys hiteration, hkept.startTime.get_record hkeys hstartTime,
    hkept.endTime.get_record hkeys hendTime, hkept.reason.get_record hkeys hreason,
    hkept.worker.get_record hkeys hworker, hkept.input.get_record hkeys hinput,
    hkept.output.get_record hkeys houtput]
  exact congrArg (fun spawned => Except.ok { a with spawned }) hspawned.symm

end Attempt

namespace Execution

def slots (e : Execution) : List (String × Option Json) :=
  [idField.slot e.id, (statusField .value).slot e.status, definitionField.slot e.definition,
    startTimeField.slot e.startTime, endTimeField.slot e.endTime, reasonField.slot e.reason]

theorem nodup_slots (e : Execution) : (e.slots.map (·.1)).Nodup :=
  (by decide : (Dict.keys (checks .value)).Nodup)

theorem restores_ofDoc (source source' : Source) :
    Restores (ofDoc source) (ofDoc source') toJson := by
  intro d e h
  obtain ⟨members, -, h⟩ := Outcome.bind_eq_ok.mp h
  obtain ⟨id, -, h⟩ := Outcome.bind_eq_ok.mp h
  obtain ⟨status, hstatus, h⟩ := Outcome.bind_eq_ok.mp h
  obtain ⟨definition, hdefinition, h⟩ := Outcome.bind_eq_ok.mp h
  obtain ⟨startTime, hstartTime, h⟩ := Outcome.bind_eq_ok.mp h
  obtain ⟨endTime, hendTime, h⟩ := Outcome.bind_eq_ok.mp h
  obtain ⟨reason, -, h⟩ := Outcome.bind_eq_ok.mp h
  have heq := Outcome.pure_eq_ok.mp h
  have hid : idField.Keeps e.id := Field.keeps_defaulted (readAgain_string _)
  have hstatus : (statusField source').Keeps e.status :=
    heq ▸ Field.keeps_of_required (RunStatus.restores_ofDoc source source') hstatus
  have hdefinition : definitionField.Keeps e.definition :=
    heq ▸ Field.keeps_of_required (fun _ _ => Definition.readAgain_of_ofDoc) hdefinition
  have hstartTime : startTimeField.Keeps e.startTime :=
    heq ▸ Field.keeps_of_optional restores_signed64 (fun _ => nofun) hstartTime
  have hendTime : endTimeField.Keeps e.endTime :=
    heq ▸ Field.keeps_of_optional restores_signed64 (fun _ => nofun) hendTime
  have hreason : reasonField.Keeps e.reason := Field.keeps_string _ _
  have hslots : List.Forall₂ Members.SlotPasses (checks source') e.slots :=
    .cons (Members.slotPasses hid) <| .cons (Members.slotPasses hstatus) <|
    .cons (Members.slotPasses hdefinition) <| .cons (Members.slotPasses hstartTime) <|
    .cons (Members.slotPasses hendTime) <| .cons (Members.slotPasses hreason) .nil
  have hkeys := e.nodup_slots
  have hmem : (statusField source').slot e.status ∈ e.slots :=
    List.mem_cons_of_mem _ List.mem_cons_self
  refine readAgain_record (by simp [toJson, slots]) hslots hkeys ?_
  rw [hid.get_record hkeys (by simp [slots]), hstatus.get_record hkeys hmem,
    hdefinition.get_record hkeys (by simp [slots]), hstartTime.get_record hkeys (by simp [slots]),
    hendTime.get_record hkeys (by simp [slots]), hreason.get_record hkeys (by simp [slots])]
  rfl

end Execution

namespace Run

def slots (r : Run) : List (String × Option Json) :=
  [(executionField .value).slot r.execution, (attemptsField .value).slot r.attempts]

theorem restores_ofDoc (source source' : Source) :
    Restores (ofDoc source) (ofDoc source') toJson := by
  intro d r h
  obtain ⟨members, -, h⟩ := Outcome.bind_eq_ok.mp h
  obtain ⟨execution, hexecution, h⟩ := Outcome.bind_eq_ok.mp h
  obtain ⟨attempts, hattempts, h⟩ := Outcome.bind_eq_ok.mp h
  obtain rfl := Outcome.pure_eq_ok.mp h
  have hexecution : (executionField source').Keeps execution :=
    Field.keeps_of_required (Execution.restores_ofDoc source source') hexecution
  have hattempts : (attemptsField source').Keeps attempts :=
    Field.keeps_of_defaulted (restores_list (Attempt.restores_ofDoc source source'))
      (readAgain_list fun _ ha => absurd ha List.not_mem_nil) hattempts
  have hslots : List.Forall₂ Members.SlotPasses (checks source') (slots ⟨execution, attempts⟩) :=
    .cons (Members.slotPasses hexecution) <| .cons (Members.slotPasses hattempts) .nil
  have hkeys : ((slots ⟨execution, attempts⟩).map (·.1)).Nodup :=
    (by decide : ["execution", "tasks"].Nodup)
  refine readAgain_record (by simp [toJson, slots]) hslots hkeys ?_
  rw [hexecution.get_record hkeys List.mem_cons_self,
    hattempts.get_record hkeys (List.mem_cons_of_mem _ List.mem_cons_self)]
  rfl

end Run

/-- **Saving and loading of runs.** A run, a path, a coordinate, a label of an edge or a tally that
was read from any value or text is read again from the value that is written for it, with its
attempts in order and all opaque values in it. A type is written as the name that it was read from,
so that distinct names are distinct types. -/
theorem records_ofDoc_toJson :
    (∀ source d r, Run.ofDoc source d = .ok r →
      ∀ source', Run.ofDoc source' (Doc.ofJson r.toJson) = .ok r) ∧
    (∀ d p, TreePath.ofDoc d = .ok p → TreePath.ofDoc (Doc.ofJson p.toJson) = .ok p) ∧
    (∀ d c, Coordinate.ofDoc d = .ok c → Coordinate.ofDoc (Doc.ofJson c.toJson) = .ok c) ∧
    (∀ d e, EdgeLabel.ofDoc d = .ok e → EdgeLabel.ofDoc (Doc.ofJson e.toJson) = .ok e) ∧
    (∀ d t, Tally.ofDoc d = .ok t → Tally.ofDoc (Doc.ofJson t.toJson) = .ok t) ∧
    (∀ s, (TaskType.ofName s).name = s) ∧ Function.Injective TaskType.ofName :=
  ⟨fun source d r h source' => (Run.restores_ofDoc source source' d r h).2,
    fun d p h => (TreePath.restores_ofDoc d p h).2, fun _ c _ => c.readAgain.2,
    fun _ e _ => e.readAgain.2, fun d t h => (Tally.restores_ofDoc d t h).2,
    TaskType.name_ofName, TaskType.ofName_injective⟩

namespace Sample

/-- A run of an order, with an attempt of a worker that is named after its definition. -/
def orderRunValue : Json :=
  .obj [("tasks", .arr [.obj [("status", .str "IN_PROGRESS"), ("taskType", .str "my_worker"),
      ("inputData", .obj [("z", .int 1), ("a", .arr [.null])]), ("note", .int 5),
      ("referenceTaskName", .str "s"), ("seq", .int 7)]]),
    ("execution", .obj [("status", .obj [("RUNNING", .null)]), ("reasonForIncompletion", .null),
      ("workflowDefinition", orderValue)])]

/-- A path with a segment that is an array. -/
def orderPathValue : Json :=
  .arr [.arr [.int 0, .arr [.str "case", .str "b"]],
    .obj [("branch", .obj [("branch", .str "default"), ("key", .null)]), ("index", .int 1)]]

def orderRun : Run :=
  (Run.ofDoc .text (Doc.ofJson orderRunValue)).toOption.getD
    ⟨⟨"", .running, order, none, none, none⟩, []⟩

def orderPath : TreePath :=
  (TreePath.ofDoc (Doc.ofJson orderPathValue)).toOption.getD .root

end Sample

/-- Each record in a form in which it is not written. -/
theorem records_ofDoc_toJson_of_order :
    (Run.ofDoc .text (Doc.ofJson Sample.orderRunValue) = .ok Sample.orderRun ∧
      Run.ofDoc .value (Doc.ofJson Sample.orderRun.toJson) = .ok Sample.orderRun) ∧
    (TreePath.ofDoc (Doc.ofJson Sample.orderPathValue) = .ok Sample.orderPath ∧
      TreePath.ofDoc (Doc.ofJson Sample.orderPath.toJson) = .ok Sample.orderPath) ∧
    (Coordinate.ofDoc (Doc.ofJson (.arr [.null, .str "a"])) = .ok ⟨none, some "a"⟩ ∧
      Coordinate.ofDoc (Doc.ofJson (Coordinate.toJson ⟨none, some "a"⟩)) = .ok ⟨none, some "a"⟩) ∧
    (EdgeLabel.ofDoc (Doc.ofJson (.obj [("caseValue", .null), ("executed", .bool true)])) =
        .ok ⟨true, none⟩ ∧
      EdgeLabel.ofDoc (Doc.ofJson (EdgeLabel.toJson ⟨true, none⟩)) = .ok ⟨true, none⟩) ∧
    (Tally.ofDoc (Doc.ofJson (.arr [.int 2, .int 1, .int 1, .int 0])) = .ok ⟨2, 1, 1, 0⟩ ∧
      Tally.ofDoc (Doc.ofJson (Tally.toJson ⟨2, 1, 1, 0⟩)) = .ok ⟨2, 1, 1, 0⟩) ∧
    TaskType.ofName "my_worker" ≠ TaskType.ofName "my_other_worker" := by
  obtain ⟨hruns, hpaths, hcoordinates, hlabels, htallies, -, hinjective⟩ := records_ofDoc_toJson
  have hrun : Run.ofDoc .text (Doc.ofJson Sample.orderRunValue) = .ok Sample.orderRun :=
    Outcome.eq_ok_of_isOk (by decide +kernel) _
  have hpath : TreePath.ofDoc (Doc.ofJson Sample.orderPathValue) = .ok Sample.orderPath :=
    Outcome.eq_ok_of_isOk (by decide +kernel) _
  have hcoordinate : Coordinate.ofDoc (Doc.ofJson (.arr [.null, .str "a"])) =
      .ok ⟨none, some "a"⟩ := by
    decide +kernel
  have hlabel : EdgeLabel.ofDoc (Doc.ofJson (.obj [("caseValue", .null),
      ("executed", .bool true)])) = .ok ⟨true, none⟩ := by
    decide +kernel
  have htally : Tally.ofDoc (Doc.ofJson (.arr [.int 2, .int 1, .int 1, .int 0])) =
      .ok ⟨2, 1, 1, 0⟩ := by
    decide +kernel
  exact ⟨⟨hrun, hruns _ _ _ hrun _⟩, ⟨hpath, hpaths _ _ hpath⟩,
    ⟨hcoordinate, hcoordinates _ _ hcoordinate⟩, ⟨hlabel, hlabels _ _ hlabel⟩,
    ⟨htally, htallies _ _ htally⟩, hinjective.ne (by decide)⟩

end Flowchart

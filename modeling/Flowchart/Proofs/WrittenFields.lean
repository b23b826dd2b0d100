import Flowchart.Json.Field
import Flowchart.Proofs.Outcomes
import Mathlib.Data.List.Nodup

/-!
# Fields that are read again

A record is written as a list of slots: one for each field, in order, and empty where the field is
left out. Whatever stands in a slot is found under its key again, since no key comes twice. So a
record is read again from what was written for it if each of its fields is. Opaque values are read
again when no object in them has a key twice, which is how they come out of any document.
-/

namespace Flowchart

namespace Json

mutual

/-- No object in the value has a key twice. -/
def distinct : Json → Bool
  | arr items => distinctItems items
  | obj members => decide (Dict.keys members).Nodup && distinctMembers members
  | null | bool _ | int _ | decimal _ | str _ => true

def distinctItems : List Json → Bool
  | [] => true
  | item :: rest => distinct item && distinctItems rest

def distinctMembers : List (String × Json) → Bool
  | [] => true
  | (_, value) :: rest => distinct value && distinctMembers rest

end

theorem distinctItems_iff {items : List Json} :
    distinctItems items = true ↔ ∀ item ∈ items, distinct item = true := by
  induction items with
  | nil => simp [distinctItems]
  | cons item rest ih => simp [distinctItems, ih]

theorem distinctMembers_iff {members : List (String × Json)} :
    distinctMembers members = true ↔ ∀ m ∈ members, distinct m.2 = true := by
  induction members with
  | nil => simp [distinctMembers]
  | cons m rest ih => simp [distinctMembers, ih]

theorem distinct_arr {items : List Json} :
    distinct (arr items) = true ↔ ∀ item ∈ items, distinct item = true := by
  rw [distinct, distinctItems_iff]

theorem distinct_obj {members : List (String × Json)} : distinct (obj members) = true ↔
    (Dict.keys members).Nodup ∧ ∀ m ∈ members, distinct m.2 = true := by
  rw [distinct, Bool.and_eq_true, decide_eq_true_eq, distinctMembers_iff]

end Json

namespace Doc

theorem ofItems_eq (items : List Json) : ofItems items = items.map ofJson := by
  induction items with
  | nil => rfl
  | cons item rest ih => rw [ofItems, ih, List.map_cons]

theorem ofMembers_eq (members : List (String × Json)) :
    ofMembers members = members.map fun m => (m.1, ofJson m.2) := by
  induction members with
  | nil => rfl
  | cons m rest ih => rw [ofMembers, ih, List.map_cons]

theorem keys_ofMembers (members : List (String × Json)) :
    (ofMembers members).map (·.1) = Dict.keys members := by
  rw [ofMembers_eq, List.map_map]
  rfl

theorem get?_ofMembers (members : List (String × Json)) (key : String) :
    Dict.get? (ofMembers members) key = (Dict.get? members key).map ofJson := by
  rw [ofMembers_eq, Dict.get?_map]

theorem ofJson_ne_null {j : Json} (h : j ≠ .null) : ofJson j ≠ null := by
  cases j with
  | null => exact absurd rfl h
  | _ => exact nofun

mutual

/-- Such a value is what its document says. -/
theorem value_ofJson : ∀ {j : Json}, j.distinct = true → (ofJson j).value = .ok j
  | .null, _ | .bool _, _ | .int _, _ | .decimal _, _ | .str _, _ => rfl
  | .arr items, h => by
    have hitems : itemValues (ofItems items) = .ok items :=
      itemValues_ofItems (by simpa [Json.distinct] using h)
    rw [ofJson, value, hitems]
    rfl
  | .obj members, h => by
    rw [Json.distinct, Bool.and_eq_true, decide_eq_true_eq] at h
    have hmembers : memberValues (ofMembers members) = .ok members := memberValues_ofMembers h.2
    rw [ofJson, value, hmembers]
    exact congrArg (fun d => Except.ok (Json.obj d)) (Dict.ofEntries_eq_self h.1)

theorem itemValues_ofItems : ∀ {items : List Json}, Json.distinctItems items = true →
    itemValues (ofItems items) = .ok items
  | [], _ => rfl
  | item :: rest, h => by
    rw [Json.distinctItems, Bool.and_eq_true] at h
    rw [ofItems, itemValues, value_ofJson h.1, itemValues_ofItems h.2]
    rfl

theorem memberValues_ofMembers : ∀ {members : List (String × Json)},
    Json.distinctMembers members = true → memberValues (ofMembers members) = .ok members
  | [], _ => rfl
  | (key, value) :: rest, h => by
    rw [Json.distinctMembers, Bool.and_eq_true] at h
    rw [ofMembers, memberValues, value_ofJson h.1, memberValues_ofMembers h.2]
    rfl

end

theorem distinct_ofEntries {entries : List (String × Json)}
    (h : Json.distinctMembers entries = true) :
    (Json.obj (Dict.ofEntries entries)).distinct = true := by
  rw [Json.distinct_obj]
  rw [Json.distinctMembers_iff] at h
  exact ⟨Dict.nodup_keys_ofEntries entries, fun m hm => h m (Dict.mem_of_mem_ofEntries hm)⟩

mutual

/-- A repeated key is read once, so that no object is left with it twice. -/
theorem distinct_of_value : ∀ {d : Doc} {j : Json}, d.value = .ok j → j.distinct = true
  | null, _, h | bool _, _, h | int _, _, h | decimal _, _, h | str _, _, h => by
    obtain rfl := Outcome.pure_eq_ok.mp h
    rfl
  | arr items flaw, j, h => by
    obtain ⟨values, hvalues, h⟩ := Outcome.bind_eq_ok.mp h
    obtain ⟨-, -, h⟩ := Outcome.bind_eq_ok.mp h
    obtain rfl := Outcome.pure_eq_ok.mp h
    exact distinct_of_itemValues hvalues
  | obj members flaw, j, h => by
    obtain ⟨values, hvalues, h⟩ := Outcome.bind_eq_ok.mp h
    obtain ⟨-, -, h⟩ := Outcome.bind_eq_ok.mp h
    obtain rfl := Outcome.pure_eq_ok.mp h
    exact distinct_ofEntries (distinct_of_memberValues hvalues)
  | flawed flaw, j, h => by cases h
  | deep d, j, h => by cases h

theorem distinct_of_itemValues : ∀ {items : List Doc} {values : List Json},
    itemValues items = .ok values → Json.distinctItems values = true
  | [], values, h => by
    obtain rfl := Outcome.pure_eq_ok.mp h
    rfl
  | item :: rest, values, h => by
    obtain ⟨v, hv, h⟩ := Outcome.bind_eq_ok.mp h
    obtain ⟨vs, hvs, h⟩ := Outcome.bind_eq_ok.mp h
    obtain rfl := Outcome.pure_eq_ok.mp h
    rw [Json.distinctItems, distinct_of_value hv, distinct_of_itemValues hvs]
    rfl

theorem distinct_of_memberValues : ∀ {members : List (String × Doc)} {values : List (String × Json)},
    memberValues members = .ok values → Json.distinctMembers values = true
  | [], values, h => by
    obtain rfl := Outcome.pure_eq_ok.mp h
    rfl
  | (key, d) :: rest, values, h => by
    obtain ⟨v, hv, h⟩ := Outcome.bind_eq_ok.mp h
    obtain ⟨vs, hvs, h⟩ := Outcome.bind_eq_ok.mp h
    obtain rfl := Outcome.pure_eq_ok.mp h
    rw [Json.distinctMembers, distinct_of_value hv, distinct_of_memberValues hvs]
    rfl

end

theorem keys_memberValues {members : List (String × Doc)} {values : List (String × Json)}
    (h : memberValues members = .ok values) : Dict.keys values = members.map (·.1) := by
  induction members generalizing values with
  | nil =>
    obtain rfl := Outcome.pure_eq_ok.mp h
    rfl
  | cons m rest ih =>
    obtain ⟨v, -, h⟩ := Outcome.bind_eq_ok.mp h
    obtain ⟨vs, hvs, h⟩ := Outcome.bind_eq_ok.mp h
    obtain rfl := Outcome.pure_eq_ok.mp h
    rw [Dict.keys_cons, ih hvs, List.map_cons]

theorem distinct_of_dict {d : Doc} {entries : Dict Json} (h : d.dict = .ok entries) :
    (Json.obj entries).distinct = true := by
  cases d with
  | obj members flaw =>
    obtain ⟨read, hread, h⟩ := Outcome.bind_eq_ok.mp h
    obtain ⟨values, hvalues, hread⟩ := Outcome.bind_eq_ok.mp hread
    obtain ⟨-, -, h⟩ := Outcome.bind_eq_ok.mp h
    obtain rfl := Outcome.pure_eq_ok.mp hread
    obtain rfl := Outcome.pure_eq_ok.mp h
    exact distinct_ofEntries (distinct_of_memberValues hvalues)
  | deep d => cases d <;> cases h
  | _ => cases h

end Doc

/-- The value is read again from what is written for it, where no key comes twice. -/
def ReadAgain {α : Type} (read : Doc → Except Fault α) (write : α → Json) (a : α) : Prop :=
  (write a).distinct = true ∧ read (Doc.ofJson (write a)) = .ok a

theorem readAgain_string (s : String) : ReadAgain Doc.string .str s := ⟨rfl, rfl⟩

theorem readAgain_boolean (b : Bool) : ReadAgain Doc.boolean .bool b := ⟨rfl, rfl⟩

theorem mapM_ofJson {α : Type} {read : Doc → Except Fault α} {write : α → Json} {as : List α}
    (h : ∀ a ∈ as, read (Doc.ofJson (write a)) = .ok a) :
    (Doc.ofItems (as.map write)).mapM read = .ok as := by
  rw [Doc.ofItems_eq]
  induction as with
  | nil => rfl
  | cons a as ih =>
    obtain ⟨hfirst, hrest⟩ := List.forall_mem_cons.mp h
    rw [List.map_cons, List.map_cons, List.mapM_cons, hfirst, ih hrest]
    rfl

theorem readAgain_list {α : Type} {read : Doc → Except Fault α} {write : α → Json} {as : List α}
    (h : ∀ a ∈ as, ReadAgain read write a) :
    ReadAgain (Doc.list read) (fun as => .arr (as.map write)) as := by
  constructor
  · rw [Json.distinct_arr, List.forall_mem_map]
    exact fun a ha => (h a ha).1
  · rw [Doc.ofJson, Doc.list, mapM_ofJson fun a ha => (h a ha).2]
    rfl

theorem readAgain_strings (ss : List String) :
    ReadAgain (Doc.list Doc.string) Json.strings ss :=
  readAgain_list fun s _ => readAgain_string s

namespace Doc

variable {low high i : Int}

theorem whole_ofJson (hrange : low ≤ i ∧ i < high) : whole low high (ofJson (.int i)) = .ok i :=
  if_pos hrange

theorem range_of_whole {d : Doc} (h : whole low high d = .ok i) : low ≤ i ∧ i < high := by
  cases d with
  | int i' =>
    rw [whole] at h
    split at h
    · next hrange =>
      obtain rfl := Outcome.pure_eq_ok.mp h
      exact hrange
    · cases h
  | _ => cases h

theorem lt_of_natural {high : Nat} {d : Doc} {n : Nat}
    (h : (do pure (← whole 0 high d).toNat : Except Fault Nat) = .ok n) : n < high := by
  obtain ⟨i, hi, h⟩ := Outcome.bind_eq_ok.mp h
  obtain rfl := Outcome.pure_eq_ok.mp h
  obtain ⟨hlow, hhigh⟩ := range_of_whole hi
  omega

theorem lt_of_unsigned32 {d : Doc} {n : Nat} (h : d.unsigned32 = .ok n) : n < Nat.pow 2 32 :=
  lt_of_natural h

theorem lt_of_unsigned64 {d : Doc} {n : Nat} (h : d.unsigned64 = .ok n) : n < Nat.pow 2 64 :=
  lt_of_natural h

end Doc

theorem readAgain_natural {high n : Nat} (h : n < high) :
    ReadAgain (fun d => do pure (← Doc.whole 0 high d).toNat) .nat n := by
  refine ⟨rfl, ?_⟩
  dsimp only
  rw [Json.nat, Doc.whole_ofJson ⟨Int.natCast_nonneg n, Int.ofNat_lt.mpr h⟩]
  rfl

theorem readAgain_unsigned32 {n : Nat} (h : n < Nat.pow 2 32) :
    ReadAgain Doc.unsigned32 .nat n :=
  readAgain_natural h

theorem readAgain_unsigned64 {n : Nat} (h : n < Nat.pow 2 64) :
    ReadAgain Doc.unsigned64 .nat n :=
  readAgain_natural h

theorem readAgain_signed64 {i : Int} (h : -Nat.pow 2 63 ≤ i ∧ i < Nat.pow 2 63) :
    ReadAgain Doc.signed64 .int i :=
  ⟨rfl, Doc.whole_ofJson h⟩

theorem readAgain_value {j : Json} (h : j.distinct = true) : ReadAgain Doc.value id j :=
  ⟨h, Doc.value_ofJson h⟩

theorem readAgain_dict {d : Dict Json} (h : (Json.obj d).distinct = true) :
    ReadAgain Doc.dict .obj d := by
  refine ⟨h, ?_⟩
  obtain ⟨hnodup, hvalues⟩ := Json.distinct_obj.mp h
  rw [Doc.ofJson, Doc.dict, Doc.object,
    Doc.memberValues_ofMembers (Json.distinctMembers_iff.mpr hvalues)]
  exact congrArg Except.ok (Dict.ofEntries_eq_self hnodup)

namespace Field

variable {α : Type} {field : Field α} {a : α}

/-- The value is read again, or restored where it is left out. -/
structure Keeps (field : Field α) (a : α) : Prop where
  written : ∀ j, field.write a = some j → j.distinct = true ∧ field.read (Doc.ofJson j) = .ok a
  omitted : field.write a = none → field.missing = some a

theorem keeps_of_write {write : α → Json} (hwrite : field.write a = some (write a))
    (h : ReadAgain field.read write a) : field.Keeps a where
  written j hj := by
    rw [hwrite] at hj
    obtain rfl := Option.some.inj hj
    exact h
  omitted hnone := by
    rw [hwrite] at hnone
    cases hnone

theorem keeps_required {key : String} {read : Doc → Except Fault α} {write : α → Json}
    (h : ReadAgain read write a) : (required key read write).Keeps a :=
  keeps_of_write rfl h

theorem keeps_defaulted {key : String} {read : Doc → Except Fault α} {write : α → Json} {value : α}
    (h : ReadAgain read write a) : (defaulted key read write value).Keeps a :=
  keeps_of_write rfl h

theorem keeps_optional {key : String} {read : Doc → Except Fault α} {write : α → Json}
    {o : Option α} (hnull : ∀ a, write a ≠ .null) (h : ∀ a ∈ o, ReadAgain read write a) :
    (optional key read write).Keeps o := by
  cases o with
  | none => exact ⟨nofun, fun _ => rfl⟩
  | some a =>
    obtain ⟨hdistinct, hread⟩ := h a rfl
    refine ⟨fun j hj => ?_, nofun⟩
    obtain rfl := Option.some.inj hj
    refine ⟨hdistinct, ?_⟩
    change Doc.nullable read (Doc.ofJson (write a)) = .ok (some a)
    unfold Doc.nullable
    split
    · next hjson => exact absurd hjson (Doc.ofJson_ne_null (hnull a))
    · rw [hread]
      rfl

theorem keeps_string (key : String) (o : Option String) :
    (optional key Doc.string .str).Keeps o :=
  keeps_optional (fun _ => nofun) fun s _ => readAgain_string s

theorem keeps_boolean (key : String) (o : Option Bool) :
    (optional key Doc.boolean .bool).Keeps o :=
  keeps_optional (fun _ => nofun) fun b _ => readAgain_boolean b

theorem keeps_many {key : String} {read : Doc → Except Fault (List α)} {write : List α → Json}
    {as : List α} (h : ReadAgain read write as) : (many key read write).Keeps as := by
  cases as with
  | nil => exact ⟨nofun, fun _ => rfl⟩
  | cons a as => exact keeps_of_write rfl h

theorem keeps_dict {key : String} {d : Dict Json} (h : (Json.obj d).distinct = true) :
    (dict key).Keeps d := by
  cases d with
  | nil => exact ⟨nofun, fun _ => rfl⟩
  | cons entry d => exact keeps_of_write rfl (readAgain_dict h)

theorem keeps_payload {key : String} {j : Json} (h : j.distinct = true) :
    (payload key).Keeps j := by
  by_cases hnull : j = .null
  · subst hnull
    exact ⟨nofun, fun _ => rfl⟩
  · refine keeps_of_write ?_ (readAgain_value h)
    exact if_neg hnull

/-- A field that was there was read, and one that was not has the value of a missing one. -/
theorem get_ok {members : Members} (h : field.get members = .ok a) :
    (∃ d, Dict.get? members field.key = some d ∧ field.read d = .ok a) ∨
      Dict.get? members field.key = none ∧ field.missing = some a := by
  unfold get at h
  split at h
  · next d hd => exact Or.inl ⟨d, hd, h⟩
  · next a' hnone hmissing =>
    obtain rfl := Outcome.pure_eq_ok.mp h
    exact Or.inr ⟨hnone, hmissing⟩
  · cases h

theorem get_optional_ok {key : String} {read : Doc → Except Fault α} {write : α → Json}
    {members : Members} {o : Option α} (h : (optional key read write).get members = .ok o) :
    ∀ a ∈ o, ∃ d, read d = .ok a := by
  intro a ha
  rcases get_ok h with ⟨d, -, hread⟩ | ⟨-, hmissing⟩
  · change Doc.nullable read d = .ok o at hread
    unfold Doc.nullable at hread
    split at hread
    · obtain rfl := Outcome.pure_eq_ok.mp hread
      cases ha
    · obtain ⟨a', ha', hread⟩ := Outcome.bind_eq_ok.mp hread
      obtain rfl := Outcome.pure_eq_ok.mp hread
      obtain rfl := Option.some.inj ha
      exact ⟨_, ha'⟩
  · obtain rfl := Option.some.inj hmissing
    cases ha

theorem distinct_of_dict {key : String} {d : Dict Json} {members : Members}
    (h : (dict key).get members = .ok d) : (Json.obj d).distinct = true := by
  rcases get_ok h with ⟨doc, -, hread⟩ | ⟨-, hmissing⟩
  · exact Doc.distinct_of_dict hread
  · obtain rfl := Option.some.inj hmissing
    rfl

end Field

/-- The slot of a field, with what is written for its value. -/
def Field.slot {α : Type} (field : Field α) (a : α) : String × Option Json :=
  (field.key, field.write a)

/-- The members that are written for slots. -/
def writtenMembers (slots : List (String × Option Json)) : List (String × Json) :=
  slots.filterMap fun slot => slot.2.map (slot.1, ·)

@[simp] theorem writtenMembers_nil : writtenMembers [] = [] := rfl

@[simp] theorem writtenMembers_some (key : String) (j : Json)
    (slots : List (String × Option Json)) :
    writtenMembers ((key, some j) :: slots) = (key, j) :: writtenMembers slots := rfl

theorem writtenMembers_append (slots slots' : List (String × Option Json)) :
    writtenMembers (slots ++ slots') = writtenMembers slots ++ writtenMembers slots' :=
  List.filterMap_append

@[simp] theorem writtenMembers_slot {α : Type} (field : Field α) (a : α)
    (slots : List (String × Option Json)) :
    writtenMembers (field.slot a :: slots) = field.written a ++ writtenMembers slots := by
  rw [writtenMembers, List.filterMap_cons, Field.slot, Field.written]
  cases field.write a <;> rfl

section

variable {slots : List (String × Option Json)} {others : List (String × Json)}

theorem mem_keys_writtenMembers {key : String} (h : key ∈ Dict.keys (writtenMembers slots)) :
    key ∈ slots.map (·.1) := by
  obtain ⟨m, hm, rfl⟩ := List.mem_map.mp h
  obtain ⟨slot, hslot, hm⟩ := List.mem_filterMap.mp hm
  obtain ⟨j, -, rfl⟩ := Option.map_eq_some_iff.mp hm
  exact List.mem_map_of_mem (f := fun slot : String × Option Json => slot.1) hslot

theorem mem_writtenMembers {slot : String × Option Json} (h : slot ∈ slots) {j : Json}
    (hj : slot.2 = some j) : (slot.1, j) ∈ writtenMembers slots :=
  List.mem_filterMap.mpr ⟨slot, h, by rw [hj]; rfl⟩

theorem keys_writtenMembers_sublist :
    (Dict.keys (writtenMembers slots)).Sublist (slots.map (·.1)) := by
  induction slots with
  | nil => exact List.Sublist.slnil
  | cons slot slots ih =>
    obtain ⟨key, _ | j⟩ := slot
    · exact ih.cons key
    · exact ih.cons_cons key

variable (hnodup : (slots.map (·.1) ++ Dict.keys others).Nodup)

include hnodup

theorem nodup_keys_written : (Dict.keys (writtenMembers slots ++ others)).Nodup := by
  rw [Dict.keys_append]
  exact (keys_writtenMembers_sublist.append_right _).nodup hnodup

/-- Under the key of a slot stands what was written for it. -/
theorem get?_written {slot : String × Option Json} (h : slot ∈ slots) :
    Dict.get? (writtenMembers slots ++ others) slot.1 = slot.2 := by
  cases hj : slot.2 with
  | some j =>
    exact Dict.get?_of_mem (nodup_keys_written hnodup)
      (List.mem_append_left _ (mem_writtenMembers h hj))
  | none =>
    refine Dict.get?_eq_none fun hmem => ?_
    rw [Dict.keys_append, List.mem_append] at hmem
    rcases hmem with hmem | hmem
    · obtain ⟨m, hm, heq⟩ := List.mem_map.mp hmem
      obtain ⟨slot', hslot', hm⟩ := List.mem_filterMap.mp hm
      obtain ⟨j, hj', rfl⟩ := Option.map_eq_some_iff.mp hm
      obtain rfl : slot' = slot :=
        List.inj_on_of_nodup_map (List.nodup_append.mp hnodup).1 hslot' h heq
      rw [hj] at hj'
      cases hj'
    · exact (List.nodup_append.mp hnodup).2.2 _ (List.mem_map_of_mem h) _ hmem rfl

/-- A field that is kept is found again among the members that were written. -/
theorem Field.Keeps.get {α : Type} {field : Field α} {a : α} (h : field.Keeps a)
    (hslot : field.slot a ∈ slots) :
    field.get (Doc.ofMembers (writtenMembers slots ++ others)) = .ok a := by
  have hfound : Dict.get? (writtenMembers slots ++ others) field.key = field.write a :=
    get?_written hnodup hslot
  unfold Field.get
  rw [Doc.get?_ofMembers, hfound]
  cases hwrite : field.write a with
  | some j => exact (h.written j hwrite).2
  | none =>
    rw [h.omitted hwrite]
    rfl

end

theorem distinct_written {slots : List (String × Option Json)} {others : List (String × Json)}
    (hnodup : (slots.map (·.1) ++ Dict.keys others).Nodup)
    (hslots : ∀ slot ∈ slots, ∀ j, slot.2 = some j → j.distinct = true)
    (hothers : ∀ m ∈ others, m.2.distinct = true) :
    (Json.obj (writtenMembers slots ++ others)).distinct = true := by
  refine Json.distinct_obj.mpr ⟨nodup_keys_written hnodup, fun m hm => ?_⟩
  rcases List.mem_append.mp hm with hm | hm
  · obtain ⟨slot, hslot, hm⟩ := List.mem_filterMap.mp hm
    obtain ⟨j, hj, rfl⟩ := Option.map_eq_some_iff.mp hm
    exact hslots slot hslot j hj
  · exact hothers m hm

/-- The members that are under none of the keys. -/
def unmodelled (keys : List String) (members : List (String × Json)) : List (String × Json) :=
  members.filter fun m => m.1 ∉ keys

theorem distinct_unmodelled {keys : List String} {members : List (String × Json)}
    (h : (Json.obj members).distinct = true) :
    (Json.obj (unmodelled keys members)).distinct = true := by
  obtain ⟨hnodup, hvalues⟩ := Json.distinct_obj.mp h
  refine Json.distinct_obj.mpr ⟨?_, fun m hm => hvalues m (List.mem_of_mem_filter hm)⟩
  exact (List.filter_sublist.map _).nodup hnodup

theorem unmodelled_unmodelled (keys keys' : List String) (members : List (String × Json)) :
    unmodelled keys' (unmodelled keys members) = unmodelled (keys ++ keys') members := by
  rw [unmodelled, unmodelled, unmodelled, List.filter_filter]
  refine List.filter_congr fun m _ => ?_
  simp [List.mem_append, Bool.and_comm]

/-- The members that are no fields are what they were written as. -/
theorem Doc.memberValues_unmodelled {checks : List Check} {members : List (String × Json)}
    (h : (Json.obj members).distinct = true) :
    memberValues ((ofMembers members).filter fun m => (Dict.get? checks m.1).isNone) =
      .ok (unmodelled (Dict.keys checks) members) := by
  have hfilter : (ofMembers members).filter (fun m => (Dict.get? checks m.1).isNone) =
      ofMembers (unmodelled (Dict.keys checks) members) := by
    simp only [ofMembers_eq, unmodelled, List.filter_map, Dict.isNone_get?]
    rfl
  rw [hfilter]
  exact memberValues_ofMembers
    (Json.distinctMembers_iff.mpr (Json.distinct_obj.mp (distinct_unmodelled h)).2)

/-- What is kept of a record is under none of the keys of its fields. -/
theorem Doc.apart_of_others {checks : List Check} {members : Members}
    {others : List (String × Json)}
    (h : memberValues (members.filter fun m => (Dict.get? checks m.1).isNone) = .ok others) :
    ∀ key ∈ Dict.keys (Dict.ofEntries others), key ∉ Dict.keys checks := by
  intro key hkey
  obtain ⟨m, hm, rfl⟩ := List.mem_map.mp hkey
  have hkeys : m.1 ∈ Dict.keys others := List.mem_map_of_mem (Dict.mem_of_mem_ofEntries hm)
  rw [keys_memberValues h] at hkeys
  obtain ⟨m', hm', heq⟩ := List.mem_map.mp hkeys
  have hnone := (List.mem_filter.mp hm').2
  rw [Dict.isNone_get?, heq] at hnone
  exact of_decide_eq_true hnone

/-- What was kept of a record is what stands behind its fields. -/
theorem unmodelled_written {slots : List (String × Option Json)} {others : List (String × Json)}
    (hapart : ∀ key ∈ Dict.keys others, key ∉ slots.map (·.1)) :
    unmodelled (slots.map (·.1)) (writtenMembers slots ++ others) = others := by
  have hown : unmodelled (slots.map (·.1)) (writtenMembers slots) = [] := by
    refine List.filter_eq_nil_iff.mpr fun m hm => ?_
    rw [decide_eq_true_eq, not_not]
    exact mem_keys_writtenMembers (List.mem_map_of_mem hm)
  have hothers : unmodelled (slots.map (·.1)) others = others :=
    List.filter_eq_self.mpr fun m hm => decide_eq_true (hapart m.1 (List.mem_map_of_mem hm))
  rw [unmodelled, List.filter_append]
  exact (congrArg₂ (· ++ ·) hown hothers).trans (List.nil_append others)

/-! ### Going through the members

A reader goes through the members in their order, stops at a known key that it meets again, and has
all other known members checked. What is written has each key once.
-/

namespace Members

variable {checks : List Check} {other : Doc → Except Fault Unit}

/-- What a member must pass when it is met. -/
def Passes (checks : List Check) (other : Doc → Except Fault Unit) (m : String × Doc) : Prop :=
  match Dict.get? checks m.1 with
  | none => other m.2 = .ok ()
  | some check => check m.2 = .ok ()

theorem scan_ok {members : Members} {seen : List String}
    (hnodup : (members.map (·.1)).Nodup) (hseen : ∀ m ∈ members, m.1 ∉ seen)
    (hpasses : ∀ m ∈ members, Passes checks other m) : scan checks other seen members = .ok () := by
  induction members generalizing seen with
  | nil => rfl
  | cons m members ih =>
    rw [List.map_cons, List.nodup_cons] at hnodup
    obtain ⟨hfirst, hrest⟩ := List.forall_mem_cons.mp hpasses
    have hscan : scan checks other (m.1 :: seen) members = .ok () := by
      refine ih hnodup.2 (fun m' hm' hmem => ?_) hrest
      rcases List.mem_cons.mp hmem with heq | hmem
      · exact hnodup.1 (heq ▸ List.mem_map_of_mem hm')
      · exact hseen m' (List.mem_cons_of_mem m hm') hmem
    unfold Passes at hfirst
    rw [scan]
    cases hcheck : Dict.get? checks m.1 with
    | none =>
      rw [hcheck] at hfirst
      dsimp only at hfirst ⊢
      rw [hfirst]
      exact hscan
    | some check =>
      rw [hcheck] at hfirst
      dsimp only at hfirst ⊢
      rw [if_neg (hseen m List.mem_cons_self), hfirst]
      exact hscan

/-- A slot goes with a check if they have one key and what is written passes. -/
structure SlotPasses (check : Check) (slot : String × Option Json) : Prop where
  key : check.1 = slot.1
  distinct : ∀ j, slot.2 = some j → j.distinct = true
  passes : ∀ j, slot.2 = some j → check.2 (Doc.ofJson j) = .ok ()

theorem slotPasses {α : Type} {field : Field α} {a : α} (h : field.Keeps a) :
    SlotPasses field.check (field.slot a) where
  key := rfl
  distinct j hj := (h.written j hj).1
  passes j hj := by
    change (field.read (Doc.ofJson j) >>= fun _ => pure ()) = _
    rw [(h.written j hj).2]
    rfl

theorem keys_eq_of_slotPasses {slots : List (String × Option Json)}
    (h : List.Forall₂ SlotPasses checks slots) : Dict.keys checks = slots.map (·.1) := by
  induction h with
  | nil => rfl
  | cons hfirst _ ih => rw [Dict.keys_cons, List.map_cons, hfirst.key, ih]

theorem exists_check {slots : List (String × Option Json)}
    (h : List.Forall₂ SlotPasses checks slots) {slot : String × Option Json} (hslot : slot ∈ slots) :
    ∃ check ∈ checks, SlotPasses check slot := by
  induction h with
  | nil => cases hslot
  | cons hfirst _ ih =>
    rcases List.mem_cons.mp hslot with rfl | hslot
    · exact ⟨_, List.mem_cons_self, hfirst⟩
    · obtain ⟨check, hcheck, hpasses⟩ := ih hslot
      exact ⟨check, List.mem_cons_of_mem _ hcheck, hpasses⟩

section

variable {slots : List (String × Option Json)} {others : List (String × Json)}
  (hslots : List.Forall₂ SlotPasses checks slots)
  (hnodup : (slots.map (·.1) ++ Dict.keys others).Nodup)

include hslots hnodup

/-- What was written for a record passes, with any members after its own that do. -/
theorem scan_written (hothers : ∀ m ∈ others, other (Doc.ofJson m.2) = .ok ()) :
    scan checks other [] (Doc.ofMembers (writtenMembers slots ++ others)) = .ok () := by
  have hkeys := keys_eq_of_slotPasses hslots
  obtain ⟨hown, -, hapart⟩ := List.nodup_append.mp hnodup
  refine scan_ok ?_ (fun m _ => List.not_mem_nil) fun m hm => ?_
  · rw [Doc.keys_ofMembers]
    exact nodup_keys_written hnodup
  rw [Doc.ofMembers_eq] at hm
  obtain ⟨⟨key, j⟩, hmember, rfl⟩ := List.mem_map.mp hm
  unfold Passes
  rcases List.mem_append.mp hmember with hm | hm
  · obtain ⟨slot, hslot, hm⟩ := List.mem_filterMap.mp hm
    obtain ⟨j', hj, heq⟩ := Option.map_eq_some_iff.mp hm
    cases heq
    obtain ⟨check, hcheck, hpasses⟩ := exists_check hslots hslot
    have hfound : Dict.get? checks slot.1 = some check.2 :=
      Dict.get?_of_mem (hkeys ▸ hown) (hpasses.key ▸ hcheck)
    rw [hfound]
    exact hpasses.passes j hj
  · have hfresh : key ∉ Dict.keys checks := fun hmem =>
      hapart key (hkeys ▸ hmem) key (List.mem_map_of_mem hm) rfl
    rw [Dict.get?_eq_none hfresh]
    exact hothers _ hm

/-- What was written for a record can be taken, with any members after its own. -/
theorem taken_written (hothers : ∀ m ∈ others, m.2.distinct = true) :
    taken checks (Doc.ofMembers (writtenMembers slots ++ others)) =
      .ok (Doc.ofMembers (writtenMembers slots ++ others)) := by
  have hvalues : ∀ m ∈ others,
      (do let _ ← (Doc.ofJson m.2).value : Except Fault Unit) = .ok () := fun m hm => by
    rw [Doc.value_ofJson (hothers m hm)]
    rfl
  rw [taken, scan_written hslots hnodup hvalues]
  rfl

end

end Members

end Flowchart

import Flowchart.Proofs.KeyedReading
import Flowchart.Proofs.Positions
import Flowchart.Proofs.WrittenFields

/-!
# The documents of tasks

A task that was read came from an object, and each task inside it from a document in that object.
The type decides which fields were read, so a kind tells where it was read from. A missing sequence
is empty, which is why nothing more is known of the document of an empty one.
-/

namespace Flowchart

/-- The second document stands in the first, the object of a task, where the branch is read. -/
inductive Doc.At : Branch → Doc → Doc → Prop where
  | fork {members : Members} {flaw flaw' : Option Flaw} {items : List Doc} {i : Nat} {d : Doc} :
      Dict.get? members Kind.branchesKey = some (.arr items flaw') → items[i]? = some d →
      At (.fork i) (.obj members flaw) d
  | case {members cases : Members} {flaw flaw' : Option Flaw} {key : String} {d : Doc} :
      Dict.get? members Kind.casesKey = some (.obj cases flaw') → (key, d) ∈ cases →
      At (.case key) (.obj members flaw) d
  | default {members : Members} {flaw : Option Flaw} {d : Doc} :
      Dict.get? members Kind.defaultKey = some d → At .default (.obj members flaw) d
  | loopBody {members : Members} {flaw : Option Flaw} {d : Doc} :
      Dict.get? members Kind.bodyKey = some d → At .loopBody (.obj members flaw) d

theorem Outcome.getElem?_of_mapM {α β ε : Type} {f : α → Except ε β} {as : List α} {bs : List β}
    (h : as.mapM f = .ok bs) {i : Nat} {b : β} (hb : bs[i]? = some b) :
    ∃ a, as[i]? = some a ∧ f a = .ok b := by
  induction as generalizing bs i with
  | nil =>
    rw [List.mapM_nil, pure_eq_ok] at h
    subst h
    cases hb
  | cons a as ih =>
    rw [List.mapM_cons, bind_eq_ok] at h
    obtain ⟨b', hb', h⟩ := h
    obtain ⟨bs', hbs', h⟩ := bind_eq_ok.mp h
    rw [pure_eq_ok] at h
    subst h
    cases i with
    | zero =>
      obtain rfl := Option.some.inj hb
      exact ⟨a, rfl, hb'⟩
    | succ i =>
      rw [List.getElem?_cons_succ] at hb ⊢
      exact ih hbs' hb

namespace Reading

theorem ofItems_eq (items : List Doc) : ofItems items = items.map ofDoc := by
  induction items with
  | nil => rfl
  | cons d rest ih => rw [ofItems, ih, List.map_cons]

theorem ofMembers_eq (members : Members) :
    ofMembers members = members.map fun m => (m.1, ofDoc m.2) := by
  induction members with
  | nil => rfl
  | cons m rest ih => rw [ofMembers, ih, List.map_cons]

theorem get?_ofMembers (members : Members) (key : String) :
    Dict.get? (ofMembers members) key = (Dict.get? members key).map ofDoc := by
  rw [ofMembers_eq, Dict.get?_map]

/-- What is read under a key is empty, or there is a document under that key. -/
theorem get_ok {α : Type} {part : Reading → Except Fault (List α)} {members : Members}
    {key : String} {as : List α} (h : get part (ofMembers members) key = .ok as) :
    as = [] ∨ ∃ d, Dict.get? members key = some d ∧ part (ofDoc d) = .ok as := by
  unfold get at h
  rw [get?_ofMembers] at h
  cases hd : Dict.get? members key with
  | none =>
    rw [hd] at h
    exact Or.inl (Outcome.pure_eq_ok.mp h).symm
  | some d =>
    rw [hd] at h
    exact Or.inr ⟨d, rfl, h⟩

theorem getElem?_of_items {α : Type} {part : Reading → Except Fault α} {items : List Doc}
    {as : List α} (h : (ofItems items).mapM part = .ok as) {i : Nat} {a : α}
    (ha : as[i]? = some a) : ∃ d, items[i]? = some d ∧ part (ofDoc d) = .ok a := by
  obtain ⟨reading, hreading, hpart⟩ := Outcome.getElem?_of_mapM h ha
  rw [ofItems_eq, List.getElem?_map] at hreading
  obtain ⟨d, hd, rfl⟩ := Option.map_eq_some_iff.mp hreading
  exact ⟨d, hd, hpart⟩

variable {d : Doc}

theorem tasks_ok {tasks : List Task} (h : (ofDoc d).tasks = .ok tasks) :
    ∃ items flaw, d = .arr items flaw ∧ ∀ (i : Nat) t, tasks[i]? = some t →
      ∃ d', items[i]? = some d' ∧ Task.ofDoc d' = .ok t := by
  cases d with
  | arr items flaw =>
    obtain ⟨read, hread, h⟩ := Outcome.bind_eq_ok.mp h
    obtain ⟨-, -, h⟩ := Outcome.bind_eq_ok.mp h
    obtain rfl := Outcome.pure_eq_ok.mp h
    exact ⟨items, flaw, rfl, fun i t ht => getElem?_of_items hread ht⟩
  | deep d => cases d <;> cases h
  | _ => cases h

theorem branches_ok {branches : List (List Task)} (h : (ofDoc d).branches = .ok branches) :
    ∃ items flaw, d = .arr items flaw ∧ ∀ (i : Nat) s, branches[i]? = some s →
      ∃ d', items[i]? = some d' ∧ Task.sequenceOfDoc d' = .ok s := by
  cases d with
  | arr items flaw =>
    obtain ⟨read, hread, h⟩ := Outcome.bind_eq_ok.mp h
    obtain ⟨-, -, h⟩ := Outcome.bind_eq_ok.mp h
    obtain rfl := Outcome.pure_eq_ok.mp h
    exact ⟨items, flaw, rfl, fun i s hs => getElem?_of_items hread hs⟩
  | deep d => cases d <;> cases h
  | _ => cases h

theorem cases_ok {cases : List (String × List Task)} (h : (ofDoc d).cases = .ok cases) :
    ∃ members flaw, d = .obj members flaw ∧ ∀ c ∈ cases,
      ∃ d', (c.1, d') ∈ members ∧ Task.sequenceOfDoc d' = .ok c.2 := by
  cases d with
  | obj members flaw =>
    obtain ⟨read, hread, h⟩ := Outcome.bind_eq_ok.mp h
    obtain ⟨-, -, h⟩ := Outcome.bind_eq_ok.mp h
    obtain rfl := Outcome.pure_eq_ok.mp h
    refine ⟨members, flaw, rfl, fun c hc => ?_⟩
    obtain ⟨r, hr, heq⟩ := (Outcome.mem_of_mapM hread).1 c (Dict.mem_of_mem_ofEntries hc)
    obtain ⟨tasks, htasks, heq⟩ := Outcome.bind_eq_ok.mp heq
    obtain rfl := Outcome.pure_eq_ok.mp heq
    rw [ofMembers_eq] at hr
    obtain ⟨m, hm, rfl⟩ := List.mem_map.mp hr
    exact ⟨m.2, hm, htasks⟩
  | deep d => cases d <;> cases h
  | _ => cases h

end Reading

namespace Kind

section

variable {type : TaskType} {members : Members} {readings : List (String × Reading)}
  {k : Kind (List Task)}

theorem ofMembers_ok {typeOf : Doc → Except Fault TaskType}
    (h : ofMembers typeOf members readings = .ok k) : ∃ d type, Dict.get? members typeKey = some d ∧
      typeOf d = .ok type ∧ repeats (typeKey :: type.fieldKeys) members = false ∧
      ofFields type members readings = .ok k := by
  unfold ofMembers at h
  split at h
  · cases h
  · next d hd =>
    obtain ⟨type, htype, h⟩ := Outcome.bind_eq_ok.mp h
    dsimp only at h
    split at h
    · cases h
    · next hrepeats => exact ⟨d, type, hd, htype, Bool.eq_false_iff.mpr hrepeats, h⟩

theorem type_of_ofFields (h : ofFields type members readings = .ok k) : k.type = type := by
  cases type with
  | join | exclusiveJoin | subWorkflow | event | doWhileEnd | forkJoin | switch | decision =>
    obtain ⟨value, -, h⟩ := Outcome.bind_eq_ok.mp h
    exact Outcome.pure_eq_ok.mp h ▸ rfl
  | forkJoinDynamic | doWhile =>
    obtain ⟨first, -, h⟩ := Outcome.bind_eq_ok.mp h
    obtain ⟨second, -, h⟩ := Outcome.bind_eq_ok.mp h
    exact Outcome.pure_eq_ok.mp h ▸ rfl
  | fork | other => cases h
  | _ => exact Outcome.pure_eq_ok.mp h ▸ rfl

theorem param_of_ofFields {param : Json}
    (h : ofFields .subWorkflow members readings = .ok (.subWorkflow param)) :
    subWorkflowField.get members = .ok param := by
  obtain ⟨param', hparam, h⟩ := Outcome.bind_eq_ok.mp h
  cases Outcome.pure_eq_ok.mp h
  exact hparam

theorem branches_of_ofFields {branches : List (List Task)}
    (h : ofFields .forkJoin members readings = .ok (.fork branches)) :
    Reading.get (·.branches) readings branchesKey = .ok branches := by
  obtain ⟨branches', hbranches, h⟩ := Outcome.bind_eq_ok.mp h
  cases Outcome.pure_eq_ok.mp h
  exact hbranches

theorem body_of_ofFields {condition : Option String} {body : List Task}
    (h : ofFields .doWhile members readings = .ok (.loop condition body)) :
    Reading.get (·.tasks) readings bodyKey = .ok body := by
  obtain ⟨condition', -, h⟩ := Outcome.bind_eq_ok.mp h
  obtain ⟨body', hbody, h⟩ := Outcome.bind_eq_ok.mp h
  cases Outcome.pure_eq_ok.mp h
  exact hbody

theorem switch_of_ofFields {form : SwitchForm} {s : Switch (List Task)}
    (h : ofFields form.type members readings = .ok (.switch form s)) :
    Reading.get (·.cases) readings casesKey = .ok s.cases ∧
      Reading.get (·.tasks) readings defaultKey = .ok s.otherwise := by
  have hfields : ofFields.switchOfFields members readings = .ok s := by
    cases form <;>
    · obtain ⟨s', hs, h⟩ := Outcome.bind_eq_ok.mp h
      cases Outcome.pure_eq_ok.mp h
      exact hs
  obtain ⟨evaluator, -, h⟩ := Outcome.bind_eq_ok.mp hfields
  obtain ⟨expression, -, h⟩ := Outcome.bind_eq_ok.mp h
  obtain ⟨caseParam, -, h⟩ := Outcome.bind_eq_ok.mp h
  obtain ⟨cases, hcases, h⟩ := Outcome.bind_eq_ok.mp h
  obtain ⟨otherwise, hotherwise, h⟩ := Outcome.bind_eq_ok.mp h
  obtain rfl := Outcome.pure_eq_ok.mp h
  exact ⟨hcases, hotherwise⟩

end

/-- Each sequence of a kind was read from a document at its branch, unless it is empty. -/
theorem at_of_ofFields {members : Members} {k : Kind (List Task)} {branch : Branch}
    {s : List Task} (flaw : Option Flaw)
    (h : ofFields k.type members (Reading.ofMembers members) = .ok k) (hs : k.get? branch = some s) :
    s = [] ∨ ∃ d, Doc.At branch (.obj members flaw) d ∧ Task.sequenceOfDoc d = .ok s := by
  unfold get? at hs
  split at hs
  · next branches i =>
    rcases Reading.get_ok (branches_of_ofFields h) with rfl | ⟨d, hd, hbranches⟩
    · cases hs
    · obtain ⟨items, flaw', rfl, hitems⟩ := Reading.branches_ok hbranches
      obtain ⟨d', hd', hread⟩ := hitems i s hs
      exact Or.inr ⟨d', .fork hd hd', hread⟩
  · next form switch key =>
    rcases Reading.get_ok (switch_of_ofFields h).1 with hnil | ⟨d, hd, hcases⟩
    · rw [hnil] at hs
      cases hs
    · obtain ⟨members', flaw', rfl, hmembers⟩ := Reading.cases_ok hcases
      obtain ⟨d', hd', hread⟩ := hmembers (key, s) (Dict.mem_of_get? hs)
      exact Or.inr ⟨d', .case hd hd', hread⟩
  · next form switch =>
    obtain rfl := Option.some.inj hs
    rcases Reading.get_ok (switch_of_ofFields h).2 with hnil | ⟨d, hd, hread⟩
    · exact Or.inl hnil
    · exact Or.inr ⟨d, .default hd, hread⟩
  · next condition body =>
    obtain rfl := Option.some.inj hs
    rcases Reading.get_ok (body_of_ofFields h) with hnil | ⟨d, hd, hread⟩
    · exact Or.inl hnil
    · exact Or.inr ⟨d, .loopBody hd, hread⟩
  · cases hs

end Kind

namespace Task

/-- The keys of the members that a task of the type has for itself. -/
def modelledKeys (type : TaskType) : List String :=
  Dict.keys checks ++ Kind.typeKey :: type.fieldKeys

/-- What is known of a task that was read from members. -/
structure ReadFrom (members : Members) (t : Task) : Prop where
  name : nameField.get members = .ok t.name
  reference : referenceField.get members = .ok t.reference
  description : descriptionField.get members = .ok t.description
  optional : optionalField.get members = .ok t.optional
  inputs : inputsField.get members = .ok t.inputs
  kind : Kind.ofFields t.type members (Reading.ofMembers members) = .ok t.kind
  extra : ∃ others, Doc.memberValues (members.filter fun m => (Dict.get? checks m.1).isNone) =
    .ok others ∧ t.extra = (Dict.ofEntries others).filter fun m =>
      m.1 ∉ Kind.typeKey :: t.type.fieldKeys

theorem ofDoc_ok {d : Doc} {t : Task} (h : ofDoc d = .ok t) :
    ∃ members flaw, d = .obj members flaw ∧ ReadFrom members t := by
  cases d with
  | obj members flaw =>
    refine ⟨members, flaw, rfl, ?_⟩
    obtain ⟨taken, htaken, h⟩ := Outcome.bind_eq_ok.mp h
    obtain ⟨-, -, htaken⟩ := Outcome.bind_eq_ok.mp htaken
    obtain rfl := Outcome.pure_eq_ok.mp htaken
    obtain ⟨-, -, h⟩ := Outcome.bind_eq_ok.mp h
    obtain ⟨name, hname, h⟩ := Outcome.bind_eq_ok.mp h
    obtain ⟨reference, hreference, h⟩ := Outcome.bind_eq_ok.mp h
    obtain ⟨description, hdescription, h⟩ := Outcome.bind_eq_ok.mp h
    obtain ⟨optional, hoptional, h⟩ := Outcome.bind_eq_ok.mp h
    obtain ⟨inputs, hinputs, h⟩ := Outcome.bind_eq_ok.mp h
    obtain ⟨kind, hkind, h⟩ := Outcome.bind_eq_ok.mp h
    obtain ⟨others, hothers, h⟩ := Outcome.bind_eq_ok.mp h
    obtain rfl := Outcome.pure_eq_ok.mp h
    obtain ⟨-, type, -, -, -, hfields⟩ := Kind.ofMembers_ok hkind
    obtain rfl := Kind.type_of_ofFields hfields
    exact ⟨hname, hreference, hdescription, hoptional, hinputs, hfields, others, hothers, rfl⟩
  | deep d => cases d <;> cases h
  | _ => cases h

/-- All tasks inside a task that was read were read too. -/
theorem exists_ofDoc_of_mem {d : Doc} {t u : Task} (h : ofDoc d = .ok t) {s : List Task}
    (hs : s ∈ t.kind.sequences) (hu : u ∈ s) : ∃ d', ofDoc d' = .ok u := by
  obtain ⟨members, flaw, rfl, hread⟩ := ofDoc_ok h
  have hkeyed : t.kind.Keyed :=
    (throughout_iff.mp ((Reading.keyed_ofDoc _).task t h) t List.mem_cons_self).1
  rw [Kind.sequences_eq_parts] at hs
  obtain ⟨⟨branch, s⟩, hpart, rfl⟩ := List.mem_map.mp hs
  obtain ⟨i, hi⟩ := List.mem_iff_getElem?.mp hu
  rcases Kind.at_of_ofFields flaw hread.kind (Kind.get?_of_mem_parts hkeyed hpart) with
    rfl | ⟨d, -, hd⟩
  · cases hu
  · obtain ⟨items, flaw', rfl, hitems⟩ := Reading.tasks_ok hd
    obtain ⟨d', -, hd'⟩ := hitems i u hi
    exact ⟨d', hd'⟩

end Task

end Flowchart

import Flowchart.Proofs.Upkeep

/-!
# Trees that are read

The cases of a switch are read as a dictionary: a key that comes again replaces what it stood for.
So in whatever is read from a document, no switch has two cases with one key.
-/

namespace Flowchart

/-- What a document reads as has distinct cases, in each place where it can be read. -/
structure Reading.Keyed (r : Reading) : Prop where
  task : ∀ t, r.task = .ok t → Throughout Kind.Keyed [t]
  tasks : ∀ s, r.tasks = .ok s → Throughout Kind.Keyed s
  branches : ∀ bs, r.branches = .ok bs → ∀ s ∈ bs, Throughout Kind.Keyed s
  cases : ∀ cs, r.cases = .ok cs → (Dict.keys cs).Nodup ∧ ∀ c ∈ cs, Throughout Kind.Keyed c.2

namespace Kind

variable {type : TaskType} {members : Members} {readings : List (String × Reading)}
  {k : Kind (List Task)}

/-- Only a switch has cases, and it has a default as well. -/
theorem keyed_of_no_sequences (h : k.sequences = []) :
    k.Keyed ∧ ∀ s ∈ k.sequences, Throughout Keyed s := by
  rw [h]
  refine ⟨?_, fun s hs => absurd hs List.not_mem_nil⟩
  cases k with
  | switch form s => cases h
  | _ => exact keyed_of_switch?_eq_none rfl

theorem keyed_get {α : Type} {part : Reading → Except Fault (List α)} {key : String}
    {P : List α → Prop} (hnil : P []) (hr : ∀ r ∈ readings, ∀ as, part r.2 = .ok as → P as)
    {as : List α} (h : Reading.get part readings key = .ok as) : P as := by
  unfold Reading.get at h
  split at h
  · next reading hreading =>
    obtain ⟨before, after, heq, -⟩ := Dict.split_of_get? hreading
    refine hr (key, reading) ?_ as h
    rw [heq]
    exact List.mem_append_right _ List.mem_cons_self
  · rw [Outcome.pure_eq_ok] at h
    exact h ▸ hnil

theorem keyed_ofFields (hr : ∀ r ∈ readings, r.2.Keyed)
    (h : ofFields type members readings = .ok k) :
    k.Keyed ∧ ∀ s ∈ k.sequences, Throughout Keyed s := by
  have hswitch : ∀ {form s}, ofFields.switchOfFields members readings = .ok s →
      (Kind.switch form s).Keyed ∧ ∀ q ∈ (Kind.switch form s).sequences, Throughout Keyed q := by
    intro form s h
    rw [ofFields.switchOfFields] at h
    obtain ⟨evaluator, -, h⟩ := Outcome.bind_eq_ok.mp h
    obtain ⟨expression, -, h⟩ := Outcome.bind_eq_ok.mp h
    obtain ⟨caseParam, -, h⟩ := Outcome.bind_eq_ok.mp h
    obtain ⟨cases, hcases, h⟩ := Outcome.bind_eq_ok.mp h
    obtain ⟨otherwise, hotherwise, h⟩ := Outcome.bind_eq_ok.mp h
    rw [Outcome.pure_eq_ok] at h
    subst h
    obtain ⟨hnodup, hinner⟩ := keyed_get (P := fun cases : List (String × List Task) =>
      (Dict.keys cases).Nodup ∧ ∀ c ∈ cases, Throughout Keyed c.2)
      ⟨List.nodup_nil, fun c hc => absurd hc List.not_mem_nil⟩
      (fun r hmem cs hcs => (hr r hmem).cases cs hcs) hcases
    have hdefault : Throughout Keyed otherwise :=
      keyed_get throughout_nil (fun r hmem q hq => (hr r hmem).tasks q hq) hotherwise
    refine ⟨fun _ hs => Option.some.inj hs ▸ hnodup, fun q hq => ?_⟩
    rcases List.mem_cons.mp hq with rfl | hq
    · exact hdefault
    · obtain ⟨c, hc, rfl⟩ := List.mem_map.mp hq
      exact hinner c hc
  cases type with
  | forkJoin =>
    obtain ⟨branches, hbranches, h⟩ := Outcome.bind_eq_ok.mp h
    rw [Outcome.pure_eq_ok] at h
    subst h
    have hinner := keyed_get (P := fun branches : List (List Task) =>
      ∀ q ∈ branches, Throughout Keyed q) (fun q hq => absurd hq List.not_mem_nil)
      (fun r hmem bs hbs => (hr r hmem).branches bs hbs) hbranches
    exact ⟨keyed_of_switch?_eq_none rfl, hinner⟩
  | doWhile =>
    obtain ⟨condition, -, h⟩ := Outcome.bind_eq_ok.mp h
    obtain ⟨body, hbody, h⟩ := Outcome.bind_eq_ok.mp h
    rw [Outcome.pure_eq_ok] at h
    subst h
    have hinner : Throughout Keyed body :=
      keyed_get throughout_nil (fun r hmem q hq => (hr r hmem).tasks q hq) hbody
    exact ⟨keyed_of_switch?_eq_none rfl, fun q hq => List.mem_singleton.mp hq ▸ hinner⟩
  | switch | decision =>
    obtain ⟨s, hs, h⟩ := Outcome.bind_eq_ok.mp h
    rw [Outcome.pure_eq_ok] at h
    exact h ▸ hswitch hs
  | forkJoinDynamic =>
    obtain ⟨tasksParam, -, h⟩ := Outcome.bind_eq_ok.mp h
    obtain ⟨inputParam, -, h⟩ := Outcome.bind_eq_ok.mp h
    rw [Outcome.pure_eq_ok] at h
    exact h ▸ keyed_of_no_sequences rfl
  | join | exclusiveJoin | subWorkflow | event | doWhileEnd =>
    obtain ⟨value, -, h⟩ := Outcome.bind_eq_ok.mp h
    rw [Outcome.pure_eq_ok] at h
    exact h ▸ keyed_of_no_sequences rfl
  | fork | other => cases h
  | _ =>
    cases h
    exact keyed_of_no_sequences rfl

theorem keyed_ofMembers (hr : ∀ r ∈ readings, r.2.Keyed)
    {typeOf : Doc → Except Fault TaskType} (h : ofMembers typeOf members readings = .ok k) :
    k.Keyed ∧ ∀ s ∈ k.sequences, Throughout Keyed s := by
  unfold ofMembers at h
  split at h
  · cases h
  · obtain ⟨type, -, h⟩ := Outcome.bind_eq_ok.mp h
    dsimp only at h
    split at h
    · cases h
    · exact keyed_ofFields hr h

end Kind

namespace Reading

variable {readings : List (String × Reading)}

theorem throughout_of_forall {P : Kind (List Task) → Prop} {tasks : List Task}
    (h : ∀ t ∈ tasks, Throughout P [t]) : Throughout P tasks :=
  throughout_iff.mpr fun t ht => throughout_iff.mp (h t ht) t List.mem_cons_self

theorem keyed_ofArray {items : List Reading} {flaw : Option Flaw} (h : ∀ r ∈ items, r.Keyed) :
    (ofArray items flaw).Keyed where
  task := nofun
  tasks s hs := by
    obtain ⟨tasks, htasks, hs⟩ := Outcome.bind_eq_ok.mp hs
    obtain ⟨-, -, hs⟩ := Outcome.bind_eq_ok.mp hs
    rw [Outcome.pure_eq_ok] at hs
    subst hs
    refine throughout_of_forall fun t ht => ?_
    obtain ⟨r, hr, heq⟩ := (Outcome.mem_of_mapM htasks).1 t ht
    exact (h r hr).task t heq
  branches bs hbs := by
    obtain ⟨branches, hbranches, hbs⟩ := Outcome.bind_eq_ok.mp hbs
    obtain ⟨-, -, hbs⟩ := Outcome.bind_eq_ok.mp hbs
    rw [Outcome.pure_eq_ok] at hbs
    subst hbs
    intro s hs
    obtain ⟨r, hr, heq⟩ := (Outcome.mem_of_mapM hbranches).1 s hs
    exact (h r hr).tasks s heq
  cases := nofun

theorem keyed_ofObject {members : Members} {flaw : Option Flaw}
    (h : ∀ r ∈ readings, r.2.Keyed) : (ofObject members flaw readings).Keyed where
  task t ht := by
    obtain ⟨taken, -, ht⟩ := Outcome.bind_eq_ok.mp ht
    obtain ⟨-, -, ht⟩ := Outcome.bind_eq_ok.mp ht
    rw [Task.ofMembers] at ht
    obtain ⟨name, -, ht⟩ := Outcome.bind_eq_ok.mp ht
    obtain ⟨reference, -, ht⟩ := Outcome.bind_eq_ok.mp ht
    obtain ⟨description, -, ht⟩ := Outcome.bind_eq_ok.mp ht
    obtain ⟨optional, -, ht⟩ := Outcome.bind_eq_ok.mp ht
    obtain ⟨inputs, -, ht⟩ := Outcome.bind_eq_ok.mp ht
    obtain ⟨kind, hkind, ht⟩ := Outcome.bind_eq_ok.mp ht
    obtain ⟨others, -, ht⟩ := Outcome.bind_eq_ok.mp ht
    rw [Outcome.pure_eq_ok] at ht
    subst ht
    exact throughout_iff.mpr fun t ht => List.mem_singleton.mp ht ▸ Kind.keyed_ofMembers h hkind
  tasks := nofun
  branches := nofun
  cases cs hcs := by
    obtain ⟨entries, hentries, hcs⟩ := Outcome.bind_eq_ok.mp hcs
    obtain ⟨-, -, hcs⟩ := Outcome.bind_eq_ok.mp hcs
    rw [Outcome.pure_eq_ok] at hcs
    subst hcs
    refine ⟨Dict.nodup_keys_ofEntries entries, fun c hc => ?_⟩
    obtain ⟨r, hr, heq⟩ := (Outcome.mem_of_mapM hentries).1 c (Dict.mem_of_mem_ofEntries hc)
    obtain ⟨tasks, htasks, heq⟩ := Outcome.bind_eq_ok.mp heq
    rw [Outcome.pure_eq_ok] at heq
    subst heq
    exact (h r hr).tasks tasks htasks

mutual

theorem keyed_ofDoc : ∀ d : Doc, (ofDoc d).Keyed
  | .arr items flaw => keyed_ofArray (keyed_ofItems items)
  | .obj members flaw => keyed_ofObject (keyed_ofMembers members)
  | .flawed flaw => ⟨nofun, nofun, nofun, nofun⟩
  | .deep d => by cases d <;> exact ⟨nofun, nofun, nofun, nofun⟩
  | .null | .bool _ | .int _ | .decimal _ | .str _ => ⟨nofun, nofun, nofun, nofun⟩

theorem keyed_ofItems : ∀ items : List Doc, ∀ r ∈ ofItems items, r.Keyed
  | [] => fun _ hr => absurd hr List.not_mem_nil
  | d :: rest => List.forall_mem_cons.mpr ⟨keyed_ofDoc d, keyed_ofItems rest⟩

theorem keyed_ofMembers : ∀ members : Members, ∀ r ∈ ofMembers members, r.2.Keyed
  | [] => fun _ hr => absurd hr List.not_mem_nil
  | (_, d) :: rest => List.forall_mem_cons.mpr ⟨keyed_ofDoc d, keyed_ofMembers rest⟩

end

end Reading

/-- In a definition that was read, no switch has two cases with one key. -/
theorem Definition.keyed_of_ofDoc {d : Doc} {definition : Definition}
    (h : Definition.ofDoc d = .ok definition) : Throughout Kind.Keyed definition.tasks := by
  obtain ⟨members, -, h⟩ := Outcome.bind_eq_ok.mp h
  obtain ⟨others, -, h⟩ := Outcome.bind_eq_ok.mp h
  obtain ⟨name, -, h⟩ := Outcome.bind_eq_ok.mp h
  obtain ⟨description, -, h⟩ := Outcome.bind_eq_ok.mp h
  obtain ⟨version, -, h⟩ := Outcome.bind_eq_ok.mp h
  obtain ⟨schemaVersion, -, h⟩ := Outcome.bind_eq_ok.mp h
  obtain ⟨tasks, htasks, h⟩ := Outcome.bind_eq_ok.mp h
  obtain ⟨inputs, -, h⟩ := Outcome.bind_eq_ok.mp h
  obtain ⟨outputs, -, h⟩ := Outcome.bind_eq_ok.mp h
  obtain ⟨owner, -, h⟩ := Outcome.bind_eq_ok.mp h
  rw [Outcome.pure_eq_ok] at h
  subst h
  unfold Field.get at htasks
  split at htasks
  · next doc missing _ _ => exact (Reading.keyed_ofDoc _).tasks tasks htasks
  · next heq =>
    cases heq
    cases htasks
    exact throughout_nil
  · cases htasks

end Flowchart

import Flowchart.Definition.Validation
import Flowchart.Proofs.Deletions
import Mathlib.Data.List.Induction

/-!
# Ready definitions

A walk over the tree meets each task together with the one right after it in its own sequence, and
after the tasks met before. Whether the task breaks a rule can be read off from these alone. So a
definition is accepted if none of its tasks breaks a rule, and otherwise it is the first one to do
so that is reported.
-/

namespace Flowchart

/-- A task with the one right after it in its sequence. -/
structure Visit where
  task : Task
  next : Option Task

namespace Visit

def reference (v : Visit) : String := v.task.reference

def sequence : List (Task × (Option Task → List Visit)) → List Visit
  | [] => []
  | (_, visits) :: rest => visits (rest.head?.map (·.1)) ++ sequence rest

/-- The visits of a task and of those in it, once it is known what stands after it. -/
def ofTask : Task → Task × (Option Task → List Visit) :=
  Task.fold fun t k => (t, fun next => ⟨t, next⟩ :: k.sequences.flatMap sequence)

end Visit

/-- All tasks of a sequence, at any depth, in the order of the listing. -/
def survey (tasks : List Task) : List Visit := Visit.sequence (tasks.map Visit.ofTask)

/-- What holds of a sequence once it holds of the sequences in its first task and of the rest of it
holds of every sequence. -/
theorem sequence_induction {P : List Task → Prop} (nil : P [])
    (cons : ∀ t rest, (∀ s ∈ t.kind.sequences, P s) → P rest → P (t :: rest)) (tasks : List Task) :
    P tasks := by
  have hlift : ∀ s : List Task, (∀ t ∈ s, ∀ inner ∈ t.kind.sequences, P inner) → P s := by
    intro s hs
    induction s with
    | nil => exact nil
    | cons t rest ih =>
      obtain ⟨ht, hrest⟩ := List.forall_mem_cons.mp hs
      exact cons t rest ht (ih hrest)
  have htask : ∀ t : Task, ∀ s ∈ t.kind.sequences, P s := by
    intro t
    induction t using Task.induction with
    | step t ih => exact fun s hs => hlift s (ih s hs)
  exact hlift tasks fun t _ => htask t

theorem Visit.ofTask_eq (t : Task) :
    ofTask t = (t, fun next => ⟨t, next⟩ :: t.kind.sequences.flatMap survey) := by
  rw [ofTask, Task.fold_eq, Kind.sequences_map, List.flatMap_map]
  rfl

/-- After a task come those in its sequences, and then those behind it. -/
theorem survey_cons (t : Task) (rest : List Task) : survey (t :: rest) =
    ⟨t, rest.head?⟩ :: t.kind.sequences.flatMap survey ++ survey rest := by
  have hnext : (rest.map Visit.ofTask).head?.map (·.1) = rest.head? := by
    rw [List.head?_map, Option.map_map]
    cases rest with
    | nil => rfl
    | cons u rest => rw [List.head?_cons, Option.map_some, Function.comp_apply, Visit.ofTask_eq]
  rw [survey, List.map_cons, Visit.ofTask_eq, Visit.sequence, hnext]
  rfl

theorem task_survey (tasks : List Task) : (survey tasks).map (·.task) = listing tasks := by
  induction tasks using sequence_induction with
  | nil => rfl
  | cons t rest hinner hrest =>
    have hsequences : (t.kind.sequences.flatMap survey).map (·.task) = t.descendants := by
      rw [List.map_flatMap, Task.descendants]
      exact congrArg List.flatten (List.map_congr_left hinner)
    rw [survey_cons, List.map_append, List.map_cons, hsequences, hrest, ← Task.family_eq]
    rfl

/-- What the tasks of a definition must satisfy before it is executed. -/
inductive Rule where
  | distinct
  | own
  | joined
  | filled
  | branched
  deriving DecidableEq

namespace Rule

/-- The order in which the rules are tried on a task. -/
def order : List Rule := [distinct, own, joined, filled, branched]

def earlier (rule : Rule) : List Rule := order.takeWhile (· ≠ rule)

def offence : Rule → String → Offence
  | distinct => .duplicateReference
  | own => .generatedTask
  | joined => .forkWithoutJoin
  | filled => .emptyLoop
  | branched => .emptySwitch

end Rule

namespace Visit

/-- The task breaks a rule, when it is met after the tasks of `before`. -/
def Breaks (v : Visit) (before : List Visit) : Rule → Prop
  | .distinct => v.reference ∈ before.map reference
  | .own => v.task.type ∈ [TaskType.terminal, .doWhileEnd, .dynamicForkChildren, .loopChildren]
  | .joined => v.task.kind.isFork = true ∧ ¬ ∃ t ∈ v.next, t.kind.isJoin = true
  | .filled => ∃ condition, v.task.kind = .loop condition []
  | .branched => ∃ form s, v.task.kind = .switch form s ∧ s.cases = [] ∧ s.otherwise = []

/-- The rule is the first one that the task breaks. -/
def BreaksFirst (v : Visit) (before : List Visit) (rule : Rule) : Prop :=
  v.Breaks before rule ∧ ∀ r ∈ rule.earlier, ¬ v.Breaks before r

end Visit

/-- None of these tasks, met in this order, breaks a rule. -/
def Unbroken (visits : List Visit) : Prop :=
  ∀ before v after, visits = before ++ v :: after → ∀ rule, ¬ v.Breaks before rule

/-- The offence is that of the first task that breaks a rule, and of the first rule that this task
breaks. -/
def FirstOffence (tasks : List Task) (offence : Offence) : Prop :=
  ∃ before v after rule, survey tasks = before ++ v :: after ∧ Unbroken before ∧
    v.BreaksFirst before rule ∧ offence = rule.offence v.reference

/-- What execution relies on, over the whole tree. -/
structure Definition.Ready (d : Definition) : Prop where
  distinct : (treeRefs d.tasks).Nodup
  own : ∀ t ∈ listing d.tasks,
    t.type ∉ [TaskType.terminal, .doWhileEnd, .dynamicForkChildren, .loopChildren]
  joined : ForksPaired d.tasks
  filled : ∀ t ∈ listing d.tasks, ∀ condition, t.kind ≠ .loop condition []
  branched : ∀ t ∈ listing d.tasks, ∀ form s, t.kind = .switch form s →
    ¬ (s.cases = [] ∧ s.otherwise = [])

namespace Visit

variable {v : Visit} {before : List Visit} {offence : Offence} {rule : Rule}

/-- The answer for one task, given the references met before. -/
def offence? (v : Visit) (seen : List String) : Option Offence :=
  v.task.offence? (v.next.any (·.kind.isJoin)) seen

def check (seen : List String) (v : Visit) : Except Offence (List String) :=
  match v.offence? seen with
  | some offence => throw offence
  | none => pure (v.reference :: seen)

theorem mem_generated_iff {type : TaskType} : type.isGenerated = true ↔
    type ∈ [TaskType.terminal, .doWhileEnd, .dynamicForkChildren, .loopChildren] := by
  cases type <;> simp [TaskType.isGenerated]

theorem breaks_distinct_iff : v.Breaks before .distinct ↔
    v.task.reference ∈ (before.map reference).reverse :=
  List.mem_reverse.symm

theorem breaks_joined_iff : v.Breaks before .joined ↔
    (v.task.kind.isFork && !v.next.any (·.kind.isJoin)) = true := by
  rw [Bool.and_eq_true, Bool.not_eq_true', ← Bool.not_eq_true, Option.any_eq_true]
  exact Iff.rfl

/-- A task that keeps the rules which do not look into it breaks at most one of the others. -/
theorem offence?_eq_inner (hdistinct : ¬ v.Breaks before .distinct) (hown : ¬ v.Breaks before .own)
    (hjoined : ¬ v.Breaks before .joined) :
    v.offence? (before.map reference).reverse = match v.task.kind with
      | .loop _ [] => some (.emptyLoop v.reference)
      | .switch _ s =>
        if s.cases.isEmpty && s.otherwise.isEmpty then some (.emptySwitch v.reference) else none
      | _ => none := by
  rw [offence?, Task.offence?, if_neg (mt breaks_distinct_iff.mpr hdistinct),
    if_neg (mt mem_generated_iff.mp hown), if_neg (mt breaks_joined_iff.mpr hjoined)]
  rfl

/-- Either the task breaks no rule, or the answer is the offence against the first one it breaks. -/
theorem offence?_cases (v : Visit) (before : List Visit) :
    (v.offence? (before.map reference).reverse = none ∧ ∀ rule, ¬ v.Breaks before rule) ∨
      ∃ rule, v.offence? (before.map reference).reverse = some (rule.offence v.reference) ∧
        v.BreaksFirst before rule := by
  by_cases hdistinct : v.Breaks before .distinct
  · refine Or.inr ⟨.distinct, ?_, hdistinct, by simp [Rule.earlier, Rule.order]⟩
    rw [offence?, Task.offence?, if_pos (breaks_distinct_iff.mp hdistinct)]
    rfl
  by_cases hown : v.Breaks before .own
  · refine Or.inr ⟨.own, ?_, hown, by simp [Rule.earlier, Rule.order, hdistinct]⟩
    rw [offence?, Task.offence?, if_neg (mt breaks_distinct_iff.mpr hdistinct),
      if_pos (mem_generated_iff.mpr hown)]
    rfl
  by_cases hjoined : v.Breaks before .joined
  · refine Or.inr ⟨.joined, ?_, hjoined, by simp [Rule.earlier, Rule.order, hdistinct, hown]⟩
    rw [offence?, Task.offence?, if_neg (mt breaks_distinct_iff.mpr hdistinct),
      if_neg (mt mem_generated_iff.mp hown), if_pos (breaks_joined_iff.mp hjoined)]
    rfl
  rw [offence?_eq_inner hdistinct hown hjoined]
  by_cases hfilled : v.Breaks before .filled
  · refine Or.inr ⟨.filled, ?_, hfilled,
      by simp [Rule.earlier, Rule.order, hdistinct, hown, hjoined]⟩
    obtain ⟨condition, hkind⟩ := hfilled
    rw [hkind]
    rfl
  by_cases hbranched : v.Breaks before .branched
  · refine Or.inr ⟨.branched, ?_, hbranched,
      by simp [Rule.earlier, Rule.order, hdistinct, hown, hjoined, hfilled]⟩
    obtain ⟨form, s, hkind, hcases, hdefault⟩ := hbranched
    simp [hkind, hcases, hdefault, Rule.offence]
  refine Or.inl ⟨?_, fun rule => ?_⟩
  · split
    · next condition hkind => exact absurd ⟨condition, hkind⟩ hfilled
    · next form s hkind =>
      refine if_neg fun hempty => hbranched ⟨form, s, hkind, ?_⟩
      simpa using hempty
    · rfl
  · cases rule <;> assumption

theorem offence?_eq_none_iff :
    v.offence? (before.map reference).reverse = none ↔ ∀ rule, ¬ v.Breaks before rule := by
  rcases offence?_cases v before with ⟨heq, hbreaks⟩ | ⟨rule, heq, hbreaks, -⟩
  · exact iff_of_true heq hbreaks
  · rw [heq]
    exact iff_of_false nofun fun h => h rule hbreaks

/-- Checking a task against the references met before it. -/
theorem check_eq_ok {seen : List String} :
    check (before.map reference).reverse v = .ok seen ↔
      (∀ rule, ¬ v.Breaks before rule) ∧ seen = ((before ++ [v]).map reference).reverse := by
  have hseen : ((before ++ [v]).map reference).reverse =
      v.reference :: (before.map reference).reverse := by
    rw [List.map_append, List.reverse_append]
    rfl
  rw [check, hseen, ← offence?_eq_none_iff]
  cases v.offence? (before.map reference).reverse with
  | some offence => exact iff_of_false nofun nofun
  | none => rw [Outcome.pure_eq_ok, eq_comm, eq_self, true_and]

theorem BreaksFirst.unique {rule' : Rule} (h : v.BreaksFirst before rule)
    (h' : v.BreaksFirst before rule') : rule = rule' := by
  have hsplit : rule ∈ rule'.earlier ∨ rule = rule' ∨ rule' ∈ rule.earlier := by
    cases rule <;> cases rule' <;> decide
  rcases hsplit with hmem | heq | hmem
  · exact absurd h.1 (h'.2 rule hmem)
  · exact heq
  · exact absurd h'.1 (h.2 rule' hmem)

theorem check_eq_error : check (before.map reference).reverse v = .error offence ↔
    ∃ rule, v.BreaksFirst before rule ∧ offence = rule.offence v.reference := by
  rw [check]
  rcases offence?_cases v before with ⟨heq, hbreaks⟩ | ⟨rule, heq, hfirst⟩
  · rw [heq]
    exact iff_of_false nofun fun ⟨rule, hfirst, _⟩ => hbreaks rule hfirst.1
  · rw [heq]
    constructor
    · rintro ⟨⟩
      exact ⟨rule, hfirst, rfl⟩
    · rintro ⟨rule', hfirst', rfl⟩
      rw [hfirst.unique hfirst']
      rfl

end Visit

theorem unbroken_concat {visits : List Visit} {v : Visit} :
    Unbroken (visits ++ [v]) ↔ Unbroken visits ∧ ∀ rule, ¬ v.Breaks visits rule := by
  constructor
  · intro h
    refine ⟨fun before u after heq => h before u (after ++ [v]) ?_, h visits v [] rfl⟩
    rw [heq, List.append_assoc]
    rfl
  · rintro ⟨hvisits, hv⟩ before u after heq
    cases after using List.reverseRecOn with
    | nil =>
      obtain ⟨rfl, huv⟩ := List.append_inj' heq rfl
      obtain rfl := List.singleton_inj.mp huv
      exact hv
    | append_singleton after w =>
      rw [← List.cons_append, ← List.append_assoc] at heq
      exact hvisits before u after (List.append_inj' heq rfl).1

/-- The walk goes on for as long as no task breaks a rule. -/
theorem foldlM_check_eq_ok {visits : List Visit} {seen : List String} :
    visits.foldlM Visit.check [] = .ok seen ↔
      Unbroken visits ∧ seen = (visits.map Visit.reference).reverse := by
  induction visits using List.reverseRecOn generalizing seen with
  | nil =>
    rw [List.foldlM_nil, Outcome.pure_eq_ok, eq_comm]
    exact (and_iff_right fun before v after heq => by simp at heq).symm
  | append_singleton visits v ih =>
    have hone : ∀ between, [v].foldlM Visit.check between = Visit.check between v :=
      fun between => bind_pure _
    simp only [Outcome.foldlM_append_eq_ok, hone]
    rw [unbroken_concat, and_assoc, ← Visit.check_eq_ok]
    constructor
    · rintro ⟨between, hbetween, hlast⟩
      obtain ⟨hvisits, rfl⟩ := ih.mp hbetween
      exact ⟨hvisits, hlast⟩
    · rintro ⟨hvisits, hlast⟩
      exact ⟨_, ih.mpr ⟨hvisits, rfl⟩, hlast⟩

/-- It ends at the first task that breaks one. -/
theorem foldlM_check_eq_error {tasks : List Task} {offence : Offence} :
    (survey tasks).foldlM Visit.check [] = .error offence ↔ FirstOffence tasks offence := by
  rw [Outcome.foldlM_eq_error]
  constructor
  · rintro ⟨before, v, after, seen, heq, hbefore, hv⟩
    obtain ⟨hunbroken, rfl⟩ := foldlM_check_eq_ok.mp hbefore
    obtain ⟨rule, hrule, hoffence⟩ := Visit.check_eq_error.mp hv
    exact ⟨before, v, after, rule, heq, hunbroken, hrule, hoffence⟩
  · rintro ⟨before, v, after, rule, heq, hunbroken, hrule, hoffence⟩
    exact ⟨before, v, after, _, heq, foldlM_check_eq_ok.mpr ⟨hunbroken, rfl⟩,
      Visit.check_eq_error.mpr ⟨rule, hrule, hoffence⟩⟩

/-! ### The checkers follow the walk

A checker is made of a task by a fold and hands the references met so far through the tree. A survey
lists the same tasks with their right neighbours beforehand, and a check of the list can be split
wherever the list can.
-/

namespace Checker

theorem isJoin_ofTask (t : Task) : (ofTask t).isJoin = t.kind.isJoin := by
  rw [ofTask, Task.fold_eq]
  cases t.kind <;> rfl

theorem run_ofTask (t : Task) (joined : Bool) (seen : List String) :
    (ofTask t).run joined seen = match t.offence? joined seen with
      | some offence => throw offence
      | none => sequences (t.kind.sequences.map (List.map ofTask)) (t.reference :: seen) := by
  rw [ofTask, Task.fold_eq]
  dsimp only
  cases t.offence? joined seen with
  | some offence => rfl
  | none => exact congrArg (sequences · (t.reference :: seen)) (Kind.sequences_map _ _)

theorem sequences_eq {groups : List (List Task)} (seen : List String)
    (h : ∀ s ∈ groups, ∀ seen, sequence (s.map ofTask) seen = (survey s).foldlM Visit.check seen) :
    sequences (groups.map (List.map ofTask)) seen =
      (groups.flatMap survey).foldlM Visit.check seen := by
  induction groups generalizing seen with
  | nil => rfl
  | cons s rest ih =>
    obtain ⟨hs, hrest⟩ := List.forall_mem_cons.mp h
    rw [List.map_cons, sequences, hs, List.flatMap_cons, List.foldlM_append]
    exact congrArg _ (funext fun seen => ih seen hrest)

theorem sequence_eq (tasks : List Task) (seen : List String) :
    sequence (tasks.map ofTask) seen = (survey tasks).foldlM Visit.check seen := by
  induction tasks using sequence_induction generalizing seen with
  | nil => rfl
  | cons t rest hinner hrest =>
    have hnext : (rest.map ofTask).head?.any (·.isJoin) = rest.head?.any (·.kind.isJoin) := by
      cases rest with
      | nil => rfl
      | cons u rest => exact isJoin_ofTask u
    have htask : (ofTask t).run (rest.head?.any (·.kind.isJoin)) seen =
        (⟨t, rest.head?⟩ :: t.kind.sequences.flatMap survey).foldlM Visit.check seen := by
      rw [run_ofTask, List.foldlM_cons, Visit.check, Visit.offence?]
      cases t.offence? (rest.head?.any (·.kind.isJoin)) seen with
      | some offence => rfl
      | none => exact sequences_eq _ hinner
    rw [List.map_cons, sequence, hnext, htask, survey_cons, List.foldlM_append]
    exact congrArg _ (funext hrest)

end Checker

/-- All rules but the first look at one task. -/
theorem Visit.breaks_iff {v : Visit} {before : List Visit} {rule : Rule} :
    v.Breaks before rule ↔
      v.Breaks [] rule ∨ rule = .distinct ∧ v.reference ∈ before.map reference := by
  cases rule <;> simp [Breaks]

theorem unbroken_iff {visits : List Visit} : Unbroken visits ↔
    (visits.map Visit.reference).Nodup ∧ ∀ v ∈ visits, ∀ rule, ¬ v.Breaks [] rule := by
  induction visits using List.reverseRecOn with
  | nil =>
    refine iff_of_true ?_ ⟨List.nodup_nil, nofun⟩
    intro before v after heq
    simp at heq
  | append_singleton visits v ih =>
    have hv : (∀ rule, ¬ v.Breaks visits rule) ↔
        v.reference ∉ visits.map Visit.reference ∧ ∀ rule, ¬ v.Breaks [] rule := by
      have hsplit : ∀ rule, v.Breaks visits rule ↔
          v.Breaks [] rule ∨ rule = .distinct ∧ v.reference ∈ visits.map Visit.reference :=
        fun rule => Visit.breaks_iff
      simp only [hsplit, not_or, forall_and, not_and, forall_eq]
      exact and_comm
    have hnodup : ((visits ++ [v]).map Visit.reference).Nodup ↔
        v.reference ∉ visits.map Visit.reference ∧ (visits.map Visit.reference).Nodup := by
      rw [List.map_append, List.map_singleton, ← List.concat_eq_append, List.nodup_concat]
    rw [unbroken_concat, ih, hv, hnodup, List.forall_mem_append, List.forall_mem_singleton]
    exact and_and_and_comm.trans (and_congr_left fun _ => and_comm)

theorem forksPaired_cons_iff {t : Task} {rest : List Task} : ForksPaired (t :: rest) ↔
    (t.kind.isFork = true → joinFirst rest = true) ∧
      (∀ s ∈ t.kind.sequences, ForksPaired s) ∧ ForksPaired rest := by
  have hrest : ForksPaired rest ↔ Paired rest ∧ ∀ u ∈ rest, ∀ s ∈ u.kind.sequences, ForksPaired s :=
    forksPaired_iff
  rw [forksPaired_iff, hrest, Paired, List.forall_mem_cons]
  exact and_and_and_comm.trans and_assoc

theorem joined_survey_iff {tasks : List Task} :
    (∀ v ∈ survey tasks, ¬ v.Breaks [] .joined) ↔ ForksPaired tasks := by
  induction tasks using sequence_induction with
  | nil => exact iff_of_true nofun ⟨trivial, nofun⟩
  | cons t rest hinner hrest =>
    have hfirst : ¬ Visit.Breaks ⟨t, rest.head?⟩ [] .joined ↔
        (t.kind.isFork = true → joinFirst rest = true) := by
      rw [Visit.Breaks, not_and, not_not, joinFirst, Option.any_eq_true]
      rfl
    have hsequences : (∀ v ∈ t.kind.sequences.flatMap survey, ¬ v.Breaks [] .joined) ↔
        ∀ s ∈ t.kind.sequences, ForksPaired s := by
      rw [List.forall_mem_flatMap]
      exact forall₂_congr hinner
    rw [survey_cons, List.forall_mem_append, List.forall_mem_cons, hfirst, hsequences, hrest,
      forksPaired_cons_iff, and_assoc]

/-- What is asked of each task by itself. -/
theorem forall_survey_iff {tasks : List Task} {P : Task → Prop} :
    (∀ v ∈ survey tasks, P v.task) ↔ ∀ t ∈ listing tasks, P t := by
  rw [← task_survey, List.forall_mem_map]

theorem unbroken_survey_iff (d : Definition) : Unbroken (survey d.tasks) ↔ d.Ready := by
  have hrefs : (survey d.tasks).map Visit.reference = treeRefs d.tasks := by
    rw [treeRefs, ← task_survey, List.map_map]
    rfl
  rw [unbroken_iff, hrefs]
  constructor
  · rintro ⟨hnodup, hrules⟩
    exact {
      distinct := hnodup
      own := forall_survey_iff.mp fun v hv => hrules v hv .own
      joined := joined_survey_iff.mp fun v hv => hrules v hv .joined
      filled := forall_survey_iff.mp fun v hv => not_exists.mp (hrules v hv .filled)
      branched := forall_survey_iff.mp fun v hv form s hkind hempty =>
        hrules v hv .branched ⟨form, s, hkind, hempty⟩ }
  · intro hready
    refine ⟨hready.distinct, fun v hv rule => ?_⟩
    cases rule with
    | distinct => exact List.not_mem_nil
    | own => exact forall_survey_iff.mpr hready.own v hv
    | joined => exact joined_survey_iff.mpr hready.joined v hv
    | filled => exact not_exists.mpr (forall_survey_iff.mpr hready.filled v hv)
    | branched =>
      rintro ⟨form, s, hkind, hempty⟩
      exact forall_survey_iff.mpr hready.branched v hv form s hkind hempty

/-- **Readiness.** A definition is accepted exactly if it is ready. Otherwise the first task in the
walk order that breaks a rule is reported, with the first rule that it breaks. -/
theorem Definition.validate_iff (d : Definition) :
    (d.validate = .ok () ↔ d.Ready) ∧
      ∀ offence, d.validate = .error offence ↔ FirstOffence d.tasks offence := by
  have hok : d.validate = .ok () ↔
      ∃ seen, (survey d.tasks).foldlM Visit.check [] = .ok seen := by
    rw [validate, Checker.sequence_eq, Outcome.bind_eq_ok]
    exact exists_congr fun seen => and_iff_left rfl
  have herror : ∀ offence, d.validate = .error offence ↔
      (survey d.tasks).foldlM Visit.check [] = .error offence := by
    intro offence
    rw [validate, Checker.sequence_eq]
    cases (survey d.tasks).foldlM Visit.check [] with
    | error e => constructor <;> rintro ⟨⟩ <;> rfl
    | ok seen => exact iff_of_false nofun nofun
  refine ⟨?_, fun offence => (herror offence).trans foldlM_check_eq_error⟩
  rw [hok, ← unbroken_survey_iff]
  constructor
  · rintro ⟨seen, hseen⟩
    exact (foldlM_check_eq_ok.mp hseen).1
  · intro h
    exact ⟨_, foldlM_check_eq_ok.mpr ⟨h, rfl⟩⟩

/-- The default is walked through before the cases, so its empty loop comes before the name that is
used twice. -/
example : (Definition.ofTasks "w" [.ofRef "s" (.switch .switch
    { Switch.empty [.ofRef "l" (.loop none [])] with
      cases := [("one", [.ofRef "s" (.worker .simple)])] })]).validate =
    .error (.emptyLoop "l") := by
  decide +kernel

end Flowchart

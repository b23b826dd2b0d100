import Flowchart.Definition.Validation
import Flowchart.Proofs.PathLenses
import Mathlib.Data.List.Forall2

/-!
# Decisions in the place of switches

A decision is the older form of a switch. A tree is recast when any of the switches in it, at any
depth, become decisions, and nothing else changes. What is found in a tree by its structure is found
in the recast tree as well, and is itself recast: so a fold gives related values if each of its
steps does, and a path leads to related sequences.
-/

namespace Flowchart

section

variable {α β γ δ : Type} {R : α → β → Prop} {S : γ → δ → Prop}

theorem relOption_bind {o : Option α} {o' : Option β} {f : α → Option γ} {f' : β → Option δ}
    (h : Option.Rel R o o') (hf : ∀ a b, R a b → Option.Rel S (f a) (f' b)) :
    Option.Rel S (o.bind f) (o'.bind f') := by
  cases h with
  | none => exact .none
  | some hab => exact hf _ _ hab

theorem relOption_map {o : Option α} {o' : Option β} {f : α → γ} {f' : β → δ}
    (h : Option.Rel R o o') (hf : ∀ a b, R a b → S (f a) (f' b)) :
    Option.Rel S (o.map f) (o'.map f') := by
  cases h with
  | none => exact .none
  | some hab => exact .some (hf _ _ hab)

variable {as : List α} {bs : List β}

theorem rel_getElem? (h : List.Forall₂ R as bs) (i : Nat) : Option.Rel R as[i]? bs[i]? := by
  induction h generalizing i with
  | nil => exact .none
  | cons hab _ ih =>
    cases i with
    | zero => exact .some hab
    | succ i => exact ih i

theorem rel_set {a : α} {b : β} (h : List.Forall₂ R as bs) (hab : R a b) (i : Nat) :
    List.Forall₂ R (as.set i a) (bs.set i b) := by
  induction h generalizing i with
  | nil => exact .nil
  | cons hfirst hrest ih =>
    cases i with
    | zero => exact .cons hab hrest
    | succ i => exact .cons hfirst (ih i)

theorem rel_eraseIdx (h : List.Forall₂ R as bs) (i : Nat) :
    List.Forall₂ R (as.eraseIdx i) (bs.eraseIdx i) := by
  rw [List.eraseIdx_eq_take_drop_succ, List.eraseIdx_eq_take_drop_succ]
  exact List.rel_append (List.forall₂_take i h) (List.forall₂_drop (i + 1) h)

theorem rel_find? {p : α → Bool} {q : β → Bool} (h : List.Forall₂ R as bs)
    (hpq : ∀ a b, R a b → p a = q b) : Option.Rel R (as.find? p) (bs.find? q) := by
  induction h with
  | nil => exact .none
  | @cons a b as bs hab _ ih =>
    rw [List.find?_cons, List.find?_cons, hpq a b hab]
    cases q b
    · exact ih
    · exact .some hab

theorem rel_isEmpty (h : List.Forall₂ R as bs) : as.isEmpty = bs.isEmpty := by
  cases h <;> rfl

theorem rel_of_mem {Q : α → β → Prop} (h : List.Forall₂ R as bs)
    (himp : ∀ a ∈ as, ∀ b, R a b → Q a b) : List.Forall₂ Q as bs :=
  ((List.forall₂_and_left as bs).mpr ⟨himp, h⟩).imp fun _ b hab => hab.1 b hab.2

theorem rel_map_eq {f : α → γ} {f' : β → γ} (h : List.Forall₂ R as bs)
    (hf : ∀ a b, R a b → f a = f' b) : as.map f = bs.map f' := by
  rw [← List.forall₂_eq_eq_eq, List.forall₂_map_left_iff, List.forall₂_map_right_iff]
  exact h.imp hf

end

/-! ### Requests side by side

Errors name the types of tasks, and recast tasks have other types. Two requests are therefore
compared by two relations, one for their results and one for their errors.
-/

namespace Outcome

variable {α β γ δ ε ε' : Type}

/-- Both requests give results, which are related, or both fail, with related errors. -/
inductive Rel (E : ε → ε' → Prop) (R : α → β → Prop) :
    Except ε α → Except ε' β → Prop where
  | ok {a : α} {b : β} : R a b → Rel E R (.ok a) (.ok b)
  | error {e : ε} {e' : ε'} : E e e' → Rel E R (.error e) (.error e')

variable {E : ε → ε' → Prop} {R : α → β → Prop} {S : γ → δ → Prop}
  {x : Except ε α} {y : Except ε' β}

theorem Rel.imp {E' : ε → ε' → Prop} {R' : α → β → Prop} (h : Rel E R x y)
    (herror : ∀ e e', E e e' → E' e e') (hresult : ∀ a b, R a b → R' a b) : Rel E' R' x y := by
  cases h with
  | ok hab => exact .ok (hresult _ _ hab)
  | error he => exact .error (herror _ _ he)

theorem Rel.bind {f : α → Except ε γ} {g : β → Except ε' δ} (h : Rel E R x y)
    (hfg : ∀ a b, R a b → Rel E S (f a) (g b)) : Rel E S (x >>= f) (y >>= g) := by
  cases h with
  | ok hab => exact hfg _ _ hab
  | error he => exact .error he

theorem Rel.foldlM {f : γ → α → Except ε γ} {g : δ → β → Except ε' δ} {as : List α} {bs : List β}
    {c : γ} {d : δ} (h : List.Forall₂ R as bs) (hcd : S c d)
    (hfg : ∀ c d a b, S c d → R a b → Rel E S (f c a) (g d b)) :
    Rel E S (as.foldlM f c) (bs.foldlM g d) := by
  induction h generalizing c d with
  | nil => exact .ok hcd
  | cons hab _ ih =>
    rw [List.foldlM_cons, List.foldlM_cons]
    exact (hfg _ _ _ _ hcd hab).bind fun _ _ hnext => ih hnext

theorem Rel.of_eq {x y : Except ε α} (h : x = y) : Rel Eq Eq x y := by
  subst h
  cases x with
  | error e => exact .error rfl
  | ok a => exact .ok rfl

end Outcome

/-- A form of switches, or the older form in the place of the other. -/
inductive SwitchForm.Becomes : SwitchForm → SwitchForm → Prop where
  | same (form : SwitchForm) : Becomes form form
  | decision : Becomes .switch .decision

section

variable {σ : Type} (r : σ → σ → Prop)

/-- Cases under one key. -/
inductive CaseRecast : String × σ → String × σ → Prop where
  | intro {key : String} {s s' : σ} : r s s' → CaseRecast (key, s) (key, s')

inductive Switch.Recast : Switch σ → Switch σ → Prop where
  | intro {evaluator expression caseParam : Option String} {cases cases' : List (String × σ)}
      {otherwise otherwise' : σ} :
    List.Forall₂ (CaseRecast r) cases cases' → r otherwise otherwise' →
    Recast ⟨evaluator, expression, caseParam, cases, otherwise⟩
      ⟨evaluator, expression, caseParam, cases', otherwise'⟩

/-- Kinds with related sequences, where a switch may have become a decision. -/
inductive Kind.Recast : Kind σ → Kind σ → Prop where
  | leaf {k : Kind σ} : k.sequences = [] → Recast k k
  | fork {branches branches' : List σ} : List.Forall₂ r branches branches' →
    Recast (.fork branches) (.fork branches')
  | switch {form form' : SwitchForm} {s s' : Switch σ} : form.Becomes form' → s.Recast r s' →
    Recast (.switch form s) (.switch form' s')
  | loop {condition : Option String} {body body' : σ} : r body body' →
    Recast (.loop condition body) (.loop condition body')

end

/-- Tasks that differ in that switches of the first one have become decisions. -/
inductive Task.Recast : Task → Task → Prop where
  | intro {t : Task} {kind : Kind (List Task)} : t.kind.Recast (List.Forall₂ Recast) kind →
    Recast t { t with kind := kind }

section

variable {σ τ : Type} {r : σ → σ → Prop} {q : τ → τ → Prop} {k k' : Kind σ} {s s' : Switch σ}

theorem CaseRecast.key_eq {c c' : String × σ} (h : CaseRecast r c c') : c.1 = c'.1 := by
  cases h
  rfl

theorem CaseRecast.value {c c' : String × σ} (h : CaseRecast r c c') : r c.2 c'.2 := by
  cases h
  assumption

theorem Switch.Recast.cases (h : s.Recast r s') : List.Forall₂ (CaseRecast r) s.cases s'.cases := by
  cases h
  assumption

theorem Switch.Recast.otherwise (h : s.Recast r s') : r s.otherwise s'.otherwise := by
  cases h
  assumption

theorem Switch.Recast.sequences (h : s.Recast r s') :
    List.Forall₂ r s.sequences s'.sequences := by
  refine .cons h.otherwise ?_
  rw [List.forall₂_map_left_iff, List.forall₂_map_right_iff]
  exact h.cases.imp fun _ _ hc => hc.value

namespace Kind

theorem map_of_leaf {f f' : σ → τ} (h : k.sequences = []) : k.map f = k.map f' := by
  cases k with
  | fork branches =>
    rw [show branches = [] from h]
    rfl
  | switch form s => cases h
  | loop condition body => cases h
  | _ => rfl

theorem set_of_leaf (h : k.sequences = []) (branch : Branch) (s : σ) : k.set branch s = k := by
  cases k with
  | fork branches =>
    rw [show branches = [] from h]
    cases branch <;> rfl
  | switch form s => cases h
  | loop condition body => cases h
  | _ => rfl

theorem prune_of_leaf (h : k.sequences = []) (branch : Branch) : k.prune branch = k := by
  cases k with
  | fork branches =>
    rw [show branches = [] from h]
    cases branch <;> rfl
  | switch form s => cases h
  | loop condition body => cases h
  | _ => rfl

theorem get?_of_leaf (h : k.sequences = []) (branch : Branch) : k.get? branch = none := by
  cases hs : k.get? branch with
  | none => rfl
  | some s =>
    have hmem := mem_sequences_of_get? hs
    rw [h] at hmem
    cases hmem

theorem Recast.refl (h : ∀ s ∈ k.sequences, r s s) : k.Recast r k := by
  cases k with
  | fork branches => exact .fork (List.forall₂_same.mpr h)
  | switch form s =>
    obtain ⟨hotherwise, hcases⟩ := List.forall_mem_cons.mp h
    refine .switch (.same form) (.intro (List.forall₂_same.mpr fun c hc => ?_) hotherwise)
    exact .intro (hcases c.2 (List.mem_map_of_mem hc))
  | loop condition body => exact .loop (h body List.mem_cons_self)
  | _ => exact .leaf rfl

theorem Recast.sequences (h : k.Recast r k') : List.Forall₂ r k.sequences k'.sequences := by
  cases h with
  | leaf hnil =>
    rw [hnil]
    exact .nil
  | fork hbranches => exact hbranches
  | switch _ hs => exact hs.sequences
  | loop hbody => exact .cons hbody .nil

/-- What is made of related sequences one by one makes related kinds. -/
theorem Recast.map {f f' : σ → τ} (h : k.Recast r k')
    (hf : ∀ s ∈ k.sequences, ∀ s', r s s' → q (f s) (f' s')) : (k.map f).Recast q (k'.map f') := by
  cases h with
  | @leaf k hnil =>
    have hleaf : (k.map f).sequences = [] := by rw [sequences_map, hnil, List.map_nil]
    have hsame : k.map f = k.map f' := map_of_leaf hnil
    exact hsame ▸ .leaf hleaf
  | fork hbranches =>
    refine .fork ?_
    rw [List.forall₂_map_left_iff, List.forall₂_map_right_iff]
    exact rel_of_mem hbranches hf
  | switch hform hs =>
    obtain ⟨hcases, hotherwise⟩ := hs
    obtain ⟨hfirst, hrest⟩ := List.forall_mem_cons.mp hf
    refine .switch hform (.intro ?_ (hfirst _ hotherwise))
    rw [List.forall₂_map_left_iff, List.forall₂_map_right_iff]
    refine rel_of_mem hcases fun c hc c' hcase => ?_
    cases hcase with
    | intro hvalue => exact .intro (hrest _ (List.mem_map_of_mem hc) _ hvalue)
  | loop hbody => exact .loop (hf _ List.mem_cons_self _ hbody)

theorem Recast.isFork_eq (h : k.Recast r k') : k.isFork = k'.isFork := by
  cases h <;> rfl

theorem Recast.isJoin_eq (h : k.Recast r k') : k.isJoin = k'.isJoin := by
  cases h <;> rfl

theorem Recast.switch? (h : k.Recast r k') : Option.Rel (Switch.Recast r) k.switch? k'.switch? := by
  cases h with
  | @leaf k hnil =>
    cases k with
    | switch form s => cases hnil
    | _ => exact .none
  | switch _ hs => exact .some hs
  | _ => exact .none

/-- The one type that may change is that of a switch. -/
theorem Recast.type (h : k.Recast r k') :
    k.type = k'.type ∨ k.type = .switch ∧ k'.type = .decision := by
  cases h with
  | switch hform _ =>
    cases hform with
    | same => exact Or.inl rfl
    | decision => exact Or.inr ⟨rfl, rfl⟩
  | _ => exact Or.inl rfl

theorem Recast.isGenerated_eq (h : k.Recast r k') : k.type.isGenerated = k'.type.isGenerated := by
  rcases h.type with htype | ⟨htype, htype'⟩
  · rw [htype]
  · rw [htype, htype']
    rfl

end Kind

namespace Dict

variable {d d' : Dict σ}

theorem rel_get? (h : List.Forall₂ (CaseRecast r) d d') (key : String) :
    Option.Rel r (get? d key) (get? d' key) := by
  refine relOption_map (rel_find? h fun c c' hc => ?_) fun _ _ hc => hc.value
  rw [hc.key_eq]

theorem rel_adjust {a a' : σ} (h : List.Forall₂ (CaseRecast r) d d') (ha : r a a') (key : String) :
    List.Forall₂ (CaseRecast r) (adjust d key fun _ => a) (adjust d' key fun _ => a') := by
  induction h with
  | nil => exact .nil
  | cons hc hrest ih =>
    cases hc with
    | @intro k s s' hs =>
      rw [adjust, adjust]
      split
      · exact .cons (.intro ha) hrest
      · exact .cons (.intro hs) ih

theorem rel_erase (h : List.Forall₂ (CaseRecast r) d d') (key : String) :
    List.Forall₂ (CaseRecast r) (erase d key) (erase d' key) := by
  refine List.rel_filter (fun c c' hc => ?_) h
  dsimp only
  rw [CaseRecast.key_eq hc]

theorem rel_keys (h : List.Forall₂ (CaseRecast r) d d') : keys d = keys d' :=
  rel_map_eq h fun _ _ hc => hc.key_eq

end Dict

namespace Kind

variable {a a' : σ}

theorem Recast.get? (h : k.Recast r k') (branch : Branch) :
    Option.Rel r (k.get? branch) (k'.get? branch) := by
  cases h with
  | leaf hnil =>
    rw [get?_of_leaf hnil]
    exact .none
  | fork hbranches =>
    cases branch with
    | fork i => exact rel_getElem? hbranches i
    | _ => exact .none
  | switch _ hs =>
    cases branch with
    | case key => exact Dict.rel_get? hs.cases key
    | default => exact .some hs.otherwise
    | _ => exact .none
  | loop hbody =>
    cases branch with
    | loopBody => exact .some hbody
    | _ => exact .none

theorem Recast.set (h : k.Recast r k') (ha : r a a') (branch : Branch) :
    (k.set branch a).Recast r (k'.set branch a') := by
  cases h with
  | leaf hnil =>
    rw [set_of_leaf hnil, set_of_leaf hnil]
    exact .leaf hnil
  | fork hbranches =>
    cases branch with
    | fork i => exact .fork (rel_set hbranches ha i)
    | _ => exact .fork hbranches
  | switch hform hs =>
    obtain ⟨hcases, hotherwise⟩ := hs
    cases branch with
    | case key => exact .switch hform (.intro (Dict.rel_adjust hcases ha key) hotherwise)
    | default => exact .switch hform (.intro hcases ha)
    | _ => exact .switch hform (.intro hcases hotherwise)
  | loop hbody =>
    cases branch with
    | loopBody => exact .loop ha
    | _ => exact .loop hbody

theorem Recast.prune (h : k.Recast r k') (branch : Branch) :
    (k.prune branch).Recast r (k'.prune branch) := by
  cases h with
  | leaf hnil =>
    rw [prune_of_leaf hnil]
    exact .leaf hnil
  | fork hbranches =>
    cases branch with
    | fork i => exact .fork (rel_eraseIdx hbranches i)
    | _ => exact .fork hbranches
  | switch hform hs =>
    obtain ⟨hcases, hotherwise⟩ := hs
    cases branch with
    | case key => exact .switch hform (.intro (Dict.rel_erase hcases key) hotherwise)
    | _ => exact .switch hform (.intro hcases hotherwise)
  | loop hbody => cases branch <;> exact .loop hbody

end Kind

end

namespace Task

variable {α : Type} {t t' : Task}

theorem Recast.refl (t : Task) : t.Recast t := by
  induction t using Task.induction with
  | step t ih =>
    obtain ⟨name, reference, description, optional, inputs, kind, extra⟩ := t
    exact .intro (.refl fun s hs => List.forall₂_same.mpr (ih s hs))

theorem recasts_refl (tasks : List Task) : List.Forall₂ Recast tasks tasks :=
  List.forall₂_same.mpr fun t _ => Recast.refl t

theorem Recast.reference_eq (h : t.Recast t') : t.reference = t'.reference := by
  cases h
  rfl

theorem Recast.kind (h : t.Recast t') : t.kind.Recast (List.Forall₂ Recast) t'.kind := by
  cases h
  assumption

/-- A task with another kind in it is recast if the kind is. -/
theorem Recast.with_kind {kind kind' : Kind (List Task)} (h : t.Recast t')
    (hkind : kind.Recast (List.Forall₂ Recast) kind') :
    Recast { t with kind := kind } { t' with kind := kind' } := by
  cases h
  exact .intro (t := { t with kind := kind }) hkind

theorem Recast.reportRef_eq (h : t.Recast t') : t.reportRef = t'.reportRef := by
  obtain ⟨hkind⟩ := h
  obtain ⟨name, reference, description, optional, inputs, kind, extra⟩ := t
  cases hkind <;> rfl

/-- A fold gives related values if it does so wherever the values for the tasks inside are
related. -/
theorem Recast.fold {f : Task → Kind (List α) → α} {P : α → α → Prop}
    (hf : ∀ t t' k k', t.Recast t' → k.Recast (List.Forall₂ P) k' → P (f t k) (f t' k'))
    (h : t.Recast t') : P (t.fold f) (t'.fold f) := by
  induction t using Task.induction generalizing t' with
  | step t ih =>
    rw [fold_eq, fold_eq]
    refine hf t t' _ _ h (h.kind.map fun s hs s' hrecast => ?_)
    rw [List.forall₂_map_left_iff, List.forall₂_map_right_iff]
    exact rel_of_mem hrecast fun u hu u' => ih s hs u hu

theorem Recast.family (h : t.Recast t') : List.Forall₂ Recast t.family t'.family :=
  h.fold fun _ _ _ _ ht hk => .cons ht (List.rel_flatten (List.rel_flatten hk.sequences))

theorem Recast.descendants (h : t.Recast t') :
    List.Forall₂ Recast t.descendants t'.descendants := by
  have hfamily := h.family
  rw [family_eq, family_eq] at hfamily
  exact (List.forall₂_cons.mp hfamily).2

theorem Recast.offence?_eq (h : t.Recast t') (joined : Bool) (seen : List String) :
    t.offence? joined seen = t'.offence? joined seen := by
  have hgenerated := h.kind.isGenerated_eq
  obtain ⟨hkind⟩ := h
  obtain ⟨name, reference, description, optional, inputs, kind, extra⟩ := t
  cases hkind with
  | leaf => rfl
  | fork => rfl
  | switch _ hs =>
    unfold offence? Task.type
    rw [hgenerated]
    dsimp only
    rw [rel_isEmpty hs.cases, rel_isEmpty hs.otherwise]
    rfl
  | loop hbody => cases hbody <;> rfl

theorem Recast.checker_eq (h : t.Recast t') : Checker.ofTask t = Checker.ofTask t' := by
  refine h.fold fun t t' k k' ht hk => ?_
  have hsequences := hk.sequences
  rw [List.forall₂_eq_eq_eq, List.forall₂_eq_eq_eq] at hsequences
  rw [hk.isJoin_eq, hsequences, ht.reference_eq]
  simp only [ht.offence?_eq]

end Task

namespace TreePath

variable {tasks tasks' : List Task}

/-- Places with related sequences, where related sequences can be put in. -/
structure PlaceRecast (place place' : List Task × (List Task → List Task)) : Prop where
  found : List.Forall₂ Task.Recast place.1 place'.1
  put : ∀ new new', List.Forall₂ Task.Recast new new' →
    List.Forall₂ Task.Recast (place.2 new) (place'.2 new')

theorem enter?_recast (segments : List Segment) (h : List.Forall₂ Task.Recast tasks tasks') :
    Option.Rel PlaceRecast (enter? segments tasks) (enter? segments tasks') := by
  induction segments generalizing tasks tasks' with
  | nil => exact .some ⟨h, fun _ _ => id⟩
  | cons segment rest ih =>
    refine relOption_bind (rel_getElem? h segment.index) fun t t' ht => ?_
    simp only [Kind.focus?_eq, Option.bind_eq_bind, Option.bind_map]
    refine relOption_bind (ht.kind.get? segment.branch) fun s s' hs => ?_
    refine relOption_bind (ih hs) fun place place' hplace => ?_
    exact .some ⟨hplace.found, fun new new' hnew =>
      rel_set h (ht.with_kind (ht.kind.set (hplace.put new new' hnew) _)) _⟩

theorem focus?_recast (p : TreePath) (h : List.Forall₂ Task.Recast tasks tasks') :
    Option.Rel PlaceRecast (p.focus? tasks) (p.focus? tasks') :=
  enter?_recast p.segments h

theorem get?_recast (p : TreePath) (h : List.Forall₂ Task.Recast tasks tasks') :
    Option.Rel (List.Forall₂ Task.Recast) (p.get? tasks) (p.get? tasks') := by
  rw [get?, get?, ← map_enter?, ← map_enter?]
  exact relOption_map (enter?_recast p.segments h) fun _ _ hplace => hplace.found

theorem modify?_recast (p : TreePath) {f f' : List Task → List Task}
    (h : List.Forall₂ Task.Recast tasks tasks')
    (hf : ∀ s s', List.Forall₂ Task.Recast s s' → List.Forall₂ Task.Recast (f s) (f' s')) :
    Option.Rel (List.Forall₂ Task.Recast) (p.modify? f tasks) (p.modify? f' tasks') := by
  rw [modify?, modify?, change?_eq_enter?, change?_eq_enter?]
  exact relOption_map (enter?_recast p.segments h) fun _ _ hplace =>
    hplace.put _ _ (hf _ _ hplace.found)

end TreePath

/-- A definition with recast tasks is ready for execution just as it was, or breaks the same rule
first. -/
theorem Definition.validate_recast {w : Definition} {tasks : List Task}
    (h : List.Forall₂ Task.Recast w.tasks tasks) :
    { w with tasks := tasks }.validate = w.validate := by
  rw [validate, validate, rel_map_eq h fun _ _ ht => ht.checker_eq]

end Flowchart

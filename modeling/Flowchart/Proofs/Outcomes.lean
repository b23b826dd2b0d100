/-!
# Results that succeed

What is known of a chain of requests once it has given a result.
-/

namespace Flowchart

namespace Outcome

variable {α β ε : Type}

theorem bind_eq_ok {x : Except ε α} {f : α → Except ε β} {b : β} :
    (x >>= f) = .ok b ↔ ∃ a, x = .ok a ∧ f a = .ok b := by
  cases x with
  | error e =>
    constructor
    · intro h
      cases h
    · rintro ⟨a, ha, -⟩
      cases ha
  | ok a =>
    constructor
    · intro h
      exact ⟨a, rfl, h⟩
    · rintro ⟨a', ha, h⟩
      cases ha
      exact h

theorem bind_of_ok {x : Except ε α} {f : α → Except ε β} {a : α} (h : x = .ok a) :
    (x >>= f) = f a := by
  rw [h]
  rfl

theorem bind_of_error {x : Except ε α} {f : α → Except ε β} {error : ε} (h : x = .error error) :
    (x >>= f) = .error error := by
  rw [h]
  rfl

theorem pure_eq_ok {a b : α} : (pure a : Except ε α) = .ok b ↔ a = b := by
  constructor
  · rintro ⟨⟩
    rfl
  · rintro rfl
    rfl

theorem eq_ok_of_isOk {x : Except ε α} (h : x.isOk = true) (default : α) :
    x = .ok (x.toOption.getD default) := by
  cases x with
  | error e => cases h
  | ok a => rfl

theorem foldlM_append_eq_ok {f : β → α → Except ε β} {as bs : List α} {b c : β} :
    (as ++ bs).foldlM f b = .ok c ↔ ∃ m, as.foldlM f b = .ok m ∧ bs.foldlM f m = .ok c := by
  rw [List.foldlM_append]
  exact bind_eq_ok

/-- A fold fails where a step fails after all steps before it have succeeded. -/
theorem foldlM_eq_error {f : β → α → Except ε β} {as : List α} {b : β} {error : ε} :
    as.foldlM f b = .error error ↔ ∃ before a after m, as = before ++ a :: after ∧
      before.foldlM f b = .ok m ∧ f m a = .error error := by
  constructor
  · intro h
    induction as generalizing b with
    | nil => cases h
    | cons a rest ih =>
      cases hfirst : f b a with
      | error e =>
        rw [List.foldlM_cons, bind_of_error hfirst] at h
        obtain rfl := Except.error.inj h
        exact ⟨[], a, rest, b, rfl, rfl, hfirst⟩
      | ok b' =>
        rw [List.foldlM_cons, bind_of_ok hfirst] at h
        obtain ⟨before, a', after, m, rfl, hbefore, hlast⟩ := ih h
        refine ⟨a :: before, a', after, m, rfl, ?_, hlast⟩
        rw [List.foldlM_cons, bind_of_ok hfirst, hbefore]
  · rintro ⟨before, a, after, m, rfl, hbefore, hlast⟩
    rw [List.foldlM_append, bind_of_ok hbefore, List.foldlM_cons, bind_of_error hlast]

/-- What each step keeps is kept to the end. -/
theorem foldlM_keeps {P : β → Prop} {f : β → α → Except ε β} {as : List α} {b c : β}
    (h : as.foldlM f b = .ok c) (hb : P b)
    (hstep : ∀ b, ∀ a ∈ as, ∀ b', P b → f b a = .ok b' → P b') : P c := by
  induction as generalizing b with
  | nil =>
    rw [List.foldlM_nil, pure_eq_ok] at h
    exact h ▸ hb
  | cons a as ih =>
    rw [List.foldlM_cons, bind_eq_ok] at h
    obtain ⟨b', hstep', h⟩ := h
    apply ih h (hstep b a List.mem_cons_self b' hb hstep')
    intro b a ha
    exact hstep b a (List.mem_cons_of_mem _ ha)

/-- What is mapped one by one: each result comes from an element, and each element has its
result. -/
theorem mem_of_mapM {f : α → Except ε β} {as : List α} {bs : List β} (h : as.mapM f = .ok bs) :
    (∀ b ∈ bs, ∃ a ∈ as, f a = .ok b) ∧ ∀ a ∈ as, ∃ b ∈ bs, f a = .ok b := by
  induction as generalizing bs with
  | nil =>
    rw [List.mapM_nil, pure_eq_ok] at h
    subst h
    simp
  | cons a as ih =>
    rw [List.mapM_cons, bind_eq_ok] at h
    obtain ⟨b, hb, h⟩ := h
    rw [bind_eq_ok] at h
    obtain ⟨bs', hbs', h⟩ := h
    rw [pure_eq_ok] at h
    subst h
    obtain ⟨hresults, helements⟩ := ih hbs'
    constructor
    · intro b' hb'
      rcases List.mem_cons.mp hb' with rfl | hb'
      · exact ⟨a, List.mem_cons_self, hb⟩
      · obtain ⟨a', ha', heq⟩ := hresults b' hb'
        exact ⟨a', List.mem_cons_of_mem _ ha', heq⟩
    · intro a' ha'
      rcases List.mem_cons.mp ha' with rfl | ha'
      · exact ⟨b, List.mem_cons_self, hb⟩
      · obtain ⟨b', hb', heq⟩ := helements a' ha'
        exact ⟨b', List.mem_cons_of_mem _ hb', heq⟩

theorem exists_mapM_eq_ok {f : α → Except ε β} {as : List α} (h : ∀ a ∈ as, ∃ b, f a = .ok b) :
    ∃ bs, as.mapM f = .ok bs := by
  induction as with
  | nil => exact ⟨[], List.mapM_nil⟩
  | cons a as ih =>
    obtain ⟨hfirst, hrest⟩ := List.forall_mem_cons.mp h
    obtain ⟨b, hb⟩ := hfirst
    obtain ⟨bs, hbs⟩ := ih hrest
    refine ⟨b :: bs, ?_⟩
    rw [List.mapM_cons, hb, hbs]
    rfl

section

variable {α' β' : Type} {m : β → β'} {n : α → α'}

theorem map_bind {x : Except ε α} {f : α → Except ε β} {f' : α' → Except ε β'}
    (h : ∀ a, (f a).map m = f' (n a)) : (x >>= f).map m = x.map n >>= f' := by
  cases x with
  | error e => rfl
  | ok a => exact h a

/-- A change that can be made after each result can be made in all of them at once. -/
theorem map_mapM {f : α → Except ε β} {f' : α → Except ε β'} {as : List α}
    (h : ∀ a ∈ as, (f a).map m = f' a) : (as.mapM f).map (List.map m) = as.mapM f' := by
  induction as with
  | nil => rfl
  | cons a as ih =>
    obtain ⟨hfirst, hrest⟩ := List.forall_mem_cons.mp h
    rw [List.mapM_cons, List.mapM_cons, ← hfirst, ← ih hrest]
    refine map_bind fun b => map_bind fun bs => rfl

/-- A change that goes along with each step goes along with all of them. -/
theorem map_foldlM {f : β → α → Except ε β} {f' : β' → α' → Except ε β'} {as : List α} {b : β}
    (h : ∀ b, ∀ a ∈ as, (f b a).map m = f' (m b) (n a)) :
    (as.foldlM f b).map m = (as.map n).foldlM f' (m b) := by
  induction as generalizing b with
  | nil => rfl
  | cons a as ih =>
    rw [List.map_cons, List.foldlM_cons, List.foldlM_cons, ← h b a List.mem_cons_self]
    exact map_bind fun b' => ih fun b c hc => h b c (List.mem_cons_of_mem a hc)

end

end Outcome

end Flowchart

/-!
# Ordered dictionaries

A dictionary is the list of its entries, in the order in which the keys first came. Putting a key
again replaces its value and leaves it where it stands.
-/

namespace Flowchart

abbrev Dict (α : Type) := List (String × α)

namespace Dict

variable {α β : Type}

def keys (d : Dict α) : List String := d.map (·.1)

def get? (d : Dict α) (key : String) : Option α :=
  (d.find? (·.1 == key)).map (·.2)

def contains (d : Dict α) (key : String) : Bool := d.any (·.1 == key)

/-- A new key goes to the end. -/
def put : Dict α → String → α → Dict α
  | [], key, value => [(key, value)]
  | (k, v) :: rest, key, value =>
    if k = key then (key, value) :: rest else (k, v) :: put rest key value

/-- Of entries with one key, the first gives the place and the last gives the value. -/
def ofEntries (entries : List (String × α)) : Dict α :=
  entries.foldl (fun d entry => put d entry.1 entry.2) []

def erase (d : Dict α) (key : String) : Dict α := d.filter (·.1 != key)

/-- Changes the value under a key, if it is there. -/
def adjust : Dict α → String → (α → α) → Dict α
  | [], _, _ => []
  | (k, v) :: rest, key, f =>
    if k = key then (k, f v) :: rest else (k, v) :: adjust rest key f

@[simp] theorem keys_nil : keys ([] : Dict α) = [] := rfl

@[simp] theorem keys_cons (entry : String × α) (d : Dict α) :
    keys (entry :: d) = entry.1 :: keys d := rfl

theorem keys_append (d d' : Dict α) : keys (d ++ d') = keys d ++ keys d' := List.map_append

theorem contains_iff (d : Dict α) (key : String) : contains d key = true ↔ key ∈ keys d := by
  simp [contains, keys]

theorem keys_put (d : Dict α) (key : String) (value : α) :
    keys (put d key value) = if key ∈ keys d then keys d else keys d ++ [key] := by
  induction d with
  | nil => rfl
  | cons entry rest ih =>
    obtain ⟨k, v⟩ := entry
    by_cases h : k = key
    · simp [put, h]
    · have h' : ¬ key = k := fun e => h e.symm
      by_cases hm : key ∈ keys rest <;> simp [put, h, h', ih, hm]

theorem nodup_keys_put {d : Dict α} (h : (keys d).Nodup) (key : String) (value : α) :
    (keys (put d key value)).Nodup := by
  rw [keys_put]
  split
  · exact h
  · next hm => simpa [List.nodup_append, h] using fun a ha (e : a = key) => hm (e ▸ ha)

theorem nodup_keys_ofEntries (entries : List (String × α)) : (keys (ofEntries entries)).Nodup :=
  List.foldlRecOn (motive := fun d => (keys d).Nodup) entries _ List.nodup_nil
    fun _ h entry _ => nodup_keys_put h entry.1 entry.2

theorem mem_put {d : Dict α} {key : String} {value : α} {entry : String × α}
    (h : entry ∈ put d key value) : entry = (key, value) ∨ entry ∈ d := by
  induction d with
  | nil => exact Or.inl (List.mem_singleton.mp h)
  | cons first rest ih =>
    obtain ⟨k, v⟩ := first
    rw [put] at h
    split at h
    · exact (List.mem_cons.mp h).imp_right (List.mem_cons_of_mem _)
    · rcases List.mem_cons.mp h with rfl | h
      · exact Or.inr List.mem_cons_self
      · exact (ih h).imp_right (List.mem_cons_of_mem _)

theorem mem_of_mem_ofEntries {entries : List (String × α)} {entry : String × α}
    (h : entry ∈ ofEntries entries) : entry ∈ entries := by
  refine List.foldlRecOn (motive := fun d => ∀ e ∈ d, e ∈ entries) entries _
    (fun e he => absurd he List.not_mem_nil) (fun d hd first hfirst e he => ?_) entry h
  rcases mem_put he with rfl | he
  · exact hfirst
  · exact hd e he

@[simp] theorem get?_nil (key : String) : get? ([] : Dict α) key = none := rfl

theorem get?_cons (entry : String × α) (d : Dict α) (key : String) :
    get? (entry :: d) key = if entry.1 = key then some entry.2 else get? d key := by
  by_cases h : entry.1 = key <;> simp [get?, h]

theorem get?_of_mem {d : Dict α} {key : String} {a : α} (hd : (keys d).Nodup)
    (h : (key, a) ∈ d) : get? d key = some a := by
  induction d with
  | nil => cases h
  | cons entry rest ih =>
    rw [keys_cons, List.nodup_cons] at hd
    rw [get?_cons]
    rcases List.mem_cons.mp h with rfl | h
    · exact if_pos rfl
    · have hkey : key ∈ keys rest := List.mem_map_of_mem h
      have hne : entry.1 ≠ key := by
        rintro rfl
        exact hd.1 hkey
      rw [if_neg hne, ih hd.2 h]

theorem get?_eq_none {d : Dict α} {key : String} (h : key ∉ keys d) : get? d key = none := by
  induction d with
  | nil => rfl
  | cons entry rest ih =>
    rw [keys_cons, List.mem_cons, not_or] at h
    rw [get?_cons, if_neg (Ne.symm h.1), ih h.2]

theorem isNone_get? (d : Dict α) (key : String) :
    (get? d key).isNone = decide (key ∉ keys d) := by
  induction d with
  | nil => rfl
  | cons entry rest ih =>
    rw [get?_cons]
    by_cases h : entry.1 = key
    · simp [h]
    · simp [h, ih, Ne.symm h]

theorem mem_of_get? {d : Dict α} {key : String} {a : α} (h : get? d key = some a) :
    (key, a) ∈ d := by
  obtain ⟨entry, hentry, rfl⟩ := Option.map_eq_some_iff.mp h
  have hkey : entry.1 = key := by simpa using List.find?_some hentry
  exact hkey ▸ List.mem_of_find?_eq_some hentry

theorem get?_map (f : α → β) (d : Dict α) (key : String) :
    get? (d.map fun entry => (entry.1, f entry.2)) key = (get? d key).map f := by
  induction d with
  | nil => rfl
  | cons entry rest ih =>
    rw [List.map_cons, get?_cons, get?_cons, ih]
    split <;> rfl

theorem put_fresh {d : Dict α} {key : String} (h : key ∉ keys d) (value : α) :
    put d key value = d ++ [(key, value)] := by
  induction d with
  | nil => rfl
  | cons entry rest ih =>
    rw [keys_cons, List.mem_cons, not_or] at h
    rw [put, if_neg (Ne.symm h.1), ih h.2]
    rfl

/-- Entries with distinct keys are a dictionary already. -/
theorem ofEntries_eq_self {d : Dict α} (h : (keys d).Nodup) : ofEntries d = d := by
  suffices hfold : ∀ front : Dict α, (keys (front ++ d)).Nodup →
      d.foldl (fun d entry => put d entry.1 entry.2) front = front ++ d from hfold [] h
  clear h
  induction d with
  | nil => exact fun front _ => (List.append_nil front).symm
  | cons entry rest ih =>
    intro front h
    have hsplit : front ++ entry :: rest = front ++ [entry] ++ rest := by simp
    have hfresh : entry.1 ∉ keys front := by
      intro hmem
      rw [keys_append] at h
      exact (List.nodup_append.mp h).2.2 _ hmem _ List.mem_cons_self rfl
    rw [List.foldl_cons, put_fresh hfresh, ih _ (hsplit ▸ h), hsplit]

theorem get?_put (d : Dict α) (key : String) (value : α) (k : String) :
    get? (put d key value) k = if key = k then some value else get? d k := by
  induction d with
  | nil => simp [put, get?_cons]
  | cons entry rest ih => grind [put, get?_cons]

theorem keys_adjust (d : Dict α) (key : String) (f : α → α) :
    keys (adjust d key f) = keys d := by
  induction d with
  | nil => rfl
  | cons entry rest ih =>
    obtain ⟨k, a⟩ := entry
    by_cases hk : k = key
    · simp [adjust, hk]
    · simp [adjust, hk, ih]

theorem get?_adjust (d : Dict α) (key : String) (f : α → α) (k : String) :
    get? (adjust d key f) k = if key = k then (get? d k).map f else get? d k := by
  induction d with
  | nil => simp [adjust]
  | cons entry rest ih =>
    obtain ⟨k', v⟩ := entry
    rw [adjust]
    by_cases hkey : k' = key
    · subst hkey
      by_cases hk : k' = k <;> simp [get?_cons, hk]
    · rw [if_neg hkey, get?_cons, get?_cons, ih]
      by_cases hk : k' = k
      · subst hk
        simp [Ne.symm hkey]
      · simp [hk]

end Dict

end Flowchart

import Flowchart.Dict

/-!
# JSON values

Objects keep the order of their members. Numbers with a fraction or an exponent are carried as the
text that they came as, since nothing computes with them.
-/

namespace Flowchart

/-- A JSON value. -/
inductive Json where
  | null
  | bool (b : Bool)
  | int (n : Int)
  | decimal (text : String)
  | str (s : String)
  | arr (items : List Json)
  | obj (members : List (String × Json))

namespace Json

instance : Inhabited Json := ⟨null⟩

mutual

/-- Equality of values; members are compared in order. -/
def same : Json → Json → Bool
  | null, null => true
  | bool a, bool b => a == b
  | int m, int n => m == n
  | decimal s, decimal t => s == t
  | str s, str t => s == t
  | arr as, arr bs => sameItems as bs
  | obj as, obj bs => sameMembers as bs
  | _, _ => false

def sameItems : List Json → List Json → Bool
  | [], [] => true
  | a :: as, b :: bs => same a b && sameItems as bs
  | _, _ => false

def sameMembers : List (String × Json) → List (String × Json) → Bool
  | [], [] => true
  | (k, a) :: as, (l, b) :: bs => k == l && same a b && sameMembers as bs
  | _, _ => false

end

mutual

theorem eq_of_same : ∀ {a b : Json}, same a b = true → a = b
  | null, b, h => by cases b <;> simp_all [same]
  | bool _, b, h => by cases b <;> simp_all [same]
  | int _, b, h => by cases b <;> simp_all [same]
  | decimal _, b, h => by cases b <;> simp_all [same]
  | str _, b, h => by cases b <;> simp_all [same]
  | arr as, b, h => by
    cases b with
    | arr bs => rw [eq_of_sameItems (show sameItems as bs = true by simpa [same] using h)]
    | _ => simp [same] at h
  | obj as, b, h => by
    cases b with
    | obj bs => rw [eq_of_sameMembers (show sameMembers as bs = true by simpa [same] using h)]
    | _ => simp [same] at h

theorem eq_of_sameItems : ∀ {as bs : List Json}, sameItems as bs = true → as = bs
  | [], bs, h => by cases bs <;> simp_all [sameItems]
  | a :: as, [], h => by simp [sameItems] at h
  | a :: as, b :: bs, h => by
    simp only [sameItems, Bool.and_eq_true] at h
    rw [eq_of_same h.1, eq_of_sameItems h.2]

theorem eq_of_sameMembers :
    ∀ {as bs : List (String × Json)}, sameMembers as bs = true → as = bs
  | [], bs, h => by cases bs <;> simp_all [sameMembers]
  | (k, a) :: as, [], h => by simp [sameMembers] at h
  | (k, a) :: as, (l, b) :: bs, h => by
    simp only [sameMembers, Bool.and_eq_true, beq_iff_eq] at h
    rw [h.1.1, eq_of_same h.1.2, eq_of_sameMembers h.2]

end

mutual

@[simp] theorem same_self : ∀ a : Json, same a a = true
  | null | bool _ | int _ | decimal _ | str _ => by simp [same]
  | arr as => by simp [same, sameItems_self as]
  | obj as => by simp [same, sameMembers_self as]

@[simp] theorem sameItems_self : ∀ as : List Json, sameItems as as = true
  | [] => by simp [sameItems]
  | a :: as => by simp [sameItems, same_self a, sameItems_self as]

@[simp] theorem sameMembers_self : ∀ as : List (String × Json), sameMembers as as = true
  | [] => by simp [sameMembers]
  | (k, a) :: as => by simp [sameMembers, same_self a, sameMembers_self as]

end

instance : DecidableEq Json := fun a b =>
  decidable_of_iff (same a b = true) ⟨eq_of_same, fun h => h ▸ same_self a⟩

/-- The member under `key`, when the value is an object that has one. -/
def member? : Json → String → Option Json
  | obj members, key => Dict.get? members key
  | _, _ => none

end Json

end Flowchart

import Flowchart.Json.Document

/-!
# Records

A record is written as an object whose members are its fields, in order. It is read from an object
with the members in any order, or from an array with the fields in order. The members are met one
by one: one that repeats a field ends the reading, and so does one whose value does not fit. Only
at the end of the record are its missing fields found out.
-/

namespace Flowchart

namespace Json

def nat (n : Nat) : Json := .int n

def strings (ss : List String) : Json := .arr (ss.map .str)

end Json

/-- A member of a record: how its value is read and written. -/
structure Field (α : Type) where
  key : String
  read : Doc → Except Fault α
  /-- The value of a field that is not there, if it need not be there. -/
  missing : Option α
  /-- The written value, unless the field is then left out. -/
  write : α → Option Json

/-- The members of a record, or its items under the keys of their fields. -/
abbrev Members := List (String × Doc)

/-- A field's key, with what its value must pass. -/
abbrev Check := String × (Doc → Except Fault Unit)

namespace Field

variable {α : Type}

def required (key : String) (read : Doc → Except Fault α) (write : α → Json) : Field α where
  key := key
  read := read
  missing := none
  write := fun a => some (write a)

/-- A field that is left out, or null, when it holds nothing. -/
def optional (key : String) (read : Doc → Except Fault α) (write : α → Json) :
    Field (Option α) where
  key := key
  read := Doc.nullable read
  missing := some none
  write := fun a => a.map write

/-- A field that is always written, but may be missing. -/
def defaulted (key : String) (read : Doc → Except Fault α) (write : α → Json) (value : α) :
    Field α where
  key := key
  read := read
  missing := some value
  write := fun a => some (write a)

/-- A list that is left out when it is empty. -/
def many (key : String) (read : Doc → Except Fault (List α)) (write : List α → Json) :
    Field (List α) where
  key := key
  read := read
  missing := some []
  write := fun as => if as.isEmpty then none else some (write as)

/-- An object of any members that is left out when it is empty. -/
def dict (key : String) : Field (Dict Json) where
  key := key
  read := Doc.dict
  missing := some []
  write := fun d => if d.isEmpty then none else some (.obj d)

/-- Any value; null is left out. -/
def payload (key : String) : Field Json where
  key := key
  read := Doc.value
  missing := some .null
  write := fun j => if j = .null then none else some j

def check (field : Field α) : Check :=
  (field.key, fun d => do let _ ← field.read d)

def get (field : Field α) (members : Members) : Except Fault α :=
  match Dict.get? members field.key, field.missing with
  | some d, _ => field.read d
  | none, some a => pure a
  | none, none => throw .shape

def written (field : Field α) (a : α) : List (String × Json) :=
  match field.write a with
  | some j => [(field.key, j)]
  | none => []

end Field

namespace Members

/-- Goes through the members of an object. A member that is no field must pass `other`. -/
def scan (checks : List Check) (other : Doc → Except Fault Unit) :
    List String → Members → Except Fault Unit
  | _, [] => pure ()
  | seen, (key, d) :: rest => do
    match Dict.get? checks key with
    | none => other d
    | some check => if key ∈ seen then throw .shape else check d
    scan checks other (key :: seen) rest

/-- The members of an object whose members are all taken. -/
def taken (checks : List Check) (members : Members) : Except Fault Members := do
  scan checks (fun d => do let _ ← d.value) [] members
  pure members

/-- Goes through the items of an array, and puts each under the key of its field. -/
def ofItems (source : Source) (flaw : Option Flaw) : List Check → List Doc → Except Fault Members
  | _, [] => do
    Flaw.close flaw
    pure []
  | [], _ :: _ => throw source.surplus
  | (key, check) :: checks, d :: rest => do
    check d
    let members ← ofItems source flaw checks rest
    pure ((key, d) :: members)

end Members

/-- The members of a record that may also be written as an array. -/
def Doc.record (source : Source) (checks : List Check) : Doc → Except Fault Members
  | .obj members flaw => do
    Members.scan checks Doc.skip [] members
    Flaw.close flaw
    pure members
  | .arr items flaw => Members.ofItems source flaw checks items
  | .deep _ => throw .grammar
  | d => throw d.mismatch

end Flowchart

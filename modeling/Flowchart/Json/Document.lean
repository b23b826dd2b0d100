import Flowchart.Json.Basic

/-!
# JSON documents

A document is what a text says, as far as it can be read. A whole JSON value is a document too, so
one reader serves values and texts alike. A reader goes through a document from front to back, and
the first thing that it cannot accept decides how the reading fails. A flaw in a text does not show
in all ways of reading alike: a number that is too large to be taken may well be passed over.
-/

namespace Flowchart

/-- How the reading of a document fails. -/
inductive Fault where
  /-- The text is well formed, but what it says does not fit. -/
  | shape
  /-- The text is not well formed. -/
  | grammar
  /-- The text ends too early. -/
  | ended
  deriving DecidableEq, Repr

namespace Fault

def category : Fault → String
  | shape => "data"
  | grammar => "syntax"
  | ended => "eof"

end Fault

/-- Whether a document came as a value or as the text of one. -/
inductive Source where
  | value
  | text
  deriving DecidableEq, Repr

/-- The fault of parts that go on where a closing bracket is wanted, and of values where a name is
wanted. A text is not well formed at that place, where a value just has another shape. -/
def Source.surplus : Source → Fault
  | .value => .shape
  | .text => .grammar

/-- A place where a text goes wrong, with what comes of it. -/
structure Flaw where
  /-- The fault when a value is taken. -/
  taken : Fault
  /-- What happens when a value is passed over. -/
  passed : Except Fault Unit
  /-- The fault when one of several names is wanted. -/
  named : Fault

namespace Flaw

/-- A flaw that shows in all ways of reading alike. -/
def plain (fault : Fault) : Flaw := ⟨fault, throw fault, fault⟩

/-- A flaw in `null`, `true` or `false`, which cannot begin a name. -/
def literal (fault : Fault) : Flaw := ⟨fault, throw fault, .grammar⟩

/-- A flaw in a number. Nobody who passes over it cares whether the text ends there. -/
def number (fault : Fault) : Flaw := ⟨fault, throw .grammar, .grammar⟩

/-- A flaw that does no harm when it is passed over. -/
def harmless : Flaw := ⟨.grammar, pure (), .grammar⟩

/-- A flaw behind a comma, where no name goes on. -/
def afterComma (flaw : Flaw) : Flaw := { flaw with named := .grammar }

/-- The end of an array or an object that is taken. -/
def close : Option Flaw → Except Fault Unit
  | none => pure ()
  | some flaw => throw flaw.taken

def pass : Option Flaw → Except Fault Unit
  | none => pure ()
  | some flaw => flaw.passed

end Flaw

/-- What a text or a value says. An array or an object may end in a flaw: in place of a comma or
of the closing bracket, or in place of a key. -/
inductive Doc where
  | null
  | bool (b : Bool)
  | int (n : Int)
  | decimal (text : String)
  | str (s : String)
  | arr (items : List Doc) (flaw : Option Flaw)
  | obj (members : List (String × Doc)) (flaw : Option Flaw)
  /-- No value, or one that cannot be taken. -/
  | flawed (flaw : Flaw)
  /-- An array or an object that is nested too deep to be taken. -/
  | deep (d : Doc)

namespace Doc

mutual

def ofJson : Json → Doc
  | .null => null
  | .bool b => bool b
  | .int n => int n
  | .decimal text => decimal text
  | .str s => str s
  | .arr items => arr (ofItems items) none
  | .obj members => obj (ofMembers members) none

def ofItems : List Json → List Doc
  | [] => []
  | item :: rest => ofJson item :: ofItems rest

def ofMembers : List (String × Json) → List (String × Doc)
  | [] => []
  | (key, value) :: rest => (key, ofJson value) :: ofMembers rest

end

/-- The fault of a document that stands where another kind of value is wanted. -/
def mismatch : Doc → Fault
  | flawed flaw => flaw.taken
  | _ => .shape

mutual

/-- The value that a document says. A repeated key keeps its first place and its last value. -/
def value : Doc → Except Fault Json
  | null => pure .null
  | bool b => pure (.bool b)
  | int n => pure (.int n)
  | decimal text => pure (.decimal text)
  | str s => pure (.str s)
  | arr items flaw => do
    let vs ← itemValues items
    Flaw.close flaw
    pure (.arr vs)
  | obj members flaw => do
    let vs ← memberValues members
    Flaw.close flaw
    pure (.obj (Dict.ofEntries vs))
  | flawed flaw => throw flaw.taken
  | deep _ => throw .grammar

def itemValues : List Doc → Except Fault (List Json)
  | [] => pure []
  | item :: rest => do
    let v ← item.value
    let vs ← itemValues rest
    pure (v :: vs)

def memberValues : List (String × Doc) → Except Fault (List (String × Json))
  | [] => pure []
  | (key, d) :: rest => do
    let v ← d.value
    let vs ← memberValues rest
    pure ((key, v) :: vs)

end

mutual

def skip : Doc → Except Fault Unit
  | arr items flaw => do skipItems items; Flaw.pass flaw
  | obj members flaw => do skipMembers members; Flaw.pass flaw
  | flawed flaw => flaw.passed
  | deep d => d.skip
  | null | bool _ | int _ | decimal _ | str _ => pure ()

def skipItems : List Doc → Except Fault Unit
  | [] => pure ()
  | item :: rest => do item.skip; skipItems rest

def skipMembers : List (String × Doc) → Except Fault Unit
  | [] => pure ()
  | (_, d) :: rest => do d.skip; skipMembers rest

end

def string : Doc → Except Fault String
  | str s => pure s
  | d => throw d.mismatch

def boolean : Doc → Except Fault Bool
  | bool b => pure b
  | d => throw d.mismatch

/-- A whole number from `low` up to, but not including, `high`. -/
def whole (low high : Int) : Doc → Except Fault Int
  | int n => if low ≤ n ∧ n < high then pure n else throw .shape
  | d => throw d.mismatch

def signed64 : Doc → Except Fault Int := whole (-Nat.pow 2 63) (Nat.pow 2 63)

def unsigned32 (d : Doc) : Except Fault Nat := do pure (← whole 0 (Nat.pow 2 32) d).toNat

def unsigned64 (d : Doc) : Except Fault Nat := do pure (← whole 0 (Nat.pow 2 64) d).toNat

def nullable {α : Type} (read : Doc → Except Fault α) : Doc → Except Fault (Option α)
  | null => pure none
  | d => do pure (some (← read d))

def list {α : Type} (read : Doc → Except Fault α) : Doc → Except Fault (List α)
  | arr items flaw => do
    let as ← items.mapM read
    Flaw.close flaw
    pure as
  | deep (arr _ _) => throw .grammar
  | d => throw d.mismatch

def object {α : Type} (read : List (String × Doc) → Except Fault α) : Doc → Except Fault α
  | obj members flaw => do
    let a ← read members
    Flaw.close flaw
    pure a
  | deep (obj _ _) => throw .grammar
  | d => throw d.mismatch

def dict : Doc → Except Fault (Dict Json) :=
  object fun members => do pure (Dict.ofEntries (← memberValues members))

end Doc

end Flowchart

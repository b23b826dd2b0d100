import Flowchart.Proofs.Routes
import Flowchart.Plan

/-!
# The language of a tree of tasks

The ways in which control can run through a task, as the words of references that are met on them.
The language follows the tree and knows nothing of plans or graphs. A terminate task ends a word,
whatever stands behind it.
-/

namespace Flowchart

/-- The references met on one way, and whether a terminate task ended it. -/
structure Word where
  references : List String
  ended : Bool
  deriving DecidableEq, Repr

namespace Word

def nothing : Set Word := {⟨[], false⟩}

def one (reference : String) : Set Word := {⟨[reference], false⟩}

/-- One reference is met, and the way ends there. -/
def final (reference : String) : Set Word := {⟨[reference], true⟩}

/-- A word of `L` and, unless that one has ended, a word of `M` behind it. -/
def andThen (L M : Set Word) : Set Word :=
  {w | w ∈ L ∧ w.ended = true ∨
    ∃ u, ∃ v ∈ M, ⟨u, false⟩ ∈ L ∧ w = ⟨u ++ v.references, v.ended⟩}

def inTurn (Ls : List (Set Word)) : Set Word := Ls.foldr andThen nothing

def oneOf (Ls : List (Set Word)) : Set Word := {w | ∃ L ∈ Ls, w ∈ L}

/-- A word between the bubbles of a diagram. One that has ended does not come to the last. -/
def framed (w : Word) : List String :=
  startBubble :: (w.references ++ if w.ended then [] else [finalBubble])

theorem oneOf_singleton (L : Set Word) : oneOf [L] = L := by
  ext w
  simp [oneOf]

theorem mem_andThen_ended {L M : Set Word} {w : List String} :
    (⟨w, true⟩ : Word) ∈ andThen L M ↔
      ⟨w, true⟩ ∈ L ∨ ∃ u v, w = u ++ v ∧ ⟨u, false⟩ ∈ L ∧ ⟨v, true⟩ ∈ M := by
  constructor
  · rintro (⟨hw, -⟩ | ⟨u, ⟨v, ended⟩, hv, hu, heq⟩)
    · exact Or.inl hw
    · obtain ⟨rfl, rfl⟩ := Word.mk.inj heq
      exact Or.inr ⟨u, v, rfl, hu, hv⟩
  · rintro (hw | ⟨u, v, rfl, hu, hv⟩)
    · exact Or.inl ⟨hw, rfl⟩
    · exact Or.inr ⟨u, ⟨v, true⟩, hv, hu, rfl⟩

theorem mem_andThen_open {L M : Set Word} {w : List String} :
    (⟨w, false⟩ : Word) ∈ andThen L M ↔
      ∃ u v, w = u ++ v ∧ ⟨u, false⟩ ∈ L ∧ ⟨v, false⟩ ∈ M := by
  constructor
  · rintro (⟨-, hended⟩ | ⟨u, ⟨v, ended⟩, hv, hu, heq⟩)
    · exact absurd hended Bool.false_ne_true
    · obtain ⟨rfl, rfl⟩ := Word.mk.inj heq
      exact ⟨u, v, rfl, hu, hv⟩
  · rintro ⟨u, v, rfl, hu, hv⟩
    exact Or.inr ⟨u, ⟨v, false⟩, hv, hu, rfl⟩

/-- Only a word that has not ended goes on to the one reference behind it. -/
theorem exists_mem_andThen_one {L : Set Word} {r : String} {w : List String} :
    (∃ ended, (⟨w, ended⟩ : Word) ∈ andThen L (one r)) ↔
      ∃ u ∈ L, w = u.references ++ if u.ended then [] else [r] := by
  constructor
  · rintro ⟨_ | _, hw⟩
    · obtain ⟨u, v, rfl, hu, hv⟩ := mem_andThen_open.mp hw
      obtain ⟨rfl, -⟩ := Word.mk.inj hv
      exact ⟨_, hu, rfl⟩
    · rcases mem_andThen_ended.mp hw with hw | ⟨u, v, -, -, hv⟩
      · exact ⟨_, hw, (List.append_nil w).symm⟩
      · exact absurd (Word.mk.inj hv).2 (Ne.symm Bool.false_ne_true)
  · rintro ⟨⟨u, _ | _⟩, hu, rfl⟩
    · exact ⟨false, mem_andThen_open.mpr ⟨u, [r], rfl, hu, rfl⟩⟩
    · refine ⟨true, mem_andThen_ended.mpr (Or.inl ?_)⟩
      rwa [if_pos rfl, List.append_nil]

end Word

section

variable (settings : Settings) (history : History)

/-- The references that stand for the children of a dynamic fork: their own while there are few of
them, and one for all of them otherwise. -/
def forkedRefs (reference : String) : List String :=
  let children := (history.spawned? reference).getD []
  if !children.isEmpty && children.length < settings.collapseLimit then children
  else [dynamicForkChildrenRef reference]

/-- The words of a task. A loop that has run is met with all its iterations at once. -/
def Task.words : Task → Set Word :=
  fold fun t kind =>
    let self := Word.one t.reference
    match kind with
    | .terminate => Word.final t.reference
    | .fork [] => self
    | .fork branches => Word.andThen self (Word.oneOf (branches.map Word.inTurn))
    | .dynamicFork _ _ =>
      Word.andThen self (Word.oneOf ((forkedRefs settings history t.reference).map Word.one))
    | .switch _ s => Word.andThen self (Word.oneOf (s.sequences.map Word.inTurn))
    | .loop _ body =>
      let inside := if (history.latest? t.reference).isSome
        then Word.one (loopChildrenRef t.reference) else Word.inTurn body
      Word.andThen self (Word.andThen inside (Word.one (loopEndRef t.reference)))
    | .worker _ | .join _ | .exclusiveJoin _ | .subWorkflow _ | .event _ | .loopEnd _
    | .marker _ => self

def sequenceWords (tasks : List Task) : Set Word :=
  Word.inTurn (tasks.map (Task.words settings history))

theorem Switch.sequences_map {σ τ : Type} (f : σ → τ) (s : Switch σ) :
    (s.map f).sequences = s.sequences.map f := by
  simp [Switch.map, Switch.sequences]

theorem Task.words_eq (t : Task) :
    t.words settings history =
      let self := Word.one t.reference
      match t.kind with
      | .terminate => Word.final t.reference
      | .fork [] => self
      | .fork branches =>
        Word.andThen self (Word.oneOf (branches.map (sequenceWords settings history)))
      | .dynamicFork _ _ =>
        Word.andThen self (Word.oneOf ((forkedRefs settings history t.reference).map Word.one))
      | .switch _ s =>
        Word.andThen self (Word.oneOf (s.sequences.map (sequenceWords settings history)))
      | .loop _ body =>
        let inside := if (history.latest? t.reference).isSome
          then Word.one (loopChildrenRef t.reference) else sequenceWords settings history body
        Word.andThen self (Word.andThen inside (Word.one (loopEndRef t.reference)))
      | _ => self := by
  rw [Task.words, Task.fold_eq]
  cases hk : t.kind with
  | fork branches =>
    cases branches with
    | nil => rfl
    | cons branch rest =>
      exact congrArg (fun Ls => Word.andThen _ (Word.oneOf Ls)) List.map_map
  | switch form s =>
    refine congrArg (fun Ls => Word.andThen _ (Word.oneOf Ls)) ?_
    rw [Switch.sequences_map, List.map_map]
    rfl
  | _ => rfl

end

end Flowchart

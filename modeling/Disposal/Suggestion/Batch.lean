import Disposal.Diagnostic

/-!
# Applying suggestions

The suggestions attached to the findings of one text are taken in order. A suggestion is applied unless it is not
allowed, does not fit the text, or overlaps one taken before it; in the last case it is deferred to another round.
-/

namespace Disposal.Batch

/-- The edits taken so far and the number of suggestions of each fate. -/
structure State where
  accepted : List Edit := []
  applied : Nat := 0
  skipped : Nat := 0
  deferred : Nat := 0
  deriving DecidableEq, Repr

/-- Whether an edit of the suggestion overlaps one of the edits. -/
def collides (accepted : List Edit) (s : Suggestion) : Bool :=
  s.edits.any fun e => accepted.any (·.overlaps e)

/-- Decides the fate of one suggestion. -/
def State.offer (source : List Char) (risky : Bool) (st : State) (s : Suggestion) : State :=
  if !s.applicability.isAllowed risky then { st with skipped := st.skipped + 1 }
  else if s.edits.isEmpty then st
  else if s.edits.any fun e => (e.fault? source).isSome then { st with skipped := st.skipped + 1 }
  else if collides st.accepted s then { st with deferred := st.deferred + 1 }
  else { st with accepted := st.accepted ++ s.edits, applied := st.applied + 1 }

/-- The fate of all suggestions of a list, in order. -/
def select (source : List Char) (risky : Bool) (suggestions : List Suggestion) : State :=
  suggestions.foldl (State.offer source risky) {}

/-- A text after a batch of suggestions, with the number of suggestions of each fate. -/
structure Outcome where
  fixed : String
  applied : Nat
  skipped : Nat
  deferred : Nat
  deriving DecidableEq, Repr

/-- Applies the suggestions to a text. -/
def run (source : String) (suggestions : List Suggestion) (risky : Bool) : Except EditError Outcome := do
  let st := select source.toList risky suggestions
  let fixed ← Edit.applyAll source st.accepted
  return ⟨fixed, st.applied, st.skipped, st.deferred⟩

/-- Applies the suggestions attached to the findings of a text. -/
def ofDiagnostics (source : String) (ds : List Diagnostic) (risky : Bool) : Except EditError Outcome :=
  run source (ds.filterMap (·.suggestion?)) risky

end Disposal.Batch

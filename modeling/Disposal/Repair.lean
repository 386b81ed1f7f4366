import Disposal.Compilation
import Disposal.Failure
import Disposal.Listing
import Disposal.Suggestion.Batch

/-!
# Repairs

Suggestions are applied in rounds: all files are linted, each file takes the suggestions for it, and the next round
starts from the result. The rounds end when nothing is left to apply, and after ten of them in any case.
-/

namespace Disposal.Repair

/-- Finds what is to be repaired, unless it never comes to an end. -/
abbrev Linter := List SourceFile → Option (Except Failure (List Diagnostic))

/-- The files after some rounds, with the number of suggestions applied and, in the last round, skipped. -/
structure Progress where
  files : List SourceFile
  applied : Nat := 0
  skipped : Nat := 0
  deriving DecidableEq, Repr

/-- How the rounds ended: with nothing left to do, or because there were too many. -/
inductive Ending where
  | settled
  | capped
  deriving DecidableEq, Repr

/-- The findings with a suggestion. -/
def repairable (ds : List Diagnostic) : List Diagnostic := ds.filter (·.suggestion?.isSome)

/-- The findings for a file. -/
def concerning (ds : List Diagnostic) (f : SourceFile) : List Diagnostic :=
  ds.filter fun d => f.path? == some (Listing.label d)

/-- Applies to a file the suggestions for it. -/
def repairFile (risky : Bool) (ds : List Diagnostic) (f : SourceFile) : Except Failure (SourceFile × Nat × Nat) :=
  match Batch.ofDiagnostics f.text (concerning ds f) risky with
  | .ok outcome => .ok ({ f with text := outcome.fixed }, outcome.applied, outcome.skipped)
  | .error e => .error (.other e.message)

/-- One round: the repaired files, and how many suggestions were applied and skipped. -/
def round (risky : Bool) (ds : List Diagnostic) (files : List SourceFile) :
    Except Failure (List SourceFile × Nat × Nat) := do
  let results ← files.mapM (repairFile risky ds)
  return (results.map (·.1), results.foldr (·.2.1 + ·) 0, results.foldr (·.2.2 + ·) 0)

/-- At most so many rounds; a single one when the repairs are only to be shown. -/
def rounds (lint : Linter) (risky showOnly : Bool) : Nat → Progress → Option (Except Failure (Progress × Ending))
  | 0, p => some (.ok (p, .capped))
  | n + 1, p =>
    match lint p.files with
    | none => none
    | some (.error e) => some (.error e)
    | some (.ok ds) =>
      if (repairable ds).isEmpty then some (.ok (p, .settled))
      else
        match round risky (repairable ds) p.files with
        | .error e => some (.error e)
        | .ok (files, applied, skipped) =>
          let next : Progress := ⟨files, p.applied + applied, p.skipped⟩
          if applied = 0 || showOnly then some (.ok ({ next with skipped := p.skipped + skipped }, .settled))
          else rounds lint risky showOnly n next

/-- The most rounds that are run. -/
def maxRounds : Nat := 10

/-- Repairs files. -/
def run (lint : Linter) (risky showOnly : Bool) (files : List SourceFile) :
    Option (Except Failure (Progress × Ending)) :=
  rounds lint risky showOnly maxRounds { files }

end Disposal.Repair

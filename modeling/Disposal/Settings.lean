import Disposal.Lint

/-!
# Settings

The levels that a user gives to lints. A lint that is disabled stays quiet whatever else is said of it.

* `Settings.levelFor_default`: without settings a lint has its own level.
-/

namespace Disposal

/-- Lints with levels of their own, and lints that are switched off. -/
structure Settings where
  levels : List (Lint × Level) := []
  disabled : List Lint := []
  deriving DecidableEq, Repr

namespace Settings

/-- The settings that some words for lints give; words that stand for no lint say nothing. -/
def ofNames (levels : List (String × Level)) (disabled : List String) : Settings where
  levels := levels.filterMap fun (name, level) => (Lint.ofName? name).map (·, level)
  disabled := disabled.filterMap Lint.ofName?

/-- The level of a lint. -/
def levelFor (s : Settings) (lint : Lint) : Level :=
  if s.disabled.contains lint then .allow else (s.levels.lookup lint).getD lint.defaultLevel

theorem levelFor_default (lint : Lint) : levelFor {} lint = lint.defaultLevel := rfl

theorem levelFor_of_mem_disabled {s : Settings} {lint : Lint} (h : lint ∈ s.disabled) :
    s.levelFor lint = .allow := by
  simp [levelFor, h]

end Settings

end Disposal

import Disposal.Rule.BaseCall
import Disposal.Rule.CreatedLocal
import Disposal.Rule.Finalizer
import Disposal.Rule.ForeignValue
import Disposal.Rule.IgnoredValue
import Disposal.Rule.OwnedMember
import Disposal.Rule.Reassignment

/-!
# Selecting rules

All rules, and those among them that a user selects. Lints in the preview group run only if they are asked for, by
name or as a group.
-/

namespace Disposal

namespace Rule

/-- All rules, in the order of their ids. -/
def all : List Rule :=
  [CreatedLocal.rule, OwnedMember.rule, Reassignment.rule, IgnoredValue.rule, ForeignValue.rule, BaseCall.rule,
   Finalizer.rule]

theorem map_lint_all : all.map (·.lint) = Lint.all := rfl

/-- The rules that run when nothing is selected. -/
def stable : List Rule :=
  all.filter fun r => r.lint.group == .stable

/-- The lint among some rules that a word stands for. -/
def find? (rules : List Rule) (word : String) : Option Lint :=
  (rules.map (·.lint)).find? (·.answersTo word)

end Rule

/-- The lints to run, those to leave out, and whether those in the preview group run too. -/
structure Selection where
  only : List String := []
  skip : List String := []
  preview : Bool := false
  deriving DecidableEq, Repr

namespace Selection

/-- Why a selection cannot be made: a word in it stands for no lint. -/
structure UnknownLint where
  name : String
  deriving DecidableEq, Repr

def UnknownLint.message (e : UnknownLint) : String := s!"unknown lint: {e.name}"

/-- Whether one of some words stands for a lint. -/
def names (words : List String) (lint : Lint) : Bool :=
  words.any fun w => Lint.ofName? w == some lint

/-- Whether a lint is selected. -/
def selects (s : Selection) (lint : Lint) : Bool :=
  (if s.only.isEmpty then lint.group == .stable || s.preview else names s.only lint) && !names s.skip lint

/-- The rules that are selected, in the order of their ids. -/
def rules (s : Selection) : Except UnknownLint (List Rule) :=
  match (s.only ++ s.skip).find? fun w => (Lint.ofName? w).isNone with
  | some w => .error ⟨w⟩
  | none => .ok (Rule.all.filter fun r => s.selects r.lint)

end Selection

end Disposal

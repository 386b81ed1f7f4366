import Disposal.Lint
import Disposal.Text.Edit
import Disposal.Text.Position

/-!
# Diagnostics

A finding of a lint at a stretch of a file, with an optional suggestion of edits.
-/

namespace Disposal

/-- How far the edits of a suggestion can be trusted. -/
inductive Applicability where
  | machineApplicable
  | maybeIncorrect
  | hasPlaceholders
  | unspecified
  deriving DecidableEq, Repr

namespace Applicability

def text : Applicability → String
  | machineApplicable => "machine-applicable"
  | maybeIncorrect => "maybe-incorrect"
  | hasPlaceholders => "has-placeholders"
  | unspecified => "unspecified"

def all : List Applicability := [machineApplicable, maybeIncorrect, hasPlaceholders, unspecified]

def ofText? (word : String) : Option Applicability :=
  all.find? (·.text == word)

/-- Whether suggestions of this kind are applied, given whether risky ones are. -/
def isAllowed (risky : Bool) : Applicability → Bool
  | machineApplicable => true
  | maybeIncorrect => risky
  | hasPlaceholders | unspecified => false

end Applicability

/-- A proposed change of one text. -/
structure Suggestion where
  message : String
  edits : List Edit
  applicability : Applicability
  deriving DecidableEq, Repr

/-- A finding in one file; the file has no name when the text was given directly. -/
structure Diagnostic where
  lint : Lint
  level : Level
  file? : Option String
  span : Span
  message : String
  help? : Option String
  suggestion? : Option Suggestion
  deriving DecidableEq, Repr

namespace Diagnostic

/-- The finding in one line, as every report shows it. -/
def headline (d : Diagnostic) : String :=
  s!"{d.lint.id}: {d.message}"

/-- Lexicographic comparison of optional texts; no text comes first. -/
def compareFile (a b : Option String) : Ordering :=
  match a, b with
  | none, none => .eq
  | none, some _ => .lt
  | some _, none => .gt
  | some a, some b => compare a b

/-- Reports are ordered by file, row, column and id. -/
def order (a b : Diagnostic) : Ordering :=
  (compareFile a.file? b.file?).then <| (compare a.span.first.row b.span.first.row).then <|
    (compare a.span.first.column b.span.first.column).then (compare a.lint.id b.lint.id)

/-- The findings in the order of reports; findings that the order does not separate keep their places. -/
def sort (ds : List Diagnostic) : List Diagnostic :=
  ds.mergeSort fun a b => (order a b).isLE

end Diagnostic

end Disposal

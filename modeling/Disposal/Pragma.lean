import Disposal.Lint
import Disposal.Text

/-!
# Warning pragmas

A line `#pragma warning disable` or `#pragma warning restore` switches lints off or on from there to the end of the
text: those it lists, or all if it lists none. At an offset the last directive for a lint decides.
-/

namespace Disposal.Pragma

/-- A directive, with the offset of its line and the words it lists. -/
structure Directive where
  offset : Nat
  disables : Bool
  codes : List String
  deriving DecidableEq, Repr

/-- Whether a directive concerns a lint. -/
def Directive.appliesTo (d : Directive) (lint : Lint) : Bool :=
  d.codes.isEmpty || d.codes.any lint.answersTo

/-- The rest of the text after a word and the blanks that follow it. -/
def afterWord? (word : String) (cs : List Char) : Option (List Char) :=
  (word.toList.isPrefixOf? cs).map Text.trimStart

/-- The words of a list between commas, without blanks around them; a comment ends the list. -/
def codes (cs : List Char) : List String :=
  let pieces := ((Text.breakAt "//".toList cs).1).splitOnP (· = ',')
  (pieces.map fun piece => Text.trim (String.ofList piece)).filter (· ≠ "")

/-- Reads the directive of a line that starts at `offset`, if the line is one. -/
def ofLine? (offset : Nat) (line : List Char) : Option Directive := do
  let rest ← afterWord? "#" (Text.trimEnd (Text.trimStart line))
  let rest ← afterWord? "pragma" rest
  let rest ← afterWord? "warning" rest
  match "disable".toList.isPrefixOf? rest with
  | some rest => return ⟨offset, true, codes rest⟩
  | none =>
    let rest ← "restore".toList.isPrefixOf? rest
    return ⟨offset, false, codes rest⟩

/-- The directives of lines that follow each other from `offset` on. -/
def ofLines (offset : Nat) : List (List Char) → List Directive
  | [] => []
  | line :: lines => (ofLine? offset line).toList ++ ofLines (offset + Text.byteSize line) lines

/-- The directives of a text, in order. -/
def parse (source : String) : List Directive :=
  ofLines 0 (Text.linesKept source.toList)

/-- Whether the directives switch a lint off at an offset. -/
def isDisabled (directives : List Directive) (lint : Lint) (offset : Nat) : Bool :=
  match ((directives.takeWhile (·.offset ≤ offset)).filter (·.appliesTo lint)).getLast? with
  | some d => d.disables
  | none => false

end Disposal.Pragma

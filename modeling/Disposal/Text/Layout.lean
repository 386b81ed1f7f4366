import Disposal.Text

/-!
# Indentation

Where the line of an offset starts, how it is indented, and the unit in which a text is indented.
-/

namespace Disposal.Layout

/-- The offset of the first character of the line that holds `offset`. -/
def lineStart (source : String) (offset : Nat) : Nat :=
  Text.byteSize (Text.dropEndWhile (· ≠ '\n') (Text.takeBytes offset source.toList))

/-- The spaces and tabs with which the line that holds `offset` begins. -/
def indentationAt (source : String) (offset : Nat) : String :=
  String.ofList ((Text.dropBytes (lineStart source offset) source.toList).takeWhile fun c => c = ' ' || c = '\t')

/-- Start and indentation of the line that holds `offset`, unless the offset cuts a character. -/
def lineAt? (source : String) (offset : Nat) : Option (Nat × String) :=
  let cs := source.toList
  if Text.isBoundary cs (min offset (Text.byteSize cs)) then
    some (lineStart source offset, indentationAt source offset)
  else none

/-- One step of indentation: a tab if some line starts with one, two spaces if some line is indented by an odd number
of such pairs, else four spaces. -/
def unit (source : String) : String :=
  let lines := Text.lines source
  if lines.any (Text.startsWith "\t") then "\t"
  else if lines.any fun l => (l.toList.takeWhile (· = ' ')).length % 4 = 2 then "  "
  else "    "

end Disposal.Layout

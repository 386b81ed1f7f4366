import Disposal.Text

/-!
# Rows and columns

A position is a row and a column, both counted from one; a column counts bytes. A `Span` is a stretch of a text with
the positions of its ends.
-/

namespace Disposal

/-- A place in a text: row and column in bytes, both from one. -/
structure Position where
  row : Nat
  column : Nat
  deriving DecidableEq, Repr

namespace Position

/-- The place where a text begins. -/
def origin : Position := ⟨1, 1⟩

/-- The place `n` bytes after `p` along the characters, or at their end if they are fewer. -/
def advance (p : Position) (n : Nat) : List Char → Position
  | [] => p
  | c :: cs =>
    if n = 0 then p
    else if c = '\n' then advance ⟨p.row + 1, 1⟩ (n - 1) cs
    else advance ⟨p.row, p.column + min n c.utf8Size⟩ (n - c.utf8Size) cs

/-- The place of a byte offset in a text; an offset past the end stands for the end. -/
def ofOffset (text : String) (offset : Nat) : Position :=
  origin.advance offset text.toList

end Position

/-- A stretch of a text, by bytes and by positions. -/
structure Span where
  first : Position
  last : Position
  start : Nat
  stop : Nat
  deriving DecidableEq, Repr

namespace Span

/-- The stretch between two byte offsets. -/
def ofRange (text : String) (start stop : Nat) : Span :=
  ⟨.ofOffset text start, .ofOffset text stop, start, stop⟩

/-- The empty stretch at a byte offset. -/
def atOffset (text : String) (offset : Nat) : Span :=
  ofRange text offset offset

end Span

end Disposal

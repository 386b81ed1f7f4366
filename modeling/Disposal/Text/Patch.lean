import Disposal.Text

/-!
# Patches

A patch shows how one text became another. Lines are compared by index; a hunk covers the changed lines and a number
of lines around them, and hunks that touch are one hunk.

Line indices are machine words of 64 bits. A sum of them that is no word any more ends the program, so that there is no
patch, `none`.
-/

namespace Disposal.Patch

/-- Lines `[start, stop)` with the indices of the changed ones among them. -/
structure Hunk where
  start : Nat
  stop : Nat
  changed : List Nat
  deriving DecidableEq, Repr

/-- The indices at which two lists of lines differ. -/
def changes (old new : List String) : List Nat :=
  (List.range (max old.length new.length)).filter fun i => old[i]? != new[i]?

/-- The sum of two words, if it is a word itself. -/
def sum? (a b : Nat) : Option Nat := if a + b < UInt64.size then some (a + b) else none

/-- One past the last line shown after a changed line, within `size` lines. -/
def windowEnd? (context size i : Nat) : Option Nat := ((sum? i context).bind (sum? · 1)).map (min · size)

/-- Puts the window of a changed line behind the hunks, which are listed last first. -/
def addWindow (hunks : List Hunk) (start stop i : Nat) : List Hunk :=
  match hunks with
  | h :: hs => if start ≤ h.stop then ⟨h.start, stop, h.changed ++ [i]⟩ :: hs else ⟨start, stop, [i]⟩ :: h :: hs
  | [] => [⟨start, stop, [i]⟩]

/-- Adds a changed line to the hunks. -/
def addChange (context size : Nat) (hunks : List Hunk) (i : Nat) : Option (List Hunk) :=
  (windowEnd? context size i).map fun stop => addWindow hunks (i - context) stop i

/-- The hunks between two lists of lines. -/
def hunks? (old new : List String) (context : Nat) : Option (List Hunk) :=
  ((changes old new).foldlM (addChange context (max old.length new.length)) []).map List.reverse

/-- The line `mark` followed by `line?`, if there is one. -/
def marked (mark : String) (line? : Option String) : List String :=
  (line?.map (mark ++ ·)).toList

/-- The lines of one hunk: a changed line is shown as it was and as it is, any other as it was. -/
def Hunk.body (old new : List String) (h : Hunk) : List String :=
  ((List.range h.stop).drop h.start).flatMap fun i =>
    if h.changed.contains i then marked "-" old[i]? ++ marked "+" new[i]? else marked " " old[i]?

/-- The heading of a hunk: where it starts, and how many lines of either text it covers. -/
def Hunk.heading (old new : List String) (h : Hunk) : String :=
  let first := h.start + 1
  let oldCount := min h.stop old.length - h.start
  let newCount := min h.stop new.length - h.start
  s!"@@ -{first},{oldCount} +{first},{newCount} @@"

/-- The text of a patch under a path; without hunks it is empty. -/
def ofHunks (old new : List String) (path : String) (hs : List Hunk) : String :=
  match hs with
  | [] => ""
  | hs =>
    let body := hs.flatMap fun h => h.heading old new :: h.body old new
    String.join ((s!"--- a/{path}" :: s!"+++ b/{path}" :: body).map Text.line)

/-- The patch from one text to another under a path; texts with equal lines give the empty patch. -/
def render? (before after path : String) (context : Nat) : Option String :=
  let old := Text.lines before
  let new := Text.lines after
  (hunks? old new context).map (ofHunks old new path)

/-- The number of lines shown around a change when none is asked for. -/
def defaultContext : Nat := 3

end Disposal.Patch

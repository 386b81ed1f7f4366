import Disposal.Text

/-!
# Edits of a text

An `Edit` replaces a stretch of a text. A list of edits is accepted when each edit lies on character boundaries of
the text and no two overlap; accepted edits are applied from the last one backwards, so that the offsets of the
others stay valid.
-/

namespace Disposal

/-- Replaces the bytes `[start, stop)` of a text by `replacement`. -/
structure Edit where
  start : Nat
  stop : Nat
  replacement : String
  deriving DecidableEq, Repr

/-- Why a list of edits cannot be applied. -/
inductive EditError where
  /-- An edit that starts at this offset overlaps a later one. -/
  | overlapping (start : Nat)
  | outOfRange (start stop size : Nat)
  | reversed (start stop : Nat)
  | insideCharacter (offset : Nat)
  /-- A character put in by another edit is cut by this one. -/
  | cutsReplacement (start stop : Nat)
  deriving DecidableEq, Repr

/-- The wording of an error. -/
def EditError.message : EditError → String
  | overlapping start => s!"Overlapping edits detected at byte {start}"
  | outOfRange start stop size => s!"Edit range [{start}..{stop}) exceeds source length {size}"
  | reversed start stop => s!"Edit start {start} is after edit end {stop}"
  | insideCharacter offset => s!"Edit boundary {offset} is not on a character boundary"
  | cutsReplacement start stop => s!"Edit range [{start}..{stop}) cuts a replacement"

namespace Edit

/-- Puts `text` at an offset. -/
def insertion (offset : Nat) (text : String) : Edit := ⟨offset, offset, text⟩

/-- Takes out a stretch. -/
def deletion (start stop : Nat) : Edit := ⟨start, stop, ""⟩

/-- An edit that removes nothing. -/
def isInsertion (e : Edit) : Bool := e.start == e.stop

/-- Whether two edits share a byte; an insertion does so with an edit around it and never with an insertion. -/
def overlaps (a b : Edit) : Bool :=
  if a.isInsertion && b.isInsertion then false
  else if a.isInsertion then b.start < a.start && a.start < b.stop
  else if b.isInsertion then a.start < b.start && b.start < a.stop
  else a.start < b.stop && b.start < a.stop

/-- The first fault of one edit against a text: order, then range, then boundaries. -/
def fault? (source : List Char) (e : Edit) : Option EditError :=
  if e.stop < e.start then some (.reversed e.start e.stop)
  else if Text.byteSize source < e.stop then some (.outOfRange e.start e.stop (Text.byteSize source))
  else if !Text.isBoundary source e.start then some (.insideCharacter e.start)
  else if !Text.isBoundary source e.stop then some (.insideCharacter e.stop)
  else none

/-- The first pair of overlapping edits of a list, reported by the earlier one. -/
def clash? : List Edit → Option EditError
  | [] => none
  | e :: es => if es.any e.overlaps then some (.overlapping e.start) else clash? es

/-- Checks every edit against the text, then every pair. -/
def check (source : List Char) (edits : List Edit) : Except EditError Unit :=
  match edits.findSome? (fault? source) with
  | some error => .error error
  | none =>
    match clash? edits with
    | some error => .error error
    | none => .ok ()

/-- Makes one edit in a text. -/
def splice (text : List Char) (e : Edit) : Except EditError (List Char) :=
  if Text.isBoundary text e.start && Text.isBoundary text e.stop then
    .ok (Text.takeBytes e.start text ++ e.replacement.toList ++ Text.dropBytes e.stop text)
  else .error (.cutsReplacement e.start e.stop)

/-- The edits by falling start; of edits with one start the later comes first. -/
def backwards (edits : List Edit) : List Edit :=
  (edits.mergeSort fun a b => a.start ≤ b.start).reverse

/-- Applies a list of edits to a text, or says why it cannot be applied. -/
def applyAll (source : String) (edits : List Edit) : Except EditError String := do
  check source.toList edits
  let result ← (backwards edits).foldlM splice source.toList
  return String.ofList result

end Edit

end Disposal

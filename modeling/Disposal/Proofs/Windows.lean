import Disposal.Proofs.Patches

/-!
# The windows of changed lines

A patch shows every changed line with the lines around it, from `context` lines in front of it to as many behind. The
start of such a window stops at the first line of the text. Its end is a sum of machine words before it stops at the
last line, and a context for which that sum is too large leaves the texts without a patch, however short they are. Where
there is a patch, it shows all changes.

* `exists_covering`: a changed line lies in a hunk;
* `showsChange_of_covered`: a hunk shows the changes that it covers;
* `exists_render_iff`: when there is a patch, and what it then shows.
-/

namespace Disposal.Patch

variable {old new : List String} {i : Nat} {h : Hunk} {hs : List Hunk}

/-- The text has the heading of the hunk and below it its lines. -/
def Hunk.IsPrinted (old new : List String) (h : Hunk) (text : String) : Prop :=
  ∃ above below, text = String.join ((above ++ h.heading old new :: (h.body old new ++ below)).map Text.line)

/-- The hunk shows in its place how line `i` has changed: right behind what it shows of the lines of either text from
its start up to `i`. -/
def Hunk.ShowsChange (old new : List String) (h : Hunk) (i : Nat) : Prop :=
  h.start ≤ i ∧ ∃ front back, h.body old new = front ++ (marked "-" old[i]? ++ marked "+" new[i]?) ++ back ∧
    side '-' front = (old.drop h.start).take (i - h.start) ∧ side '+' front = (new.drop h.start).take (i - h.start)

private theorem isPrinted_of_mem (path : String) (hh : h ∈ hs) : h.IsPrinted old new (ofHunks old new path hs) := by
  obtain ⟨front, back, hsplit⟩ := List.append_of_mem hh
  rw [ofHunks_eq_join (List.ne_nil_of_mem hh), hsplit, print, List.flatMap_append, List.flatMap_cons]
  exact ⟨_ :: _ :: _, _, rfl⟩

/-- A changed line lies in a hunk. -/
theorem exists_covering (hf : Follows old new hs) (hi : old[i]? ≠ new[i]?) : ∃ h ∈ hs, h.start ≤ i ∧ i < h.stop := by
  by_contra hnot
  refine hi (hf.outside i fun h hh => ?_)
  by_contra hin
  exact hnot ⟨h, hh, by omega⟩

/-- A hunk shows the lines up to a changed one, that line, and the lines behind it. -/
private theorem body_eq_append (hstart : h.start ≤ i) (hstop : i < h.stop) (hchanged : i ∈ h.changed) :
    h.body old new = { h with stop := i }.body old new ++ (marked "-" old[i]? ++ marked "+" new[i]?) ++
      { h with start := i + 1 }.body old new := by
  have hrange : List.range' h.start (h.stop - h.start) =
      List.range' h.start (i - h.start) ++ i :: List.range' (i + 1) (h.stop - (i + 1)) := by
    rw [← List.range'_succ, ← Nat.add_sub_cancel' hstart, Nat.add_sub_cancel_left, List.range'_append_1]
    congr 1
    omega
  simp only [Hunk.body, drop_range]
  rw [hrange, List.flatMap_append, List.flatMap_cons, if_pos (List.contains_iff_mem.2 hchanged)]
  exact (List.append_assoc _ _ _).symm

/-- A hunk shows the changes that it covers. -/
theorem showsChange_of_covered (hf : Follows old new hs) (hi : old[i]? ≠ new[i]?) (hh : h ∈ hs) (hstart : h.start ≤ i)
    (hstop : i < h.stop) : h.ShowsChange old new i := by
  have hchanged : ∀ j, h.start ≤ j → j < i → (j ∈ h.changed ↔ old[j]? ≠ new[j]?) := fun j hj hji =>
    hf.changed h hh j hj (Nat.lt_trans hji hstop)
  exact ⟨hstart, _, _, body_eq_append hstart hstop ((hf.changed h hh i hstart hstop).2 hi), side_body hchanged⟩

/-- There is a patch between two texts if and only if the sums that end the windows are words: no index of a changed
line, with the context and one more, comes to the size of a word. Every changed line then lies within the bounds of a
hunk, and the patch shows the hunk and in its place the change. The number in the heading of a hunk is that of a
line. -/
theorem exists_render_iff (before after path : String) (context : UInt64) :
    let old := Text.lines before
    let new := Text.lines after
    ((∃ text, render? before after path context.toNat = some text) ↔
      ∀ i, old[i]? ≠ new[i]? → i + context.toNat + 1 < UInt64.size) ∧
      ∀ text, render? before after path context.toNat = some text →
        ∃ hs, hunks? old new context.toNat = some hs ∧
          (∀ i, old[i]? ≠ new[i]? →
            ∃ h ∈ hs, (h.start ≤ i ∧ i < h.stop) ∧ h.IsPrinted old new text ∧ h.ShowsChange old new i) ∧
          ∀ h ∈ hs, h.start + 1 ≤ max old.length new.length := by
  intro old new
  constructor
  · rw [← exists_hunks_iff]
    simp [render?, old, new]
  · intro text htext
    obtain ⟨hs, hhunks, rfl⟩ := Option.map_eq_some_iff.1 htext
    have hf := follows_hunks hhunks
    refine ⟨hs, hhunks, fun i hi => ?_, fun h hh => ?_⟩
    · obtain ⟨h, hh, hstart, hstop⟩ := exists_covering hf hi
      exact ⟨h, hh, ⟨hstart, hstop⟩, isPrinted_of_mem path hh, showsChange_of_covered hf hi hh hstart hstop⟩
    · exact Nat.lt_of_lt_of_le (hf.fits h hh).1 (hf.fits h hh).2

/-- With the largest context there is no patch between two texts of one line. -/
theorem largest_context_has_no_patch :
    (Text.lines "a")[0]? ≠ (Text.lines "b")[0]? ∧
      hunks? (Text.lines "a") (Text.lines "b") 18446744073709551615 = none ∧
      render? "a" "b" "x.cs" 18446744073709551615 = none := by
  refine ⟨by decide +kernel, by decide +kernel, by decide +kernel⟩

/-- One line less of context, and the change is shown. -/
example :
    render? "a" "b" "x.cs" 18446744073709551614 = some "--- a/x.cs\n+++ b/x.cs\n@@ -1,1 +1,1 @@\n-a\n+b\n" := by
  decide +kernel

end Disposal.Patch

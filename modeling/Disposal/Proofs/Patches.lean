import Mathlib.Data.List.Basic
import Mathlib.Data.List.Pairwise
import Disposal.Text.Patch
import Disposal.Proofs.Lines

/-!
# Patches tell the new text

A patch is text, and what it says is what a reader of that text finds: `read` splits it at line feeds, takes a line of
the form `@@ -s,n +s,m @@` as the heading of a hunk, and the lines behind it, each under its mark, as what the hunk
shows. What is found in a rendered patch are hunks that stand in order with a line between any two of them, that show
of either text the very lines their headings announce, and beside which the texts agree.

* `exists_hunks_iff`: there are hunks as long as the bounds are words;
* `Gathers`: what one change more (`Gathers.addChange`), and so all changes (`gathers_foldlM`), leave true of the hunks
  gathered so far; `follows_hunks` reads this off the finished list;
* `side_body`: the lines of a hunk that belong to one text;
* `Follows.replaceAll`: putting what each hunk shows of the new text in place of what it shows of the old one;
* `readHunks_print`: a reader finds the hunks that were printed;
* `read_render`: the above for a patch as it is printed.
-/

namespace Disposal

/-! ### Stretches of a list -/

section Stretches

variable {α : Type}

theorem drop_range (start stop : Nat) : (List.range stop).drop start = List.range' start (stop - start) := by
  rw [List.range_eq_range', List.drop_range']
  simp

private theorem flatMap_getElem?_range' (lines : List α) (start count : Nat) :
    (List.range' start count).flatMap (fun i => lines[i]?.toList) = (lines.drop start).take count := by
  induction count with
  | zero => simp
  | succ count ih =>
    rw [List.range'_concat, List.flatMap_append, ih, List.take_add_one, List.getElem?_drop]
    simp

/-- Where two lists agree on a stretch, it does not matter at which end of it one goes over from one to the other. -/
private theorem take_append_drop_of_agree {old new : List α} {s t : Nat} (hst : s ≤ t)
    (h : ∀ i, s ≤ i → i < t → old[i]? = new[i]?) : old.take t ++ new.drop t = old.take s ++ new.drop s := by
  have hsame : (old.drop s).take (t - s) = (new.drop s).take (t - s) := by
    refine List.ext_getElem? fun i => ?_
    rw [List.getElem?_take, List.getElem?_take, List.getElem?_drop, List.getElem?_drop]
    split
    · exact h (s + i) (by omega) (by omega)
    · rfl
  calc old.take t ++ new.drop t
      = old.take (s + (t - s)) ++ new.drop (s + (t - s)) := by rw [Nat.add_sub_cancel' hst]
    _ = old.take s ++ ((new.drop s).take (t - s) ++ (new.drop s).drop (t - s)) := by
        rw [List.take_add, hsame, List.drop_drop, List.append_assoc]
    _ = old.take s ++ new.drop s := by rw [List.take_append_drop]

end Stretches

namespace Patch

variable {old new : List String}

/-! ### Gathering the changes -/

private theorem mem_changes {i : Nat} : i ∈ changes old new ↔ old[i]? ≠ new[i]? := by
  simp only [changes, List.mem_filter, List.mem_range, bne_iff_ne, and_iff_right_iff_imp]
  intro h
  by_contra hle
  rw [List.getElem?_eq_none (by omega), List.getElem?_eq_none (by omega)] at h
  exact h rfl

private theorem lt_of_mem_changes {i : Nat} (hi : i ∈ changes old new) : i < max old.length new.length :=
  List.mem_range.1 (List.mem_filter.1 hi).1

private theorem pairwise_changes (old new : List String) : (changes old new).Pairwise (· < ·) :=
  List.pairwise_lt_range.filter _

private theorem sum?_eq_some_iff {a b n : Nat} : sum? a b = some n ↔ a + b < UInt64.size ∧ a + b = n := by
  simp [sum?]

private theorem windowEnd?_eq_some_iff {context size i stop : Nat} :
    windowEnd? context size i = some stop ↔ i + context + 1 < UInt64.size ∧ min (i + context + 1) size = stop := by
  simp only [windowEnd?, Option.map_eq_some_iff, Option.bind_eq_some_iff, sum?_eq_some_iff]
  constructor
  · rintro ⟨_, ⟨_, ⟨-, rfl⟩, hfit, rfl⟩, hmin⟩
    exact ⟨hfit, hmin⟩
  · rintro ⟨hfit, hmin⟩
    exact ⟨_, ⟨_, ⟨Nat.lt_of_succ_lt hfit, rfl⟩, hfit, rfl⟩, hmin⟩

private theorem addChange_eq_some_iff {context size i : Nat} {hs hs' : List Hunk} :
    addChange context size hs i = some hs' ↔
      i + context + 1 < UInt64.size ∧ addWindow hs (i - context) (min (i + context + 1) size) i = hs' := by
  simp only [addChange, Option.map_eq_some_iff, windowEnd?_eq_some_iff]
  constructor
  · rintro ⟨_, ⟨hfit, rfl⟩, hadd⟩
    exact ⟨hfit, hadd⟩
  · rintro ⟨hfit, hadd⟩
    exact ⟨_, ⟨hfit, rfl⟩, hadd⟩

/-- Hunks of a text of `size` lines, listed last first, that hold the changed lines `is`. Two of them have at least one
line in between, as hunks that touch are one. -/
structure Gathers (size : Nat) (is : List Nat) (hs : List Hunk) : Prop where
  apart : hs.Pairwise fun g h => h.stop < g.start
  fits : ∀ h ∈ hs, h.stop ≤ size
  changed : ∀ h ∈ hs, h.changed ≠ [] ∧ ∀ i ∈ h.changed, h.start ≤ i ∧ i < h.stop
  all : hs.reverse.flatMap Hunk.changed = is

namespace Gathers

variable {size context i start stop : Nat} {is : List Nat} {h : Hunk} {hs : List Hunk}

theorem mem_iff (hg : Gathers size is hs) {i : Nat} : i ∈ is ↔ ∃ h ∈ hs, i ∈ h.changed := by
  simp [← hg.all]

theorem start_lt_stop (hg : Gathers size is hs) {h : Hunk} (hh : h ∈ hs) : h.start < h.stop := by
  obtain ⟨hne, hbounds⟩ := hg.changed h hh
  obtain ⟨j, hj⟩ := List.exists_mem_of_ne_nil _ hne
  exact Nat.lt_of_le_of_lt (hbounds j hj).1 (hbounds j hj).2

/-- A change that opens a hunk. -/
theorem opened (hg : Gathers size is hs) (hapart : ∀ h ∈ hs, h.stop < start) (hstart : start ≤ i)
    (hstop : i < stop ∧ stop ≤ size) : Gathers size (is ++ [i]) (⟨start, stop, [i]⟩ :: hs) where
  apart := List.pairwise_cons.2 ⟨hapart, hg.apart⟩
  fits := List.forall_mem_cons.2 ⟨hstop.2, hg.fits⟩
  changed := List.forall_mem_cons.2 ⟨by simp [hstart, hstop.1], hg.changed⟩
  all := by simp [← hg.all]

/-- A change that joins the hunk added last. -/
private theorem joined (hg : Gathers size is (h :: hs)) (hlt : ∀ j ∈ is, j < i) (hstop : i < stop ∧ stop ≤ size) :
    Gathers size (is ++ [i]) (⟨h.start, stop, h.changed ++ [i]⟩ :: hs) := by
  have hbefore : ∀ j ∈ h.changed, h.start ≤ j ∧ j < i := fun j hj =>
    ⟨((hg.changed h List.mem_cons_self).2 j hj).1, hlt j (hg.mem_iff.2 ⟨h, List.mem_cons_self, hj⟩)⟩
  have hstart : h.start ≤ i := by
    obtain ⟨j, hj⟩ := List.exists_mem_of_ne_nil _ (hg.changed h List.mem_cons_self).1
    have := hbefore j hj
    omega
  refine ⟨List.pairwise_cons.2 (List.pairwise_cons.1 hg.apart), ?_, ?_, by simp [← hg.all]⟩
  · exact List.forall_mem_cons.2 ⟨hstop.2, (List.forall_mem_cons.1 hg.fits).2⟩
  · refine List.forall_mem_cons.2 ⟨⟨by simp, fun j hj => ?_⟩, (List.forall_mem_cons.1 hg.changed).2⟩
    rcases List.mem_append.1 hj with hj | hj
    · exact ⟨(hbefore j hj).1, Nat.lt_trans (hbefore j hj).2 hstop.1⟩
    · rw [List.mem_singleton.1 hj]
      exact ⟨hstart, hstop.1⟩

/-- One more change, behind those gathered so far. -/
theorem addChange (hg : Gathers size is hs) (hlt : ∀ j ∈ is, j < i) (hi : i < size) {hs' : List Hunk}
    (hadd : addChange context size hs i = some hs') : Gathers size (is ++ [i]) hs' := by
  obtain ⟨-, rfl⟩ := addChange_eq_some_iff.1 hadd
  have hstop : i < min (i + context + 1) size ∧ min (i + context + 1) size ≤ size := by omega
  cases hs with
  | nil => exact hg.opened (by simp) (Nat.sub_le i context) hstop
  | cons h hs =>
    by_cases htouch : i - context ≤ h.stop
    · rw [addWindow, if_pos htouch]
      exact hg.joined hlt hstop
    · rw [addWindow, if_neg htouch]
      refine hg.opened (List.forall_mem_cons.2 ⟨Nat.lt_of_not_le htouch, fun g hgs => ?_⟩) (Nat.sub_le i context) hstop
      -- `h` is not empty, and `g` ends in front of it
      have := hg.start_lt_stop List.mem_cons_self
      have := (List.pairwise_cons.1 hg.apart).1 g hgs
      omega

end Gathers

/-- All changes, in order. -/
theorem gathers_foldlM {size context : Nat} {is : List Nat} {hs : List Hunk} (hsorted : is.Pairwise (· < ·))
    (his : ∀ i ∈ is, i < size) (h : is.foldlM (Patch.addChange context size) [] = some hs) : Gathers size is hs := by
  induction is using List.reverseRecOn generalizing hs with
  | nil =>
    cases h
    exact ⟨.nil, by simp, by simp, rfl⟩
  | append_singleton is i ih =>
    obtain ⟨hsorted, -, hlt⟩ := List.pairwise_append.1 hsorted
    rw [List.foldlM_append, Option.bind_eq_bind, Option.bind_eq_some_iff] at h
    obtain ⟨hs', hfront, hlast⟩ := h
    rw [List.foldlM_cons, Option.bind_eq_bind, Option.bind_eq_some_iff] at hlast
    obtain ⟨_, hadd, hlast⟩ := hlast
    cases hlast
    refine (ih hsorted (fun j hj => his j (List.mem_append_left _ hj)) hfront).addChange ?_ (his i (by simp)) hadd
    exact fun j hj => hlt j hj i (List.mem_singleton_self i)

/-- The changes can all be added if no sum is too large for a word. -/
private theorem exists_foldlM_iff {size context : Nat} {is : List Nat} (hs : List Hunk) :
    (∃ hs', is.foldlM (addChange context size) hs = some hs') ↔ ∀ i ∈ is, i + context + 1 < UInt64.size := by
  induction is generalizing hs with
  | nil => simp
  | cons i is ih =>
    rw [List.foldlM_cons, Option.bind_eq_bind, List.forall_mem_cons]
    simp only [Option.bind_eq_some_iff, addChange_eq_some_iff]
    constructor
    · rintro ⟨hs', _, ⟨hfit, -⟩, hrest⟩
      exact ⟨hfit, (ih _).1 ⟨hs', hrest⟩⟩
    · rintro ⟨hfit, hfits⟩
      obtain ⟨hs', hrest⟩ := (ih _).2 hfits
      exact ⟨hs', _, ⟨hfit, rfl⟩, hrest⟩

/-- There are hunks exactly as long as no sum is too large for a word. -/
theorem exists_hunks_iff {context : Nat} :
    (∃ hs, hunks? old new context = some hs) ↔ ∀ i, old[i]? ≠ new[i]? → i + context + 1 < UInt64.size := by
  simp only [← mem_changes]
  rw [← @exists_foldlM_iff (max old.length new.length) context _ []]
  simp [hunks?]

/-! ### What the hunks cover -/

private theorem lt_or_lt_of_ne {hs : List Hunk} (hapart : hs.Pairwise fun g h => g.stop < h.start) {g h : Hunk}
    (hg : g ∈ hs) (hh : h ∈ hs) (hne : g ≠ h) : g.stop < h.start ∨ h.stop < g.start := by
  have hsymm : Std.Symm fun g h : Hunk => g.stop < h.start ∨ h.stop < g.start := ⟨fun _ _ => Or.symm⟩
  have hor : hs.Pairwise fun g h => g.stop < h.start ∨ h.stop < g.start := hapart.imp .inl
  exact hor.forall hg hh hne

/-- The hunks between two lists of lines, in order: they have a line in between, they know which of their lines have
changed, and no other line has. -/
structure Follows (old new : List String) (hs : List Hunk) : Prop where
  apart : hs.Pairwise fun g h => g.stop < h.start
  fits : ∀ h ∈ hs, h.start < h.stop ∧ h.stop ≤ max old.length new.length
  changed : ∀ h ∈ hs, ∀ i, h.start ≤ i → i < h.stop → (i ∈ h.changed ↔ old[i]? ≠ new[i]?)
  outside : ∀ i, (∀ h ∈ hs, i < h.start ∨ h.stop ≤ i) → old[i]? = new[i]?

theorem follows_hunks {context : Nat} {hs : List Hunk} (hhunks : hunks? old new context = some hs) :
    Follows old new hs := by
  obtain ⟨gathered, hfold, rfl⟩ := Option.map_eq_some_iff.1 hhunks
  have hg := gathers_foldlM (pairwise_changes old new) (fun _ => lt_of_mem_changes) hfold
  have hin : ∀ i, old[i]? ≠ new[i]? ↔ ∃ h ∈ gathered.reverse, i ∈ h.changed := by
    simp [← hg.mem_iff, mem_changes]
  have hchanged : ∀ h ∈ gathered.reverse, ∀ i ∈ h.changed, h.start ≤ i ∧ i < h.stop :=
    fun h hh => (hg.changed h (List.mem_reverse.1 hh)).2
  have hapart : gathered.reverse.Pairwise fun g h => g.stop < h.start := List.pairwise_reverse.2 hg.apart
  refine ⟨hapart, fun h hh => ?_, fun h hh i hstart hstop => ⟨fun hi => (hin i).2 ⟨h, hh, hi⟩, fun hi => ?_⟩,
    fun i hi => ?_⟩
  · exact ⟨hg.start_lt_stop (List.mem_reverse.1 hh), hg.fits h (List.mem_reverse.1 hh)⟩
  · obtain ⟨g, hgs, hig⟩ := (hin i).1 hi
    have hbounds := hchanged g hgs i hig
    by_contra hih
    have hne : g ≠ h := fun heq => hih (heq ▸ hig)
    have := lt_or_lt_of_ne hapart hgs hh hne
    omega
  · by_contra hne
    obtain ⟨h, hh, hih⟩ := (hin i).1 hne
    have := hchanged h hh i hih
    have := hi h hh
    omega

/-- Both texts reach up to the start of each hunk: a text that ended before would have its end inside a hunk. -/
private theorem Follows.start_le {hs : List Hunk} (hf : Follows old new hs) {h : Hunk} (hh : h ∈ hs) :
    h.start ≤ old.length ∧ h.start ≤ new.length := by
  by_contra hlt
  have hfits := hf.fits h hh
  have heq : old[h.start - 1]? = new[h.start - 1]? := by
    refine hf.outside _ fun g hgs => ?_
    by_cases hne : g = h
    · exact .inl (by rw [hne]; omega)
    · have := lt_or_lt_of_ne hf.apart hgs hh hne
      omega
  have hnone := List.getElem?_eq_none_iff (l := old) (i := h.start - 1)
  rw [heq, List.getElem?_eq_none_iff] at hnone
  omega

/-! ### What a hunk shows -/

/-- The lines of a hunk that one of the texts has: those under a blank, which both have, and those under its own mark.
The mark itself is not part of the line. -/
def side (mark : Char) (lines : List String) : List String :=
  lines.filterMap fun line =>
    match line.toList with
    | c :: cs => if c = ' ' ∨ c = mark then some (String.ofList cs) else none
    | [] => none

private theorem side_append (mark : Char) (lines lines' : List String) :
    side mark (lines ++ lines') = side mark lines ++ side mark lines' :=
  List.filterMap_append

private theorem side_marked {text : String} {c : Char} (htext : text.toList = [c]) (mark : Char)
    (line? : Option String) : side mark (marked text line?) = if c = ' ' ∨ c = mark then line?.toList else [] := by
  cases line? with
  | none => simp [side, marked]
  | some line =>
    by_cases hc : c = ' ' ∨ c = mark <;> simp [side, marked, htext, hc]

private theorem side_change (old? new? : Option String) :
    side '-' (marked "-" old? ++ marked "+" new?) = old?.toList ∧
      side '+' (marked "-" old? ++ marked "+" new?) = new?.toList := by
  constructor <;> simp [side_append, side_marked (c := '-'), side_marked (c := '+')]

theorem side_body {h : Hunk} (hchanged : ∀ i, h.start ≤ i → i < h.stop → (i ∈ h.changed ↔ old[i]? ≠ new[i]?)) :
    side '-' (h.body old new) = (old.drop h.start).take (h.stop - h.start) ∧
      side '+' (h.body old new) = (new.drop h.start).take (h.stop - h.start) := by
  rw [Hunk.body, drop_range, ← flatMap_getElem?_range', ← flatMap_getElem?_range', side, side, List.filterMap_flatMap,
    List.filterMap_flatMap]
  constructor
  · refine List.flatMap_congr fun i _ => ?_
    show side '-' _ = _
    split
    · exact (side_change ..).1
    · simp [side_marked (c := ' ')]
  · refine List.flatMap_congr fun i hi => ?_
    obtain ⟨hstart, hstop⟩ := List.mem_range'_1.1 hi
    show side '+' _ = _
    split
    · exact (side_change ..).2
    · next hmem =>
      have heq : old[i]? = new[i]? := by
        by_contra hne
        exact hmem (List.contains_iff_mem.2 ((hchanged i hstart (by omega)).2 hne))
      simp [side_marked (c := ' '), heq]

/-- The lines with the numbers `first` to `first + count - 1`, where the first line of a text has the number one. -/
def numbered (lines : List String) (first count : Nat) : List String := (lines.drop (first - 1)).take count

private theorem stretch_eq_numbered (lines : List String) (start stop : Nat) :
    (lines.drop start).take (stop - start) = numbered lines (start + 1) (min stop lines.length - start) ∧
      ((lines.drop start).take (stop - start)).length = min stop lines.length - start := by
  constructor
  · rw [numbered, Nat.add_sub_cancel, List.take_eq_take_iff, List.length_drop]
    omega
  · rw [List.length_take, List.length_drop]
    omega

/-- A hunk as a reader of the patch finds it: the numbers in its heading, and its lines with their marks. -/
structure Shown where
  oldFirst : Nat
  oldCount : Nat
  newFirst : Nat
  newCount : Nat
  lines : List String
  deriving DecidableEq, Repr

namespace Shown

/-- What a hunk shows of the old text. -/
def before (h : Shown) : List String := side '-' h.lines

/-- What a hunk shows of the new text. -/
def after (h : Shown) : List String := side '+' h.lines

/-- The line with index `i` is one of those that the heading announces, of either text. -/
def Covers (h : Shown) (i : Nat) : Prop :=
  h.oldFirst ≤ i + 1 ∧ i + 1 < h.oldFirst + max h.oldCount h.newCount

/-- Puts what the hunk shows of the new text in place of the lines of the old one. -/
def replace (h : Shown) (lines : List String) : List String :=
  lines.take (h.oldFirst - 1) ++ h.after ++ lines.drop (h.oldFirst - 1 + h.oldCount)

end Shown

/-- Replaces the lines of all hunks, from the last to the first, as replacing moves only lines that are farther down. -/
def replaceAll (hunks : List Shown) (lines : List String) : List String := hunks.foldr Shown.replace lines

/-- Hunks that tell two lists of lines apart: they stand in order with a line between any two, the lists agree outside
of them, and each shows of either list the lines that its heading numbers, and as many as it says. -/
structure IsShown (old new : List String) (hunks : List Shown) : Prop where
  apart : hunks.Pairwise fun g h => g.oldFirst + max g.oldCount g.newCount < h.oldFirst
  outside : ∀ i, (∀ h ∈ hunks, ¬h.Covers i) → old[i]? = new[i]?
  first : ∀ h ∈ hunks, h.oldFirst = h.newFirst ∧ 0 < h.oldFirst ∧ 0 < max h.oldCount h.newCount
  before : ∀ h ∈ hunks, h.before = numbered old h.oldFirst h.oldCount ∧ h.before.length = h.oldCount
  after : ∀ h ∈ hunks, h.after = numbered new h.newFirst h.newCount ∧ h.after.length = h.newCount

/-- What a reader should find for a hunk. -/
def Hunk.shown (old new : List String) (h : Hunk) : Shown :=
  ⟨h.start + 1, min h.stop old.length - h.start, h.start + 1, min h.stop new.length - h.start, h.body old new⟩

namespace Follows

variable {hs : List Hunk} {h : Hunk}

private theorem extent_shown (hf : Follows old new hs) (hh : h ∈ hs) :
    max (h.shown old new).oldCount (h.shown old new).newCount = h.stop - h.start := by
  have hfits := hf.fits h hh
  show max (min h.stop old.length - h.start) (min h.stop new.length - h.start) = h.stop - h.start
  omega

private theorem covers_shown (hf : Follows old new hs) (hh : h ∈ hs) {i : Nat} :
    (h.shown old new).Covers i ↔ h.start ≤ i ∧ i < h.stop := by
  rw [Shown.Covers, hf.extent_shown hh]
  show h.start + 1 ≤ i + 1 ∧ i + 1 < h.start + 1 + (h.stop - h.start) ↔ _
  omega

private theorem before_shown (hf : Follows old new hs) (hh : h ∈ hs) :
    (h.shown old new).before = (old.drop h.start).take (h.stop - h.start) :=
  (side_body (hf.changed h hh)).1

private theorem after_shown (hf : Follows old new hs) (hh : h ∈ hs) :
    (h.shown old new).after = (new.drop h.start).take (h.stop - h.start) :=
  (side_body (hf.changed h hh)).2

private theorem isShown (hf : Follows old new hs) : IsShown old new (hs.map (Hunk.shown old new)) where
  apart := by
    refine List.pairwise_map.2 (hf.apart.imp_of_mem fun {g h} hg hh hlt => ?_)
    have hfits := hf.fits g hg
    rw [hf.extent_shown hg]
    show g.start + 1 + (g.stop - g.start) < h.start + 1
    omega
  outside i hi := by
    refine hf.outside i fun h hh => ?_
    have := (hf.covers_shown hh).not.1 (hi _ (List.mem_map_of_mem hh))
    omega
  first := by
    refine List.forall_mem_map.2 fun h hh => ⟨rfl, Nat.succ_pos _, ?_⟩
    rw [hf.extent_shown hh]
    exact Nat.sub_pos_of_lt (hf.fits h hh).1
  before := by
    refine List.forall_mem_map.2 fun h hh => ?_
    rw [hf.before_shown hh]
    exact stretch_eq_numbered ..
  after := by
    refine List.forall_mem_map.2 fun h hh => ?_
    rw [hf.after_shown hh]
    exact stretch_eq_numbered ..

/-- The new text from the end of a hunk on becomes the new text from its start on. -/
private theorem replace_shown (hf : Follows old new hs) (hh : h ∈ hs) :
    (h.shown old new).replace (old.take h.stop ++ new.drop h.stop) = old.take h.start ++ new.drop h.start := by
  have hfits := hf.fits h hh
  have hstart := hf.start_le hh
  have hlength : (old.take h.stop).length = h.start + (min h.stop old.length - h.start) := by
    rw [List.length_take]
    omega
  have htake : (old.take h.stop ++ new.drop h.stop).take h.start = old.take h.start := by
    rw [List.take_append_of_le_length (by omega), List.take_take, Nat.min_eq_left (by omega)]
  have hnew : new.drop h.stop = (new.drop h.start).drop (h.stop - h.start) := by
    rw [List.drop_drop, Nat.add_sub_cancel' (by omega)]
  calc (h.shown old new).replace (old.take h.stop ++ new.drop h.stop)
      = (old.take h.stop ++ new.drop h.stop).take h.start ++ (h.shown old new).after ++
          (old.take h.stop ++ new.drop h.stop).drop (h.start + (min h.stop old.length - h.start)) := rfl
    _ = old.take h.start ++ ((new.drop h.start).take (h.stop - h.start) ++ new.drop h.stop) := by
        rw [htake, hf.after_shown hh, List.drop_left' hlength, List.append_assoc]
    _ = old.take h.start ++ new.drop h.start := by rw [hnew, List.take_append_drop]

/-- With the hunks from some place on replaced, the text is the old one up to that place and the new one behind it. -/
private theorem replaceAll_suffix (front : List Hunk) (hf : Follows old new (front ++ hs)) {s : Nat}
    (hfront : ∀ g ∈ front, g.stop ≤ s) (hback : ∀ h ∈ hs, s ≤ h.start) :
    Patch.replaceAll (hs.map (Hunk.shown old new)) old = old.take s ++ new.drop s := by
  induction hs generalizing front s with
  | nil =>
    have hagree : old.drop s = new.drop s := by
      refine List.ext_getElem? fun i => ?_
      rw [List.getElem?_drop, List.getElem?_drop]
      refine hf.outside _ fun g hg => .inr ?_
      have := hfront g (by simpa using hg)
      omega
    rw [← hagree, List.take_append_drop]
    rfl
  | cons h hs ih =>
    have hh : h ∈ front ++ h :: hs := by simp
    have hfits := hf.fits h hh
    have hs_le := hback h List.mem_cons_self
    have hapart := List.pairwise_cons.1 (List.pairwise_append.1 hf.apart).2.1
    have hrest : Patch.replaceAll (hs.map (Hunk.shown old new)) old = old.take h.stop ++ new.drop h.stop := by
      refine ih (front ++ [h]) (by simpa using hf) (fun g hg => ?_) fun g hg => Nat.le_of_lt (hapart.1 g hg)
      rcases List.mem_append.1 hg with hg | hg
      · have := hfront g hg
        omega
      · exact Nat.le_of_eq (congrArg Hunk.stop (List.mem_singleton.1 hg))
    calc Patch.replaceAll ((h :: hs).map (Hunk.shown old new)) old
        = (h.shown old new).replace (Patch.replaceAll (hs.map (Hunk.shown old new)) old) := rfl
      _ = old.take h.start ++ new.drop h.start := by rw [hrest, hf.replace_shown hh]
      _ = old.take s ++ new.drop s := by
        refine take_append_drop_of_agree hs_le fun i hsi hi => hf.outside i fun g hg => ?_
        rcases List.mem_append.1 hg with hg | hg
        · exact .inr (Nat.le_trans (hfront g hg) hsi)
        · rcases List.mem_cons.1 hg with rfl | hg
          · exact .inl hi
          · have := hapart.1 g hg
            exact .inl (by omega)

theorem replaceAll (hf : Follows old new hs) : Patch.replaceAll (hs.map (Hunk.shown old new)) old = new :=
  hf.replaceAll_suffix [] (s := 0) (by simp) (by simp)

end Follows

/-! ### Reading a patch -/

/-- Reads `mark` and the number behind it. -/
def readNumber (mark : String) (cs : List Char) : Option (Nat × List Char) := do
  let rest ← mark.toList.isPrefixOf? cs
  let digits := rest.takeWhile Char.isDigit
  if digits = [] then none else some (Nat.ofDigitChars 10 digits 0, rest.dropWhile Char.isDigit)

/-- Reads a line of the form `@@ -s,n +s,m @@`; the hunk has no lines yet. -/
def readHeading (line : String) : Option Shown := do
  let (oldFirst, cs) ← readNumber "@@ -" line.toList
  let (oldCount, cs) ← readNumber "," cs
  let (newFirst, cs) ← readNumber " +" cs
  let (newCount, cs) ← readNumber "," cs
  if cs = " @@".toList then some ⟨oldFirst, oldCount, newFirst, newCount, []⟩ else none

/-- Whether a line has one of the marks of a line of a hunk. -/
def isMarked (line : String) : Bool := line.toList.head?.any [' ', '-', '+'].contains

/-- Reads lines from the last to the first: the lines that wait for a heading, and the hunks behind them. -/
def readHunks : List String → Option (List String × List Shown)
  | [] => some ([], [])
  | line :: lines => do
    let (waiting, hunks) ← readHunks lines
    match readHeading line with
    | some h => some ([], { h with lines := waiting } :: hunks)
    | none => if isMarked line then some (line :: waiting, hunks) else none

/-- The lines of a patch, each without the line feed that ends it. -/
def linesOf (text : String) : List String :=
  (Text.linesKept text.toList).map fun line => String.ofList (line.takeWhile (· ≠ '\n'))

/-- Reads a patch: nothing at all, or two lines that name the texts, and hunks. -/
def read (text : String) : Option (List Shown) :=
  match linesOf text with
  | [] => some []
  | [_] => none
  | source :: target :: lines =>
    if Text.startsWith "--- a/" source && Text.startsWith "+++ b/" target then
      match readHunks lines with
      | some ([], hunks) => some hunks
      | _ => none
    else none

/-- Characters up to the first one that does not belong to them. -/
theorem takeWhile_dropWhile_append {p : Char → Bool} {front rest : List Char} (hfront : ∀ c ∈ front, p c = true)
    (hrest : ∀ c ∈ rest.head?, p c = false) :
    (front ++ rest).takeWhile p = front ∧ (front ++ rest).dropWhile p = rest := by
  rw [List.takeWhile_append_of_pos hfront, List.dropWhile_append_of_pos hfront]
  cases rest with
  | nil => exact ⟨List.append_nil front, rfl⟩
  | cons c rest => simp [hrest c (by simp)]

private theorem isPrefixOf?_append (front rest : List Char) : front.isPrefixOf? (front ++ rest) = some rest := by
  induction front with
  | nil => simp [List.isPrefixOf?]
  | cons c front ih => simp [List.isPrefixOf?, ih]

private theorem readNumber_toDigits (mark : String) (n : Nat) {rest : List Char}
    (hrest : ∀ c ∈ rest.head?, c.isDigit = false) :
    readNumber mark (mark.toList ++ (Nat.toDigits 10 n ++ rest)) = some (n, rest) := by
  have hdigits : ∀ c ∈ Nat.toDigits 10 n, c.isDigit = true := fun c hc =>
    Nat.isDigit_of_mem_toDigits (by decide) (by decide) hc
  obtain ⟨htake, hdrop⟩ := takeWhile_dropWhile_append hdigits hrest
  rw [readNumber, isPrefixOf?_append, Option.bind_eq_bind, Option.bind_some]
  dsimp only
  rw [htake, hdrop, if_neg Nat.toDigits_ne_nil, Nat.ofDigitChars_ten_toDigits]

private theorem toList_numbers (a b c d : Nat) :
    (s!"@@ -{a},{b} +{c},{d} @@").toList =
      "@@ -".toList ++ (Nat.toDigits 10 a ++ (",".toList ++ (Nat.toDigits 10 b ++
        (" +".toList ++ (Nat.toDigits 10 c ++ (",".toList ++ (Nat.toDigits 10 d ++ " @@".toList))))))) := by
  simp only [toString, String.toList_append, Nat.toList_repr, List.append_assoc]

private theorem toList_heading (h : Hunk) :
    (h.heading old new).toList =
      "@@ -".toList ++ (Nat.toDigits 10 (h.shown old new).oldFirst ++
        (",".toList ++ (Nat.toDigits 10 (h.shown old new).oldCount ++
          (" +".toList ++ (Nat.toDigits 10 (h.shown old new).newFirst ++
            (",".toList ++ (Nat.toDigits 10 (h.shown old new).newCount ++ " @@".toList))))))) :=
  toList_numbers ..

private theorem readHeading_heading (h : Hunk) :
    readHeading (h.heading old new) = some { h.shown old new with lines := [] } := by
  rw [readHeading, toList_heading, readNumber_toDigits _ _ (by simp)]
  simp only [Option.bind_eq_bind, Option.bind_some]
  rw [readNumber_toDigits _ _ (by simp), Option.bind_some, readNumber_toDigits _ _ (by simp), Option.bind_some,
    readNumber_toDigits _ _ (by simp), Option.bind_some, if_pos rfl]

private theorem readHeading_of_isMarked {line : String} (h : isMarked line = true) : readHeading line = none := by
  rw [readHeading]
  cases hline : line.toList with
  | nil => rfl
  | cons c cs =>
    have hc : c ≠ '@' := by
      rintro rfl
      simp [isMarked, hline] at h
    have hfail : readNumber "@@ -" (c :: cs) = none := by
      simp [readNumber, List.isPrefixOf?, hc.symm]
    rw [hfail]
    rfl

private theorem readHunks_append {body rest waiting : List String} {hunks : List Shown}
    (hbody : ∀ l ∈ body, isMarked l = true) (hrest : readHunks rest = some (waiting, hunks)) :
    readHunks (body ++ rest) = some (body ++ waiting, hunks) := by
  induction body with
  | nil => exact hrest
  | cons l body ih =>
    obtain ⟨hl, hbody⟩ := List.forall_mem_cons.1 hbody
    simp [readHunks, ih hbody, readHeading_of_isMarked hl, hl]

private theorem mem_marked {mark l : String} {line? : Option String} :
    l ∈ marked mark line? ↔ ∃ line, line? = some line ∧ mark ++ line = l := by
  simp [marked]

private theorem exists_line_of_mem_body {h : Hunk} {l : String} (hl : l ∈ h.body old new) :
    ∃ mark ∈ [" ", "-", "+"], ∃ line, (line ∈ old ∨ line ∈ new) ∧ l = mark ++ line := by
  obtain ⟨i, -, hi⟩ := List.mem_flatMap.1 hl
  split at hi
  · rcases List.mem_append.1 hi with hi | hi
    · obtain ⟨line, hline, rfl⟩ := mem_marked.1 hi
      exact ⟨"-", by simp, line, .inl (List.mem_of_getElem? hline), rfl⟩
    · obtain ⟨line, hline, rfl⟩ := mem_marked.1 hi
      exact ⟨"+", by simp, line, .inr (List.mem_of_getElem? hline), rfl⟩
  · obtain ⟨line, hline, rfl⟩ := mem_marked.1 hi
    exact ⟨" ", by simp, line, .inl (List.mem_of_getElem? hline), rfl⟩

private theorem isMarked_of_mem_body {h : Hunk} {l : String} (hl : l ∈ h.body old new) : isMarked l = true := by
  obtain ⟨mark, hmark, line, -, rfl⟩ := exists_line_of_mem_body hl
  simp only [List.mem_cons, List.not_mem_nil, or_false] at hmark
  rcases hmark with rfl | rfl | rfl <;> simp [isMarked]

/-- The lines that are printed for some hunks. -/
def print (old new : List String) (hs : List Hunk) : List String :=
  hs.flatMap fun h => h.heading old new :: h.body old new

/-- A reader finds the hunks that were printed. -/
theorem readHunks_print (hs : List Hunk) :
    readHunks (print old new hs) = some ([], hs.map (Hunk.shown old new)) := by
  induction hs with
  | nil => rfl
  | cons h hs ih =>
    have hbody : readHunks (h.body old new ++ print old new hs) =
        some (h.body old new ++ [], hs.map (Hunk.shown old new)) :=
      readHunks_append (fun _ hl => isMarked_of_mem_body hl) ih
    show readHunks (h.heading old new :: (h.body old new ++ print old new hs)) = _
    simp [readHunks, hbody, readHeading_heading, Hunk.shown]

private theorem not_mem_heading (h : Hunk) : '\n' ∉ (h.heading old new).toList := by
  have hdigits : ∀ n, '\n' ∉ Nat.toDigits 10 n := fun n hmem =>
    absurd (Nat.isDigit_of_mem_toDigits (by decide) (by decide) hmem) (by decide)
  rw [toList_heading]
  simp [hdigits]

private theorem not_mem_of_mem_print {hs : List Hunk} (hold : ∀ line ∈ old, '\n' ∉ line.toList)
    (hnew : ∀ line ∈ new, '\n' ∉ line.toList) {l : String} (hl : l ∈ print old new hs) : '\n' ∉ l.toList := by
  obtain ⟨h, -, hl⟩ := List.mem_flatMap.1 hl
  rcases List.mem_cons.1 hl with rfl | hl
  · exact not_mem_heading h
  · obtain ⟨mark, hmark, line, hline, rfl⟩ := exists_line_of_mem_body hl
    have hfree : '\n' ∉ line.toList := hline.elim (hold line) (hnew line)
    simp only [List.mem_cons, List.not_mem_nil, or_false] at hmark
    rcases hmark with rfl | rfl | rfl <;> simp [hfree]

private theorem linesOf_join {lines : List String} (h : ∀ l ∈ lines, '\n' ∉ l.toList) :
    linesOf (String.join (lines.map Text.line)) = lines := by
  rw [linesOf, Text.linesKept_join h, List.map_map]
  refine (List.map_congr_left fun l hl => ?_).trans (List.map_id lines)
  have hall : ∀ c ∈ l.toList, decide (c ≠ '\n') = true := fun c hc =>
    decide_eq_true fun heq => h l hl (heq ▸ hc)
  show String.ofList ((l.toList ++ ['\n']).takeWhile (· ≠ '\n')) = l
  rw [(takeWhile_dropWhile_append hall (by simp)).1, String.ofList_toList]

/-! ### The patch between two texts -/

private theorem hunks_eq_nil_iff {context : Nat} {hs : List Hunk} (hhunks : hunks? old new context = some hs) :
    hs = [] ↔ old = new := by
  constructor
  · rintro rfl
    exact (follows_hunks hhunks).replaceAll
  · rintro rfl
    simpa [hunks?, changes] using hhunks.symm

theorem ofHunks_eq_join {path : String} {hs : List Hunk} (hne : hs ≠ []) :
    ofHunks old new path hs =
      String.join ((s!"--- a/{path}" :: s!"+++ b/{path}" :: print old new hs).map Text.line) := by
  cases hs with
  | nil => exact absurd rfl hne
  | cons h hs => rfl

private theorem linesOf_ofHunks {before after path : String} {hs : List Hunk} (hpath : '\n' ∉ path.toList)
    (hne : hs ≠ []) : linesOf (ofHunks (Text.lines before) (Text.lines after) path hs) =
      s!"--- a/{path}" :: s!"+++ b/{path}" :: print (Text.lines before) (Text.lines after) hs := by
  rw [ofHunks_eq_join hne]
  refine linesOf_join ?_
  simp only [List.forall_mem_cons]
  refine ⟨by simp [toString, hpath], by simp [toString, hpath], fun l hl => ?_⟩
  exact not_mem_of_mem_print (fun _ => Text.not_mem_of_mem_lines) (fun _ => Text.not_mem_of_mem_lines) hl

private theorem read_of_lines {text source target : String} {hs : List Hunk}
    (hlines : linesOf text = source :: target :: print old new hs) (hsource : Text.startsWith "--- a/" source = true)
    (htarget : Text.startsWith "+++ b/" target = true) : read text = some (hs.map (Hunk.shown old new)) := by
  rw [read, hlines]
  simp [hsource, htarget, readHunks_print]

/-- There is a patch between two texts, and it is empty if and only if they have the same lines. What is read from it
are hunks in increasing order, none of which reaches the next: outside of them the texts agree, and the lines of a hunk
with the heading `@@ -s,n +s,m @@` that stand under a blank or a minus are the lines `s` to `s + n - 1` of the old text,
and those under a blank or a plus the lines `s` to `s + m - 1` of the new one. Replacing in the old text the former by
the latter, for all hunks, gives the new text. -/
theorem read_render (before after path : String) (context : Nat) (hpath : '\n' ∉ path.toList)
    (hsize : max (Text.lines before).length (Text.lines after).length + context < UInt64.size) :
    ∃ text, render? before after path context = some text ∧
      (text = "" ↔ Text.lines before = Text.lines after) ∧
      ∃ hunks, read text = some hunks ∧ IsShown (Text.lines before) (Text.lines after) hunks ∧
        replaceAll hunks (Text.lines before) = Text.lines after := by
  have hfits : ∀ i, (Text.lines before)[i]? ≠ (Text.lines after)[i]? → i + context + 1 < UInt64.size := by
    intro i hi
    have := lt_of_mem_changes (mem_changes.2 hi)
    omega
  obtain ⟨hs, hhunks⟩ := exists_hunks_iff.2 hfits
  have hf := follows_hunks hhunks
  have hnil := hunks_eq_nil_iff hhunks
  refine ⟨_, Option.map_eq_some_iff.2 ⟨hs, hhunks, rfl⟩, ?_⟩
  by_cases hempty : hs = []
  · subst hempty
    exact ⟨⟨fun _ => hnil.1 rfl, fun _ => rfl⟩, [], rfl, hf.isShown, hf.replaceAll⟩
  · have hlines := @linesOf_ofHunks before after path hs hpath hempty
    have hne : ofHunks (Text.lines before) (Text.lines after) path hs ≠ "" := by
      intro heq
      rw [heq] at hlines
      exact absurd hlines (by simp [linesOf])
    refine ⟨⟨fun heq => absurd heq hne, fun heq => absurd (hnil.2 heq) hempty⟩, _, ?_, hf.isShown, hf.replaceAll⟩
    exact read_of_lines hlines (by simp [Text.startsWith, toString]) (by simp [Text.startsWith, toString])

/-- The theorem for two hunks, the second of which shows that the new text is shorter. -/
theorem read_render_two_hunks :
    ∃ text hunks, render? "a\nb\nc\nd\ne\n" "x\nb\nc\nd" "C.cs" 1 = some text ∧ read text = some hunks ∧
      hunks = [⟨1, 2, 1, 2, ["-a", "+x", " b"]⟩, ⟨4, 2, 4, 1, [" d", "-e"]⟩] ∧
      replaceAll hunks ["a", "b", "c", "d", "e"] = ["x", "b", "c", "d"] := by
  have hold : Text.lines "a\nb\nc\nd\ne\n" = ["a", "b", "c", "d", "e"] := by decide +kernel
  have hnew : Text.lines "x\nb\nc\nd" = ["x", "b", "c", "d"] := by decide +kernel
  obtain ⟨text, hrender, -, hunks, hread, -, hreplace⟩ :=
    read_render "a\nb\nc\nd\ne\n" "x\nb\nc\nd" "C.cs" 1 (by decide) (by rw [hold, hnew]; decide)
  rw [hold, hnew] at hreplace
  have hfound : (render? "a\nb\nc\nd\ne\n" "x\nb\nc\nd" "C.cs" 1).bind read =
      some [⟨1, 2, 1, 2, ["-a", "+x", " b"]⟩, ⟨4, 2, 4, 1, [" d", "-e"]⟩] := by decide +kernel
  rw [hrender, Option.bind_some] at hfound
  exact ⟨text, hunks, hrender, hread, Option.some.inj (hread.symm.trans hfound), hreplace⟩

end Patch

end Disposal

import Mathlib.Data.List.TakeWhile
import Disposal.Pragma
import Disposal.Proofs.Lines

/-!
# Pragmas read line by line

Whether a lint is switched off at an offset is the state of a machine that reads the lines of the text in order, up to
the line of the offset: a directive that concerns the lint sets the state, and any other line leaves it as it is. What
comes behind that line does not matter, and neither do directives for other lints.

* `isDisabled_eq_foldl`: the last directive that concerns a lint, as a fold;
* `foldl_ofLines`: the directives of some lines, against the lines;
* `isDisabled_parse`: the machine, and what follows from it.
-/

namespace Disposal

/-! ### The line of an offset -/

namespace Text

/-- The lines of a list that start at an offset or before it, when the first of them starts at `start`. -/
def linesUpTo (offset : Nat) : Nat → List (List Char) → List (List Char)
  | _, [] => []
  | start, line :: lines =>
    if start ≤ offset then line :: linesUpTo offset (start + byteSize line) lines
    else linesUpTo offset (start + byteSize line) lines

private theorem linesUpTo_of_lt {offset start : Nat} (h : offset < start) (lines : List (List Char)) :
    linesUpTo offset start lines = [] := by
  induction lines generalizing start with
  | nil => rfl
  | cons line lines ih => rw [linesUpTo, if_neg (by omega), ih (by omega)]

private theorem linesUpTo_of_le {offset start : Nat} {lines : List (List Char)}
    (h : start + byteSize lines.flatten ≤ offset) : linesUpTo offset start lines = lines := by
  induction lines generalizing start with
  | nil => rfl
  | cons line lines ih =>
    rw [List.flatten_cons, byteSize_append] at h
    rw [linesUpTo, if_pos (by omega), ih (by omega)]

private theorem linesUpTo_append (offset start : Nat) (lines lines' : List (List Char)) :
    linesUpTo offset start (lines ++ lines') =
      linesUpTo offset start lines ++ linesUpTo offset (start + byteSize lines.flatten) lines' := by
  induction lines generalizing start with
  | nil => rfl
  | cons line lines ih =>
    rw [List.cons_append, linesUpTo, linesUpTo, ih, List.flatten_cons, byteSize_append, Nat.add_assoc]
    split <;> rfl

/-- The same lines farther behind. -/
private theorem linesUpTo_add (offset start size : Nat) (lines : List (List Char)) :
    linesUpTo (offset + size) (start + size) lines = linesUpTo offset start lines := by
  induction lines generalizing start with
  | nil => rfl
  | cons line lines ih =>
    rw [linesUpTo, linesUpTo, Nat.add_right_comm start size, ih]
    simp only [Nat.add_le_add_iff_right]

/-- Nothing but blanks stands in front of the end of the line. -/
def isBlankToLineEnd (cs : List Char) : Bool := (cs.takeWhile (· ≠ '\n')).all isBlank

private theorem exists_lineEnd {cs : List Char} (h : isBlankToLineEnd cs = true) :
    ∃ blanks, (∀ c ∈ blanks, isBlank c = true) ∧ '\n' ∉ blanks ∧
      (cs = blanks ∨ ∃ rest, cs = blanks ++ '\n' :: rest) := by
  refine ⟨cs.takeWhile (· ≠ '\n'), List.all_eq_true.1 h, fun hmem => by simpa using List.mem_takeWhile_imp hmem, ?_⟩
  have hcut := List.takeWhile_append_dropWhile (p := (· ≠ '\n')) (l := cs)
  cases hrest : cs.dropWhile (· ≠ '\n') with
  | nil =>
    rw [hrest, List.append_nil] at hcut
    exact .inl hcut.symm
  | cons c rest =>
    have hc : c = '\n' := by
      have := List.head?_dropWhile_not (fun c : Char => decide (c ≠ '\n')) cs
      rw [hrest] at this
      simpa using this
    rw [hrest, hc] at hcut
    exact .inr ⟨rest, hcut.symm⟩

/-- Blanks at the end make no difference to what is left when blanks are dropped. -/
private theorem trimEnd_trimStart_append {blanks : List Char} (h : ∀ c ∈ blanks, isBlank c = true) (cs : List Char) :
    trimEnd (trimStart (cs ++ blanks)) = trimEnd (trimStart cs) := by
  have hend : ∀ ds, trimEnd (ds ++ blanks) = trimEnd ds := by
    intro ds
    have hrev : ∀ c ∈ blanks.reverse, isBlank c = true := fun c hc => h c (List.mem_reverse.1 hc)
    rw [trimEnd, trimEnd, dropEndWhile, dropEndWhile, List.reverse_append, List.dropWhile_append,
      List.dropWhile_eq_nil_iff.2 hrev]
    rfl
  rw [trimStart, trimStart, List.dropWhile_append]
  split
  · next hall =>
    rw [List.isEmpty_iff.1 hall, List.dropWhile_eq_nil_iff.2 h]
  · exact hend _

end Text

namespace Pragma

open Text

/-! ### The machine -/

/-- The state of a lint after a directive: one that concerns the lint sets it. -/
def Directive.after (lint : Lint) (disabled : Bool) (d : Directive) : Bool :=
  if d.appliesTo lint then d.disables else disabled

/-- The state of a lint after a line: one that is no directive leaves it as it is. -/
def afterLine (lint : Lint) (disabled : Bool) (line : List Char) : Bool :=
  match ofLine? 0 line with
  | some d => d.after lint disabled
  | none => disabled

/-- Where a line starts makes no difference to what it says. -/
private theorem ofLine?_eq_map (offset : Nat) (line : List Char) :
    ofLine? offset line = (ofLine? 0 line).map fun d => { d with offset := offset } := by
  unfold ofLine?
  cases afterWord? "#" (trimEnd (trimStart line)) with
  | none => rfl
  | some rest =>
    dsimp only [Option.bind_eq_bind, Option.bind_some]
    cases afterWord? "pragma" rest with
    | none => rfl
    | some rest =>
      dsimp only [Option.bind_some]
      cases afterWord? "warning" rest with
      | none => rfl
      | some rest =>
        dsimp only [Option.bind_some]
        cases "disable".toList.isPrefixOf? rest with
        | some rest => rfl
        | none => cases "restore".toList.isPrefixOf? rest <;> rfl

/-- The last directive that concerns a lint decides: the same as if each of them sets the state in its turn. -/
theorem isDisabled_eq_foldl (directives : List Directive) (lint : Lint) (offset : Nat) :
    isDisabled directives lint offset =
      (directives.takeWhile (·.offset ≤ offset)).foldl (Directive.after lint) false := by
  unfold isDisabled
  generalize directives.takeWhile (·.offset ≤ offset) = ds
  induction ds using List.reverseRecOn with
  | nil => rfl
  | append_singleton ds d ih =>
    rw [List.foldl_append, List.foldl_cons, List.foldl_nil, ← ih, List.filter_append, Directive.after]
    by_cases hd : d.appliesTo lint = true
    · simp [hd]
    · simp [hd]

private theorem le_offset_of_mem_ofLines {start : Nat} {lines : List (List Char)} {d : Directive}
    (h : d ∈ ofLines start lines) : start ≤ d.offset := by
  induction lines generalizing start with
  | nil => cases h
  | cons line lines ih =>
    rcases List.mem_append.1 h with h | h
    · rw [ofLine?_eq_map, Option.mem_toList, Option.map_eq_some_iff] at h
      obtain ⟨d, -, rfl⟩ := h
      exact Nat.le_refl start
    · exact Nat.le_trans (Nat.le_add_right _ _) (ih h)

/-- The directives of some lines up to an offset do to the state what those lines do. -/
theorem foldl_ofLines (lint : Lint) (offset start : Nat) (lines : List (List Char)) (disabled : Bool) :
    ((ofLines start lines).takeWhile (·.offset ≤ offset)).foldl (Directive.after lint) disabled =
      (linesUpTo offset start lines).foldl (afterLine lint) disabled := by
  induction lines generalizing start disabled with
  | nil => rfl
  | cons line lines ih =>
    by_cases hstart : start ≤ offset
    · rw [ofLines, linesUpTo, if_pos hstart, List.foldl_cons, ← ih, afterLine, ofLine?_eq_map]
      cases ofLine? 0 line with
      | none => rfl
      | some d => simp [hstart, Directive.after, Directive.appliesTo]
    · have hnone : (ofLines start (line :: lines)).takeWhile (·.offset ≤ offset) = [] := by
        rw [List.takeWhile_eq_nil_iff]
        intro hpos hle
        have := le_offset_of_mem_ofLines (List.get_mem _ ⟨0, hpos⟩)
        simp only [decide_eq_true_eq] at hle
        omega
      rw [hnone, linesUpTo_of_lt (by omega)]
      rfl

/-- The state at an offset is the one that the lines up to it lead to. -/
private theorem isDisabled_eq_foldl_lines (source : String) (lint : Lint) (offset : Nat) :
    isDisabled (parse source) lint offset =
      (linesUpTo offset 0 (linesKept source.toList)).foldl (afterLine lint) false := by
  rw [isDisabled_eq_foldl, parse, foldl_ofLines]

/-! ### What does not matter -/

private theorem afterLine_append {blanks : List Char} (h : ∀ c ∈ blanks, isBlank c = true) (lint : Lint)
    (disabled : Bool) (line : List Char) : afterLine lint disabled (line ++ blanks) = afterLine lint disabled line := by
  rw [afterLine, afterLine, ofLine?, ofLine?, trimEnd_trimStart_append h]

/-- From the last line that an offset reaches, only what is not blank is seen. -/
private theorem foldl_lastLine (lint : Lint) (disabled : Bool) {offset start : Nat} {body rest : List Char}
    (hbody : '\n' ∉ body) (hrest : isBlankToLineEnd rest = true) (hoffset : offset ≤ start + byteSize body) :
    (linesUpTo offset start (linesKept (body ++ rest))).foldl (afterLine lint) disabled =
      if start ≤ offset then afterLine lint disabled body else disabled := by
  obtain ⟨blanks, hblank, hmem, rfl | ⟨rest, rfl⟩⟩ := exists_lineEnd hrest
  · rw [← afterLine_append hblank lint disabled body]
    by_cases hne : body ++ rest = []
    · rw [hne]
      exact (ite_self disabled).symm
    · rw [linesKept_last (by simp [hbody, hmem]) hne, linesUpTo, linesUpTo]
      split <;> rfl
  · have hline : '\n' ∉ body ++ blanks := by simp [hbody, hmem]
    have hfeed : ∀ c ∈ blanks ++ ['\n'], isBlank c = true := by
      intro c hc
      rcases List.mem_append.1 hc with hc | hc
      · exact hblank c hc
      · rw [List.mem_singleton.1 hc]
        rfl
    have hnext : offset < start + byteSize (body ++ blanks ++ ['\n']) := by
      have : byteSize ['\n'] = 1 := rfl
      rw [byteSize_append, byteSize_append]
      omega
    rw [← List.append_assoc, linesKept_line hline, linesUpTo, linesUpTo_of_lt hnext, List.append_assoc,
      ← afterLine_append hfeed lint disabled body]
    split <;> rfl

/-- Texts that agree up to the end of the line of an offset, blanks at its end apart, give the same answer there. -/
private theorem isDisabled_congr (lint : Lint) {front rest rest' : List Char} {offset : Nat}
    (hrest : isBlankToLineEnd rest = true) (hrest' : isBlankToLineEnd rest' = true)
    (hoffset : offset ≤ byteSize front) :
    isDisabled (parse (String.ofList (front ++ rest))) lint offset =
      isDisabled (parse (String.ofList (front ++ rest'))) lint offset := by
  obtain ⟨whole, body, rfl, hwhole, hbody⟩ := exists_lastLine front
  rw [byteSize_append] at hoffset
  have hfold : ∀ rest, isBlankToLineEnd rest = true →
      isDisabled (parse (String.ofList (whole ++ body ++ rest))) lint offset =
        let state := (linesUpTo offset 0 (linesKept whole)).foldl (afterLine lint) false
        if byteSize whole ≤ offset then afterLine lint state body else state := by
    intro rest hrest
    rw [isDisabled_eq_foldl_lines, String.toList_ofList, List.append_assoc, linesKept_append hwhole, linesUpTo_append,
      flatten_linesKept, Nat.zero_add, List.foldl_append, foldl_lastLine lint _ hbody hrest hoffset]
  rw [hfold rest hrest, hfold rest' hrest']

/-- A line that leaves the state of a lint as it is can be taken out: the lines in front of it and those behind it give
the same answers, and in the line itself the answer is that of the lines in front of it. -/
private theorem isDisabled_without {lint : Lint} {source : String} {before after : List (List Char)} {line : List Char}
    (hlines : linesKept source.toList = before ++ line :: after)
    (hline : ∀ disabled, afterLine lint disabled line = disabled) (offset : Nat) :
    (offset < byteSize before.flatten → isDisabled (parse source) lint offset =
      isDisabled (parse (String.ofList (before ++ after).flatten)) lint offset) ∧
    (byteSize before.flatten ≤ offset → isDisabled (parse source) lint (offset + byteSize line) =
      isDisabled (parse (String.ofList (before ++ after).flatten)) lint offset) ∧
    (byteSize before.flatten ≤ offset → offset < byteSize before.flatten + byteSize line →
      isDisabled (parse source) lint offset = isDisabled (parse (String.ofList before.flatten)) lint offset) := by
  obtain ⟨hbefore, -, hwhole⟩ := linesKept_of_append hlines
  have hafter : linesKept after.flatten = after := by
    rw [List.append_cons] at hlines
    exact (linesKept_of_append hlines).2.1
  have hwithout : linesKept (before ++ after).flatten = before ++ after := by
    rw [List.flatten_append, linesKept_append (hwhole (List.cons_ne_nil _ _)), hbefore, hafter]
  simp only [isDisabled_eq_foldl_lines, String.toList_ofList, hlines, hwithout, hbefore, linesUpTo_append, linesUpTo,
    Nat.zero_add, List.foldl_append]
  refine ⟨fun hlt => ?_, fun hle => ?_, fun hle hlt => ?_⟩
  · have hbehind : offset < byteSize before.flatten + byteSize line := by omega
    rw [if_neg (Nat.not_le.2 hlt), linesUpTo_of_lt hlt after, linesUpTo_of_lt hbehind after]
  · have hall : 0 + byteSize before.flatten ≤ offset := by omega
    have hall' : 0 + byteSize before.flatten ≤ offset + byteSize line := by omega
    rw [linesUpTo_of_le hall, linesUpTo_of_le hall', if_pos (by omega), List.foldl_cons, hline, linesUpTo_add]
  · rw [if_pos hle, linesUpTo_of_lt hlt, List.foldl_cons, hline, List.foldl_nil]

/-- Whether a lint is switched off at an offset is told by the lines that start there or before, each of which sets the
state of the lint or leaves it. So texts that agree up to the end of the line of the offset give the same answer, and a
directive that names other lints only can be taken out. -/
theorem isDisabled_parse (lint : Lint) :
    (∀ (source : String) (offset : Nat), isDisabled (parse source) lint offset =
      (linesUpTo offset 0 (linesKept source.toList)).foldl (afterLine lint) false) ∧
    (∀ (front rest rest' : List Char) (offset : Nat),
      isBlankToLineEnd rest = true → isBlankToLineEnd rest' = true → offset ≤ byteSize front →
      isDisabled (parse (String.ofList (front ++ rest))) lint offset =
        isDisabled (parse (String.ofList (front ++ rest'))) lint offset) ∧
    ∀ (source : String) (before after : List (List Char)) (line : List Char) (d : Directive) (offset : Nat),
      linesKept source.toList = before ++ line :: after →
      ofLine? (byteSize before.flatten) line = some d → d.appliesTo lint = false →
      (offset < byteSize before.flatten → isDisabled (parse source) lint offset =
        isDisabled (parse (String.ofList (before ++ after).flatten)) lint offset) ∧
      (byteSize before.flatten ≤ offset → isDisabled (parse source) lint (offset + byteSize line) =
        isDisabled (parse (String.ofList (before ++ after).flatten)) lint offset) ∧
      (byteSize before.flatten ≤ offset → offset < byteSize before.flatten + byteSize line →
        isDisabled (parse source) lint offset = isDisabled (parse (String.ofList before.flatten)) lint offset) := by
  refine ⟨fun source offset => isDisabled_eq_foldl_lines source lint offset, ?_, ?_⟩
  · intro front rest rest' offset hrest hrest' hoffset
    exact isDisabled_congr lint hrest hrest' hoffset
  · intro source before after line d offset hlines hd happlies
    refine isDisabled_without hlines (fun disabled => ?_) offset
    rw [ofLine?_eq_map] at hd
    obtain ⟨d', hd', rfl⟩ := Option.map_eq_some_iff.1 hd
    have happlies' : d'.appliesTo lint = false := happlies
    simp [afterLine, hd', Directive.after, happlies']

/-- A text that switches all lints off and then one of them on. -/
def switching : String := "#pragma warning disable\n#pragma warning restore IDISP007\nx"

/-- The theorem where the line of the offset ends in two ways, and where a directive for another lint is taken out. -/
theorem isDisabled_parse_switching :
    isDisabled (parse (String.ofList ("é\n#pragma warning disable".toList ++ "\r\n# pragma warning restore".toList)))
        .disposeCreated 3 =
      isDisabled (parse (String.ofList ("é\n#pragma warning disable".toList ++ []))) .disposeCreated 3 ∧
    isDisabled (parse switching) .disposeCreated (24 + 33) =
      isDisabled (parse (String.ofList (["#pragma warning disable\n".toList] ++ ["x".toList]).flatten))
        .disposeCreated 24 ∧
    isDisabled (parse switching) .disposeCreated 57 = true ∧
    isDisabled (parse switching) .dontDisposeInjected 57 = false := by
  obtain ⟨-, hcongr, hwithout⟩ := isDisabled_parse .disposeCreated
  refine ⟨?_, ?_, by decide +kernel, by decide +kernel⟩
  · exact hcongr _ _ _ 3 (by decide) (by decide) (by decide)
  · have hlines : linesKept switching.toList = ["#pragma warning disable\n".toList] ++
        "#pragma warning restore IDISP007\n".toList :: ["x".toList] := by decide +kernel
    exact (hwithout _ _ _ _ ⟨24, false, ["IDISP007"]⟩ 24 hlines (by decide +kernel) (by decide)).2.1 (by decide)

end Pragma

end Disposal

import Mathlib.Data.List.Induction
import Disposal.Proofs.Bytes

/-!
# Lines of a text

A text is a sequence of lines, each with the line feed that ends it; the last line may lack it. `Text.linesKept` gives
them, one line at a time (`linesKept_line`, `linesKept_last`), so that a text can be followed line by line
(`line_induction`).

* `linesKept_append`: behind a line feed the lines begin anew;
* `linesKept_of_append`: some lines taken from those of a text are the lines of what they make up;
* `linesKept_join`, `not_mem_of_mem_lines`: lines that are printed, and lines without their ends.
-/

namespace Disposal.Text

/-! ### Line by line -/

@[simp] theorem linesKept_nil : linesKept [] = [] := rfl

theorem linesKept_line {body : List Char} (h : '\n' ∉ body) (rest : List Char) :
    linesKept (body ++ '\n' :: rest) = (body ++ ['\n']) :: linesKept rest := by
  induction body with
  | nil =>
    show consLine '\n' (linesKept rest) = ['\n'] :: linesKept rest
    cases linesKept rest <;> simp [consLine]
  | cons c body ih =>
    have hc : '\n' ≠ c := List.ne_of_not_mem_cons h
    show consLine c (linesKept (body ++ '\n' :: rest)) = _
    rw [ih (List.not_mem_of_not_mem_cons h), consLine, if_neg hc.symm]
    rfl

theorem linesKept_last {body : List Char} (h : '\n' ∉ body) (hne : body ≠ []) : linesKept body = [body] := by
  induction body with
  | nil => exact absurd rfl hne
  | cons c body ih =>
    have hc : '\n' ≠ c := List.ne_of_not_mem_cons h
    show consLine c (linesKept body) = _
    by_cases hb : body = []
    · rw [hb]
      rfl
    · rw [ih (List.not_mem_of_not_mem_cons h) hb, consLine, if_neg hc.symm]

/-- To show something of every text, show it of the empty text, of one line, and of a line in front of a text. -/
theorem line_induction {motive : List Char → Prop} (nil : motive [])
    (last : ∀ body, '\n' ∉ body → body ≠ [] → motive body)
    (line : ∀ body rest, '\n' ∉ body → motive rest → motive (body ++ '\n' :: rest)) (cs : List Char) : motive cs := by
  induction hn : cs.length using Nat.strongRecOn generalizing cs with
  | _ n ih =>
    by_cases hmem : '\n' ∈ cs
    · obtain ⟨body, rest, rfl, hbody⟩ := List.eq_append_cons_of_mem hmem
      have hlt : rest.length < n := by simp at hn; omega
      exact line body rest hbody (ih rest.length hlt rest rfl)
    · by_cases hne : cs = []
      · rw [hne]
        exact nil
      · exact last cs hmem hne

/-- A text that is empty or ends with a line feed. -/
def IsWhole (cs : List Char) : Prop := cs = [] ∨ cs.getLast? = some '\n'

/-- Behind a line feed the lines begin anew. -/
theorem linesKept_append {front : List Char} (h : IsWhole front) (rest : List Char) :
    linesKept (front ++ rest) = linesKept front ++ linesKept rest := by
  induction front using line_induction with
  | nil => rfl
  | last body hbody hne =>
    rcases h with h | h
    · exact absurd h hne
    · exact absurd (List.mem_of_getLast? h) hbody
  | line body front hbody ih =>
    have hfront : IsWhole front := by
      by_cases hne : front = []
      · exact .inl hne
      · rcases h with h | h
        · simp at h
        · have hlast := List.getLast?_eq_some_getLast hne
          rw [List.getLast?_append, List.getLast?_cons_of_ne_nil hne, hlast, Option.some_or] at h
          exact .inr (hlast.trans h)
    rw [List.append_assoc, List.cons_append, linesKept_line hbody, linesKept_line hbody, ih hfront]
    rfl

/-- What stands in front of an offset is some whole lines and the start of one more. -/
theorem exists_lastLine (front : List Char) : ∃ whole body, front = whole ++ body ∧ IsWhole whole ∧ '\n' ∉ body := by
  induction front using List.reverseRecOn with
  | nil => exact ⟨[], [], rfl, .inl rfl, List.not_mem_nil⟩
  | append_singleton front c ih =>
    obtain ⟨whole, body, rfl, hwhole, hbody⟩ := ih
    by_cases hc : c = '\n'
    · exact ⟨whole ++ body ++ [c], [], by simp, .inr (by simp [hc]), List.not_mem_nil⟩
    · exact ⟨whole, body ++ [c], by simp, hwhole, by simp [hbody, Ne.symm hc]⟩

private theorem linesKept_flatten {cs : List Char} {lines : List (List Char)} (h : linesKept cs = lines) :
    linesKept lines.flatten = lines := by
  rw [← h, flatten_linesKept]

/-- Some lines taken from those of a text are the lines of what they make up, and those in front of others are whole. -/
theorem linesKept_of_append {cs : List Char} {xs ys : List (List Char)} (h : linesKept cs = xs ++ ys) :
    linesKept xs.flatten = xs ∧ linesKept ys.flatten = ys ∧ (ys ≠ [] → IsWhole xs.flatten) := by
  induction cs using line_induction generalizing xs with
  | nil =>
    obtain ⟨rfl, rfl⟩ := List.append_eq_nil_iff.1 h.symm
    exact ⟨rfl, rfl, fun hne => absurd rfl hne⟩
  | last body hbody hne =>
    have hbody' := h
    rw [linesKept_last hbody hne] at h
    rcases List.append_eq_singleton_iff.1 h.symm with ⟨rfl, rfl⟩ | ⟨rfl, rfl⟩
    · exact ⟨rfl, linesKept_flatten hbody', fun _ => .inl rfl⟩
    · exact ⟨linesKept_flatten hbody', rfl, fun hne => absurd rfl hne⟩
  | line body rest hbody ih =>
    cases xs with
    | nil => exact ⟨rfl, linesKept_flatten h, fun _ => .inl rfl⟩
    | cons x xs =>
      rw [linesKept_line hbody, List.cons_append, List.cons.injEq] at h
      obtain ⟨rfl, h⟩ := h
      obtain ⟨hfront, hback, hwhole⟩ := ih h
      refine ⟨?_, hback, fun hne => .inr ?_⟩
      · rw [List.flatten_cons, List.append_assoc, List.singleton_append, linesKept_line hbody, hfront]
      · rw [List.flatten_cons]
        rcases hwhole hne with hnil | hlast
        · rw [hnil]
          simp
        · rw [List.getLast?_append, hlast]
          rfl

/-! ### Lines without their ends -/

theorem linesKept_join {lines : List String} (h : ∀ l ∈ lines, '\n' ∉ l.toList) :
    linesKept (String.join (lines.map line)).toList = lines.map fun l => l.toList ++ ['\n'] := by
  rw [String.toList_join, List.flatMap_map]
  induction lines with
  | nil => rfl
  | cons l lines ih =>
    obtain ⟨hl, hlines⟩ := List.forall_mem_cons.1 h
    rw [List.flatMap_cons, List.map_cons, ← ih hlines, line, String.toList_append, List.append_assoc]
    exact linesKept_line hl _

private theorem not_mem_stripLineEnd {body : List Char} (h : '\n' ∉ body) :
    '\n' ∉ stripLineEnd body ∧ '\n' ∉ stripLineEnd (body ++ ['\n']) := by
  constructor
  · unfold stripLineEnd
    split
    · next heq => simp [List.reverse_eq_cons_iff.1 heq] at h
    · next heq => simp [List.reverse_eq_cons_iff.1 heq] at h
    · exact h
  · have hrest : ∀ c rest, body.reverse = c :: rest → '\n' ∉ rest.reverse := fun c rest heq hmem =>
      h (by rw [List.reverse_eq_cons_iff.1 heq]; exact List.mem_append_left _ hmem)
    unfold stripLineEnd
    rw [List.reverse_append, List.reverse_singleton, List.singleton_append]
    split
    · next heq => exact hrest _ _ (List.cons.inj heq).2
    · next heq => rwa [← (List.cons.inj heq).2, List.reverse_reverse]
    · next hno => exact absurd rfl (hno _)

theorem not_mem_of_mem_lines {text l : String} (h : l ∈ lines text) : '\n' ∉ l.toList := by
  obtain ⟨kept, hkept, rfl⟩ := List.mem_map.1 h
  rw [String.toList_ofList]
  clear h
  generalize text.toList = cs at hkept
  induction cs using line_induction with
  | nil => exact absurd hkept List.not_mem_nil
  | last body hbody hne =>
    rw [linesKept_last hbody hne, List.mem_singleton] at hkept
    rw [hkept]
    exact (not_mem_stripLineEnd hbody).1
  | line body rest hbody ih =>
    rw [linesKept_line hbody] at hkept
    rcases List.mem_cons.1 hkept with rfl | hkept
    · exact (not_mem_stripLineEnd hbody).2
    · exact ih hkept

end Disposal.Text

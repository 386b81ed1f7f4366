import Mathlib.Logic.Relation
import Mathlib.Order.WellFounded

/-!
# Questions that lead to others

A question is answered with yes if that is evident or if one of the questions that it leads to is, which are asked one
after the other until one is. Whether there is an answer is a matter of the questions that are really asked.

* `Questions.answerWithin_eq_none_iff`: an answer is missing where it takes more nested questions than allowed;
* `Questions.exists_answer_iff_acc`, `Questions.exists_answer_iff`: there is an answer exactly if no question leads from
  one to another without end;
* `Questions.exists_answer_of_rank`: how many nested questions are enough.
-/

namespace Disposal.Questions

/-! ### Asking one after the other -/

section

variable {X : Type} {f g : X → Option Bool}

private theorem exists_of_anyM_eq_none {l : List X} (h : l.anyM f = none) :
    ∃ front y rest, l = front ++ y :: rest ∧ (∀ z ∈ front, f z = some false) ∧ f y = none := by
  induction l with
  | nil => cases h
  | cons x l ih =>
    rw [List.anyM_cons] at h
    cases hx : f x with
    | none => exact ⟨[], x, l, rfl, by simp, hx⟩
    | some b =>
      rw [hx] at h
      cases b with
      | true => cases h
      | false =>
        obtain ⟨front, y, rest, rfl, hfront, hy⟩ := ih h
        exact ⟨x :: front, y, rest, rfl, List.forall_mem_cons.2 ⟨hx, hfront⟩, hy⟩

theorem exists_of_anyM_eq_true {l : List X} (h : l.anyM f = some true) : ∃ x ∈ l, f x = some true := by
  induction l with
  | nil => cases h
  | cons x l ih =>
    rw [List.anyM_cons] at h
    cases hx : f x with
    | none =>
      rw [hx] at h
      cases h
    | some b =>
      rw [hx] at h
      cases b with
      | true => exact ⟨x, List.mem_cons_self, hx⟩
      | false =>
        obtain ⟨y, hy, htrue⟩ := ih h
        exact ⟨y, List.mem_cons_of_mem x hy, htrue⟩

private theorem anyM_eq_none {front rest : List X} {y : X} (hfront : ∀ z ∈ front, f z ≠ some true) (hy : f y = none) :
    (front ++ y :: rest).anyM f = none := by
  induction front with
  | nil =>
    rw [List.nil_append, List.anyM_cons, hy]
    rfl
  | cons x front ih =>
    rw [List.cons_append, List.anyM_cons]
    cases hx : f x with
    | none => rfl
    | some b =>
      cases b with
      | true => exact absurd hx (hfront x List.mem_cons_self)
      | false => exact ih fun z hz => hfront z (List.mem_cons_of_mem x hz)

theorem anyM_of_anyM {l : List X} (h : ∀ z ∈ l, ∀ b, f z = some b → g z = some b) {b : Bool} (hf : l.anyM f = some b) :
    l.anyM g = some b := by
  induction l with
  | nil => exact hf
  | cons x l ih =>
    rw [List.anyM_cons] at hf ⊢
    cases hx : f x with
    | none =>
      rw [hx] at hf
      cases hf
    | some a =>
      rw [hx] at hf
      rw [h x List.mem_cons_self a hx]
      cases a with
      | true => exact hf
      | false => exact ih (fun z hz => h z (List.mem_cons_of_mem x hz)) hf

end

/-! ### Answers -/

section

variable {X : Type} (evident : X → Bool) (asked : X → List X)

/-- The answer to a question by so many nested ones at most. -/
def answerWithin : Nat → X → Option Bool
  | 0, _ => none
  | depth + 1, x => if evident x then some true else (asked x).anyM (answerWithin depth)

/-- A question leads to another one, and those that are asked before it have the answer no. -/
inductive Asks (x y : X) : Prop
  | intro {front rest : List X} (hx : evident x = false) (h : asked x = front ++ y :: rest)
    (hfront : ∀ z ∈ front, ∃ depth, answerWithin evident asked depth z = some false) : Asks x y

variable {evident asked}

theorem Asks.mem {x y : X} (h : Asks evident asked x y) : y ∈ asked x := by
  obtain ⟨-, h, -⟩ := h
  rw [h]
  exact List.mem_append_right _ List.mem_cons_self

private theorem answerWithin_succ {depth : Nat} {x : X} {b : Bool} (h : answerWithin evident asked depth x = some b) :
    answerWithin evident asked (depth + 1) x = some b := by
  induction depth generalizing x b with
  | zero => cases h
  | succ depth ih =>
    rw [answerWithin] at h ⊢
    split at h
    · next hx => rw [if_pos hx, h]
    · next hx =>
      rw [if_neg hx]
      exact anyM_of_anyM (fun z _ b => ih) h

theorem answerWithin_of_le {depth depth' : Nat} (hle : depth ≤ depth') {x : X} {b : Bool}
    (h : answerWithin evident asked depth x = some b) : answerWithin evident asked depth' x = some b := by
  induction hle with
  | refl => exact h
  | step _ ih => exact answerWithin_succ ih

/-- There are no two answers to a question. -/
theorem answer_unique {depth depth' : Nat} {x : X} {b b' : Bool} (h : answerWithin evident asked depth x = some b)
    (h' : answerWithin evident asked depth' x = some b') : b = b' := by
  have hmax := answerWithin_of_le (Nat.le_max_left depth depth') h
  rw [answerWithin_of_le (Nat.le_max_right depth depth') h'] at hmax
  exact (Option.some.inj hmax).symm

/-- An answer is missing exactly if one that is asked for is missing. -/
theorem answerWithin_eq_none_iff {depth : Nat} {x : X} :
    answerWithin evident asked (depth + 1) x = none ↔
      ∃ y, Asks evident asked x y ∧ answerWithin evident asked depth y = none := by
  rw [answerWithin]
  constructor
  · intro h
    split at h
    · cases h
    · next hx =>
      obtain ⟨front, y, rest, hasked, hfront, hy⟩ := exists_of_anyM_eq_none h
      exact ⟨y, ⟨by simpa using hx, hasked, fun z hz => ⟨depth, hfront z hz⟩⟩, hy⟩
  · rintro ⟨y, ⟨hx, hasked, hfront⟩, hy⟩
    rw [if_neg (by simp [hx]), hasked]
    refine anyM_eq_none (fun z hz htrue => ?_) hy
    obtain ⟨depth', hfalse⟩ := hfront z hz
    exact absurd (answer_unique hfalse htrue) Bool.false_ne_true

private theorem answerWithin_eq_none_of_le {depth depth' : Nat} (hle : depth ≤ depth') {x : X}
    (h : answerWithin evident asked depth' x = none) : answerWithin evident asked depth x = none := by
  cases hx : answerWithin evident asked depth x with
  | none => rfl
  | some b =>
    rw [answerWithin_of_le hle hx] at h
    cases h

/-- There is an answer exactly if there is one to every question that is asked. -/
private theorem exists_answer_iff_forall {x : X} :
    (∃ depth b, answerWithin evident asked depth x = some b) ↔
      ∀ y, Asks evident asked x y → ∃ depth b, answerWithin evident asked depth y = some b := by
  simp only [← Option.isSome_iff_exists, ← Option.ne_none_iff_isSome]
  constructor
  · rintro ⟨depth, h⟩ y hy
    refine ⟨depth, fun hnone => h ?_⟩
    exact answerWithin_eq_none_of_le (Nat.le_succ depth) (answerWithin_eq_none_iff.2 ⟨y, hy, hnone⟩)
  · intro h
    -- as many nested questions as any of the questions takes
    have hall : ∀ l ⊆ asked x, ∃ depth, ∀ y ∈ l, Asks evident asked x y →
        answerWithin evident asked depth y ≠ none := by
      intro l hl
      induction l with
      | nil => exact ⟨0, by simp⟩
      | cons y l ih =>
        obtain ⟨depth, hdepth⟩ := ih fun z hz => hl (List.mem_cons_of_mem y hz)
        by_cases hy : Asks evident asked x y
        · obtain ⟨depth', hdepth'⟩ := h y hy
          refine ⟨max depth depth', List.forall_mem_cons.2 ⟨fun _ hnone => ?_, fun z hz hasks hnone => ?_⟩⟩
          · exact hdepth' (answerWithin_eq_none_of_le (Nat.le_max_right _ _) hnone)
          · exact hdepth z hz hasks (answerWithin_eq_none_of_le (Nat.le_max_left _ _) hnone)
        · exact ⟨depth, List.forall_mem_cons.2 ⟨fun hasks => absurd hasks hy, hdepth⟩⟩
    obtain ⟨depth, hdepth⟩ := hall (asked x) (List.Subset.refl _)
    refine ⟨depth + 1, fun hnone => ?_⟩
    obtain ⟨y, hy, hynone⟩ := answerWithin_eq_none_iff.1 hnone
    exact hdepth y hy.mem hy hynone

theorem exists_answer_iff_acc {x : X} :
    (∃ depth b, answerWithin evident asked depth x = some b) ↔ Acc (fun z y => Asks evident asked y z) x := by
  constructor
  · rintro ⟨depth, b, h⟩
    induction depth generalizing x b with
    | zero => cases h
    | succ depth ih =>
      refine ⟨_, fun y hy => ?_⟩
      cases hanswer : answerWithin evident asked depth y with
      | none =>
        rw [answerWithin_eq_none_iff.2 ⟨y, hy, hanswer⟩] at h
        cases h
      | some b => exact ih b hanswer
  · intro h
    induction h with
    | intro x _ ih => exact exists_answer_iff_forall.2 ih

/-- There is an answer exactly if no question leads from one to another without end. -/
theorem exists_answer_iff {x : X} :
    (∃ depth b, answerWithin evident asked depth x = some b) ↔
      ¬∃ chain : Nat → X, chain 0 = x ∧ ∀ n, Asks evident asked (chain n) (chain (n + 1)) := by
  rw [exists_answer_iff_acc]
  exact not_not.symm.trans (not_congr not_acc_iff_exists_descending_chain)

/-- A question that leads to itself leads on without end. -/
theorem not_transGen_of_acc {x y : X} (hacc : Acc (fun z y => Asks evident asked y z) x)
    (hreach : Relation.ReflTransGen (Asks evident asked) x y) : ¬Relation.TransGen (Asks evident asked) y y := by
  have hy : Acc (fun z y => Asks evident asked y z) y := by
    induction hreach with
    | refl => exact hacc
    | tail _ h ih => exact ih.inv h
  clear hreach
  induction hy with
  | intro y _ ih =>
    intro hcircle
    obtain ⟨z, hyz, hzy⟩ := Relation.TransGen.head'_iff.1 hcircle
    exact ih z hyz (.tail' hzy hyz)

/-- More nested questions than the rank of a question are enough for its answer. -/
theorem exists_answer_of_rank {rank : X → Nat} {x : X} {depth : Nat}
    (hrank : ∀ y z, Relation.ReflTransGen (Asks evident asked) x y → Asks evident asked y z → rank z < rank y)
    (hdepth : rank x < depth) : ∃ b, answerWithin evident asked depth x = some b := by
  suffices h : ∀ depth y, Relation.ReflTransGen (Asks evident asked) x y → rank y < depth →
      answerWithin evident asked depth y ≠ none from
    Option.ne_none_iff_exists'.1 (h depth x .refl hdepth)
  intro depth
  induction depth with
  | zero => exact fun y _ hy => absurd hy (Nat.not_lt_zero _)
  | succ depth ih =>
    intro y hy hlt hnone
    obtain ⟨z, hz, hznone⟩ := answerWithin_eq_none_iff.1 hnone
    exact ih z (hy.tail hz) (Nat.lt_of_lt_of_le (hrank y z hy hz) (Nat.le_of_lt_succ hlt)) hznone

end

end Disposal.Questions

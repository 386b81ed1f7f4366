import Disposal.Text

/-!
# Cutting texts at boundaries

What `Text.takeBytes`, `Text.dropBytes` and `Text.isBoundary` do to a text that is given in pieces, and the stretch
`Text.between` of a text.

* `isBoundary_iff`: a boundary is the size of what stands in front of it;
* `append_inj_of_byteSize`: pieces of known size are determined by the whole;
* `between_append_dropBytes`, `takeBytes_append_between`: cutting a text twice.
-/

namespace Disposal.Text

/-- The stretch `[start, stop)` of a text. -/
def between (cs : List Char) (start stop : Nat) : List Char :=
  takeBytes (stop - start) (dropBytes start cs)

/-! ### Sizes -/

theorem byteSize_append (cs ds : List Char) : byteSize (cs ++ ds) = byteSize cs + byteSize ds := by
  induction cs with
  | nil => rw [List.nil_append, byteSize, Nat.zero_add]
  | cons c cs ih => rw [List.cons_append, byteSize, byteSize, ih, Nat.add_assoc]

theorem eq_nil_of_byteSize {cs : List Char} (h : byteSize cs = 0) : cs = [] := by
  cases cs with
  | nil => rfl
  | cons c cs =>
    have := c.utf8Size_pos
    rw [byteSize] at h
    omega

/-- Pieces of known size are determined by the whole. -/
theorem append_inj_of_byteSize {as bs cs ds : List Char} (h : as ++ bs = cs ++ ds)
    (hs : byteSize as = byteSize cs) : as = cs ∧ bs = ds := by
  rcases List.append_eq_append_iff.1 h with ⟨es, rfl, rfl⟩ | ⟨es, rfl, rfl⟩
  · rw [byteSize_append] at hs
    obtain rfl : es = [] := eq_nil_of_byteSize (by omega)
    simp
  · rw [byteSize_append] at hs
    obtain rfl : es = [] := eq_nil_of_byteSize (by omega)
    simp

theorem append_inj_of_byteSize_right {as bs cs ds : List Char} (h : as ++ bs = cs ++ ds)
    (hs : byteSize bs = byteSize ds) : as = cs ∧ bs = ds := by
  apply append_inj_of_byteSize h
  have := congrArg byteSize h
  rw [byteSize_append, byteSize_append] at this
  omega

/-! ### Cutting behind a piece -/

theorem takeBytes_zero (cs : List Char) : takeBytes 0 cs = [] := by
  cases cs <;> rfl

theorem dropBytes_zero (cs : List Char) : dropBytes 0 cs = cs := by
  cases cs <;> rfl

theorem isBoundary_zero (cs : List Char) : isBoundary cs 0 = true := by
  cases cs <;> rfl

private theorem exists_size_succ (c : Char) (m : Nat) : ∃ k, c.utf8Size + m = k + 1 ∧ k + 1 - c.utf8Size = m := by
  have := c.utf8Size_pos
  exact ⟨c.utf8Size + m - 1, by omega, by omega⟩

private theorem takeBytes_append (cs ds : List Char) (n : Nat) :
    takeBytes (byteSize cs + n) (cs ++ ds) = cs ++ takeBytes n ds := by
  induction cs with
  | nil => rw [byteSize, Nat.zero_add, List.nil_append, List.nil_append]
  | cons c cs ih =>
    obtain ⟨k, hk, hm⟩ := exists_size_succ c (byteSize cs + n)
    rw [byteSize, Nat.add_assoc, hk, List.cons_append, takeBytes, hm, ih]
    rfl

theorem dropBytes_append (cs ds : List Char) (n : Nat) :
    dropBytes (byteSize cs + n) (cs ++ ds) = dropBytes n ds := by
  induction cs with
  | nil => rw [byteSize, Nat.zero_add, List.nil_append]
  | cons c cs ih =>
    obtain ⟨k, hk, hm⟩ := exists_size_succ c (byteSize cs + n)
    rw [byteSize, Nat.add_assoc, hk, List.cons_append, dropBytes, hm, ih]

theorem isBoundary_append (cs ds : List Char) (n : Nat) :
    isBoundary (cs ++ ds) (byteSize cs + n) = isBoundary ds n := by
  induction cs with
  | nil => rw [byteSize, Nat.zero_add, List.nil_append]
  | cons c cs ih =>
    obtain ⟨k, hk, hm⟩ := exists_size_succ c (byteSize cs + n)
    rw [byteSize, Nat.add_assoc, hk, List.cons_append, isBoundary, hm, ih, ← hk]
    simp

theorem takeBytes_byteSize (cs ds : List Char) : takeBytes (byteSize cs) (cs ++ ds) = cs := by
  have := takeBytes_append cs ds 0
  rwa [Nat.add_zero, takeBytes_zero, List.append_nil] at this

theorem dropBytes_byteSize (cs ds : List Char) : dropBytes (byteSize cs) (cs ++ ds) = ds := by
  have := dropBytes_append cs ds 0
  rwa [Nat.add_zero, dropBytes_zero] at this

/-! ### Boundaries -/

/-- A boundary is the size of what stands in front of it. -/
theorem isBoundary_iff {cs : List Char} {n : Nat} :
    isBoundary cs n = true ↔ ∃ ls rs, cs = ls ++ rs ∧ byteSize ls = n := by
  constructor
  · intro h
    induction cs generalizing n with
    | nil =>
      cases n with
      | zero => exact ⟨[], [], rfl, rfl⟩
      | succ n => cases h
    | cons c cs ih =>
      cases n with
      | zero => exact ⟨[], c :: cs, rfl, rfl⟩
      | succ n =>
        rw [isBoundary, Bool.and_eq_true, decide_eq_true_eq] at h
        obtain ⟨ls, rs, rfl, hl⟩ := ih h.2
        refine ⟨c :: ls, rs, rfl, ?_⟩
        rw [byteSize, hl]
        omega
  · rintro ⟨ls, rs, rfl, rfl⟩
    have := isBoundary_append ls rs 0
    rwa [Nat.add_zero, isBoundary_zero] at this

theorem le_byteSize_of_isBoundary {cs : List Char} {n : Nat} (h : isBoundary cs n = true) : n ≤ byteSize cs := by
  obtain ⟨ls, rs, rfl, rfl⟩ := isBoundary_iff.1 h
  rw [byteSize_append]
  omega

/-- Whether an offset is a boundary is decided by the piece that it lies in. -/
theorem isBoundary_append_left {cs ds : List Char} {n : Nat} (h : n ≤ byteSize cs) :
    isBoundary (cs ++ ds) n = isBoundary cs n := by
  rw [Bool.eq_iff_iff, isBoundary_iff, isBoundary_iff]
  constructor
  · rintro ⟨ls, rs, hcut, hl⟩
    rcases List.append_eq_append_iff.1 hcut with ⟨es, rfl, -⟩ | ⟨es, rfl, -⟩
    · rw [byteSize_append] at hl
      obtain rfl : es = [] := eq_nil_of_byteSize (by omega)
      exact ⟨cs, [], by simp, by rw [← hl]; rfl⟩
    · exact ⟨ls, es, rfl, hl⟩
  · rintro ⟨ls, rs, rfl, hl⟩
    exact ⟨ls, rs ++ ds, List.append_assoc .., hl⟩

/-- A text cut at two boundaries. -/
private theorem exists_pieces {cs : List Char} {p q : Nat} (hp : isBoundary cs p = true) (hq : isBoundary cs q = true)
    (hpq : p ≤ q) : ∃ ls ms rs, cs = ls ++ (ms ++ rs) ∧ byteSize ls = p ∧ byteSize ms = q - p := by
  obtain ⟨ls, rest, rfl, rfl⟩ := isBoundary_iff.1 hp
  rw [show q = byteSize ls + (q - byteSize ls) by omega, isBoundary_append] at hq
  obtain ⟨ms, rs, rfl, hm⟩ := isBoundary_iff.1 hq
  exact ⟨ls, ms, rs, rfl, rfl, hm⟩

/-! ### Stretches -/

theorem between_self (cs : List Char) (p : Nat) : between cs p p = [] := by
  rw [between, Nat.sub_self, takeBytes_zero]

/-- From a later offset back to an earlier one there is nothing. -/
theorem between_of_le {cs : List Char} {p q : Nat} (h : q ≤ p) : between cs p q = [] := by
  rw [between, Nat.sub_eq_zero_of_le h, takeBytes_zero]

private theorem between_eq {ls ms rs : List Char} {q : Nat} (h : byteSize ms = q - byteSize ls) :
    between (ls ++ (ms ++ rs)) (byteSize ls) q = ms := by
  rw [between, dropBytes_byteSize, ← h, takeBytes_byteSize]

theorem byteSize_takeBytes {cs : List Char} {p : Nat} (hp : isBoundary cs p = true) :
    byteSize (takeBytes p cs) = p := by
  obtain ⟨ls, rs, rfl, rfl⟩ := isBoundary_iff.1 hp
  rw [takeBytes_byteSize]

theorem byteSize_dropBytes {cs : List Char} {n : Nat} (h : isBoundary cs n = true) :
    byteSize (dropBytes n cs) = byteSize cs - n := by
  obtain ⟨ls, rs, rfl, rfl⟩ := isBoundary_iff.1 h
  rw [dropBytes_byteSize, byteSize_append]
  omega

variable {cs : List Char} {p q : Nat} (hp : isBoundary cs p = true) (hq : isBoundary cs q = true) (hpq : p ≤ q)

include hp hq hpq

theorem byteSize_between : byteSize (between cs p q) = q - p := by
  obtain ⟨ls, ms, rs, rfl, rfl, hm⟩ := exists_pieces hp hq hpq
  rw [between_eq hm, hm]

theorem between_append_dropBytes : between cs p q ++ dropBytes q cs = dropBytes p cs := by
  obtain ⟨ls, ms, rs, rfl, rfl, hm⟩ := exists_pieces hp hq hpq
  have hq' : q = byteSize ls + byteSize ms := by omega
  rw [between_eq hm, dropBytes_byteSize, hq', dropBytes_append, dropBytes_byteSize]

theorem takeBytes_append_between : takeBytes p cs ++ between cs p q = takeBytes q cs := by
  obtain ⟨ls, ms, rs, rfl, rfl, hm⟩ := exists_pieces hp hq hpq
  have hq' : q = byteSize ls + byteSize ms := by omega
  rw [between_eq hm, takeBytes_byteSize, hq', takeBytes_append, takeBytes_byteSize]

theorem between_append_between {r : Nat} (hr : isBoundary cs r = true) (hqr : q ≤ r) :
    between cs p q ++ between cs q r = between cs p r := by
  have h₁ := takeBytes_append_between hp hq hpq
  have h₂ := takeBytes_append_between hq hr hqr
  have h₃ := takeBytes_append_between hp hr (Nat.le_trans hpq hqr)
  rw [← h₁, List.append_assoc, ← h₃] at h₂
  exact List.append_cancel_left h₂

end Disposal.Text

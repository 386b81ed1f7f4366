import Mathlib.Data.List.FinRange
import Mathlib.Data.List.Sort
import Mathlib.Logic.Equiv.Defs
import Disposal.Proofs.Edits

/-!
# The order in which edits are listed

Edits with different starts do not depend on which of them is listed first. Sorting puts them into one order, and only
edits with one start keep the order that the list gives them. So a list whose edits are moved to other places, without
moving edits with one start past each other, is accepted with the same right and makes the same of the text.

* `IsReordering.filter_start`, `IsReordering.perm`: what such a list has in common with the original;
* `IsReordering.inOrder_eq`: the two are one list when they are sorted;
* `applyAll_of_isReordering`: what they make of a text.
-/

namespace Disposal.Edit

/-- The second list holds the edits of the first at other places, and those with one start in the same order. -/
def IsReordering (edits edits' : List Edit) : Prop :=
  ∃ place : Fin edits'.length ≃ Fin edits.length, (∀ i, edits'.get i = edits.get (place i)) ∧
    ∀ i j, i < j → (edits'.get i).start = (edits'.get j).start → place i < place j

variable {edits edits' : List Edit}

/-- At every offset both lists have the same edits in the same order. -/
theorem IsReordering.filter_start (h : IsReordering edits edits') (offset : Nat) :
    edits'.filter (·.start == offset) = edits.filter (·.start == offset) := by
  obtain ⟨place, hget, horder⟩ := h
  let starts (i : Fin edits.length) : Bool := (edits.get i).start == offset
  have hstart : ∀ i, starts (place i) = true → (edits'.get i).start = offset := by
    intro i hi
    rw [hget]
    exact beq_iff_eq.1 hi
  -- the places of these edits, in either list from the first to the last
  have hplaces : ((List.finRange edits'.length).filter fun i => starts (place i)).map place =
      (List.finRange edits.length).filter starts := by
    have hsorted : (((List.finRange edits'.length).filter fun i => starts (place i)).map place).Pairwise (· < ·) := by
      refine List.pairwise_map.2 (((List.pairwise_lt_finRange _).filter _).imp_of_mem ?_)
      intro i j hi hj hij
      exact horder i j hij
        ((hstart i (List.mem_filter.1 hi).2).trans (hstart j (List.mem_filter.1 hj).2).symm)
    have hsorted' : ((List.finRange edits.length).filter starts).Pairwise (· < ·) :=
      (List.pairwise_lt_finRange _).filter _
    refine List.Perm.eq_of_pairwise' hsorted hsorted' ((List.perm_ext_iff_of_nodup hsorted.nodup hsorted'.nodup).2 ?_)
    intro k
    constructor
    · intro hk
      obtain ⟨i, hi, rfl⟩ := List.mem_map.1 hk
      exact List.mem_filter.2 ⟨List.mem_finRange _, (List.mem_filter.1 hi).2⟩
    · intro hk
      refine List.mem_map.2 ⟨place.symm k, List.mem_filter.2 ⟨List.mem_finRange _, ?_⟩, place.apply_symm_apply k⟩
      rw [place.apply_symm_apply]
      exact (List.mem_filter.1 hk).2
  calc edits'.filter (·.start == offset)
      = ((List.finRange edits'.length).map edits'.get).filter (·.start == offset) := by rw [List.map_get_finRange]
    _ = ((List.finRange edits'.length).map fun i => edits.get (place i)).filter (·.start == offset) := by
        rw [List.map_congr_left fun i _ => hget i]
    _ = (((List.finRange edits'.length).filter fun i => starts (place i)).map place).map edits.get := by
        rw [List.filter_map, List.map_map]
        rfl
    _ = ((List.finRange edits.length).filter starts).map edits.get := by rw [hplaces]
    _ = ((List.finRange edits.length).map edits.get).filter (·.start == offset) := by
        rw [List.filter_map]
        rfl
    _ = edits.filter (·.start == offset) := by rw [List.map_get_finRange]

theorem IsReordering.perm (h : IsReordering edits edits') : edits'.Perm edits := by
  rw [List.perm_iff_count]
  intro e
  have hcount : ∀ es : List Edit, (es.filter (·.start == e.start)).count e = es.count e := fun _ =>
    List.count_filter (beq_self_eq_true e.start)
  rw [← hcount edits', h.filter_start, hcount]

/-- Lists by rising start are equal if at every offset they have the same edits in the same order. -/
private theorem eq_of_filter_start (hsorted : edits.Pairwise fun a b => a.start ≤ b.start)
    (hsorted' : edits'.Pairwise fun a b => a.start ≤ b.start)
    (h : ∀ offset, edits'.filter (·.start == offset) = edits.filter (·.start == offset)) : edits' = edits := by
  induction edits generalizing edits' with
  | nil =>
    cases edits' with
    | nil => rfl
    | cons e es => simpa using h e.start
  | cons e es ih =>
    obtain ⟨he, hes⟩ := List.pairwise_cons.1 hsorted
    cases edits' with
    | nil => simpa using h e.start
    | cons f fs =>
      obtain ⟨hf, hfs⟩ := List.pairwise_cons.1 hsorted'
      have mem : ∀ {x y : Edit} {ys : List Edit}, x ∈ (y :: ys).filter (·.start == x.start) →
          (∀ z ∈ ys, y.start ≤ z.start) → y.start ≤ x.start := by
        intro x y ys hx hy
        rcases List.mem_cons.1 (List.mem_filter.1 hx).1 with rfl | hx
        · exact Nat.le_refl _
        · exact hy x hx
      -- the first edits start at the same offset, since each stands somewhere in the other list
      have hle : f.start ≤ e.start := mem (x := e) (by rw [h]; simp) hf
      have hge : e.start ≤ f.start := mem (x := f) (by rw [← h]; simp) he
      have hstart : f.start = e.start := Nat.le_antisymm hle hge
      have hfirst := h e.start
      rw [List.filter_cons_of_pos (by simp [hstart]), List.filter_cons_of_pos (by simp)] at hfirst
      obtain ⟨rfl, -⟩ := List.cons.inj hfirst
      rw [ih hes hfs]
      intro offset
      have hoffset := h offset
      rw [List.filter_cons, List.filter_cons] at hoffset
      split at hoffset
      · exact (List.cons.inj hoffset).2
      · exact hoffset

/-- The two are one list when they are sorted. -/
theorem IsReordering.inOrder_eq (h : IsReordering edits edits') : inOrder edits' = inOrder edits := by
  refine eq_of_filter_start (pairwise_inOrder edits) (pairwise_inOrder edits') ?_
  intro offset
  rw [filter_inOrder, filter_inOrder, h.filter_start]

private theorem IsReordering.check_eq_ok {source : List Char} (h : IsReordering edits edits')
    (hcheck : check source edits = .ok ()) : check source edits' = .ok () := by
  rw [check_eq_ok_iff] at hcheck ⊢
  obtain ⟨hfits, hfree⟩ := hcheck
  refine ⟨fun e he => hfits e (h.perm.mem_iff.1 he), (h.perm.pairwise_iff ?_).2 hfree⟩
  intro a b hab
  rw [overlaps_comm, hab]

/-- A list of edits and a reordering of it are both accepted and make the same of a text; both give a text exactly when
no edit cuts a character that edits behind it put in. -/
theorem applyAll_of_isReordering {source : String} (h : check source.toList edits = .ok ())
    (hr : IsReordering edits edits') :
    check source.toList edits' = .ok () ∧ applyAll source edits' = applyAll source edits ∧
      ((∃ text, applyAll source edits = .ok text ∧ applyAll source edits' = .ok text) ↔
        allWithLater (cutsCleanly source.toList) edits = true) := by
  have h' := hr.check_eq_ok h
  have heq : applyAll source edits' = applyAll source edits := by
    rw [applyAll_eq_patched h', applyAll_eq_patched h, hr.inOrder_eq]
  refine ⟨h', heq, ?_⟩
  rw [← applyAll_eq_ok_iff h, heq]
  simp

/-- Edits at two offsets, and the same edits with the first of them listed last; those at the second offset keep their
order. -/
theorem applyAll_of_isReordering_backwards :
    check "abc".toList [⟨0, 1, "é"⟩, ⟨2, 2, "Y"⟩, ⟨2, 2, "Z"⟩, ⟨2, 3, ""⟩] = .ok () ∧
      IsReordering [⟨0, 1, "é"⟩, ⟨2, 2, "Y"⟩, ⟨2, 2, "Z"⟩, ⟨2, 3, ""⟩]
        [⟨2, 2, "Y"⟩, ⟨2, 2, "Z"⟩, ⟨2, 3, ""⟩, ⟨0, 1, "é"⟩] ∧
      applyAll "abc" [⟨0, 1, "é"⟩, ⟨2, 2, "Y"⟩, ⟨2, 2, "Z"⟩, ⟨2, 3, ""⟩] = .ok "ébYZ" ∧
      applyAll "abc" [⟨2, 2, "Y"⟩, ⟨2, 2, "Z"⟩, ⟨2, 3, ""⟩, ⟨0, 1, "é"⟩] = .ok "ébYZ" := by
  have hcheck : check "abc".toList [⟨0, 1, "é"⟩, ⟨2, 2, "Y"⟩, ⟨2, 2, "Z"⟩, ⟨2, 3, ""⟩] = .ok () := rfl
  have hr : IsReordering [⟨0, 1, "é"⟩, ⟨2, 2, "Y"⟩, ⟨2, 2, "Z"⟩, ⟨2, 3, ""⟩]
      [⟨2, 2, "Y"⟩, ⟨2, 2, "Z"⟩, ⟨2, 3, ""⟩, ⟨0, 1, "é"⟩] :=
    ⟨⟨fun i => i + (1 : Fin 4), fun i => i + (3 : Fin 4), fun i => by revert i; decide, fun i => by revert i; decide⟩,
      by decide, by decide⟩
  have hfirst : applyAll "abc" [⟨0, 1, "é"⟩, ⟨2, 2, "Y"⟩, ⟨2, 2, "Z"⟩, ⟨2, 3, ""⟩] = .ok "ébYZ" := by
    rw [applyAll_eq_patched rfl, inOrder_eq_self (by decide)]
    rfl
  obtain ⟨-, heq, -⟩ := applyAll_of_isReordering hcheck hr
  exact ⟨hcheck, hr, hfirst, heq.trans hfirst⟩

/-- An accepted list and a reordering of it, of which neither gives a text: the first edit at the start of the text cuts
the character that the other one puts in there. -/
theorem applyAll_reordered_fails :
    check "abc".toList [⟨0, 1, "x"⟩, ⟨0, 0, "é"⟩, ⟨2, 3, "z"⟩] = .ok () ∧
      IsReordering [⟨0, 1, "x"⟩, ⟨0, 0, "é"⟩, ⟨2, 3, "z"⟩] [⟨2, 3, "z"⟩, ⟨0, 1, "x"⟩, ⟨0, 0, "é"⟩] ∧
      applyAll "abc" [⟨0, 1, "x"⟩, ⟨0, 0, "é"⟩, ⟨2, 3, "z"⟩] = .error (.cutsReplacement 0 1) ∧
      applyAll "abc" [⟨2, 3, "z"⟩, ⟨0, 1, "x"⟩, ⟨0, 0, "é"⟩] = .error (.cutsReplacement 0 1) := by
  have hr : IsReordering [⟨0, 1, "x"⟩, ⟨0, 0, "é"⟩, ⟨2, 3, "z"⟩] [⟨2, 3, "z"⟩, ⟨0, 1, "x"⟩, ⟨0, 0, "é"⟩] :=
    ⟨⟨fun i => i + (2 : Fin 3), fun i => i + (1 : Fin 3), fun i => by revert i; decide, fun i => by revert i; decide⟩,
      by decide, by decide⟩
  have hfirst : applyAll "abc" [⟨0, 1, "x"⟩, ⟨0, 0, "é"⟩, ⟨2, 3, "z"⟩] = .error (.cutsReplacement 0 1) := by
    rw [applyAll_eq_patched rfl, inOrder_eq_self (by decide)]
    rfl
  refine ⟨rfl, hr, hfirst, ?_⟩
  rw [applyAll_eq_patched (hr.check_eq_ok rfl), hr.inOrder_eq, ← applyAll_eq_patched rfl, hfirst]

end Disposal.Edit

import Disposal.Proofs.Bytes
import Disposal.Text.Edit

/-!
# Edits made one by one and all at once

`Edit.together` makes all edits of a list at once: every stretch of the text that no edit covers is kept, and every
replacement stands where its edit starts, in the order of the list where several start at one offset.
`Edit.applyAll` makes them one by one, from the last backwards, in the text as it has become.

At one offset there is at most one edit that removes anything, and all others put something in. Those that the list
has behind it are made before it, so that it cuts into what they put in and leaves bytes of the text in exchange. The
two ways agree exactly where that exchange is not seen.

* `check_eq_ok_iff`: accepted lists are those of edits that fit the text and do not overlap;
* `foldrM_splice`: what the edits make of a text, from an offset on;
* `applyAll_eq_ok_iff`: when the edits come to an end at all;
* `applyAll_eq_together_iff`: when they give what they give all at once.
-/

namespace Disposal.Edit

open Text

/-! ### Edits all at once -/

/-- The edits by rising start; edits with one start keep their order. -/
def inOrder (edits : List Edit) : List Edit :=
  edits.mergeSort fun a b => a.start ≤ b.start

/-- The text from the offset `p` on, with ordered edits made in it all at once. -/
def weave (source : List Char) : Nat → List Edit → List Char
  | p, [] => dropBytes p source
  | p, e :: es => between source p e.start ++ e.replacement.toList ++ weave source (max p e.stop) es

/-- The text with a list of edits made in it all at once. -/
def together (source : List Char) (edits : List Edit) : List Char :=
  weave source 0 (inOrder edits)

/-! ### Edits at one offset -/

/-- The stretch of the text that an edit takes out. -/
def covered (source : List Char) (e : Edit) : List Char :=
  between source e.start e.stop

/-- What the edits of a list put in at an offset. -/
def putIn (offset : Nat) (edits : List Edit) : List Char :=
  (edits.filter (·.start == offset)).flatMap (·.replacement.toList)

/-- Whether an edit ends between two characters of what the edits behind it put in at its start. -/
def cutsCleanly (source : List Char) (e : Edit) (later : List Edit) : Bool :=
  isBoundary (putIn e.start later ++ e.covered source) (byteSize (e.covered source))

/-- Whether what the edits behind an edit put in at its start is still there when as many bytes as the edit takes out
are gone. -/
def spares (source : List Char) (e : Edit) (later : List Edit) : Bool :=
  (putIn e.start later).isSuffixOf (putIn e.start later ++ e.covered source)

/-- Whether every edit of a list satisfies `p` together with those behind it. -/
def allWithLater (p : Edit → List Edit → Bool) : List Edit → Bool
  | [] => true
  | e :: es => p e es && allWithLater p es

/-! ### Accepted lists -/

/-- The edit takes out a stretch between two boundaries of the text. -/
structure Fits (source : List Char) (e : Edit) : Prop where
  le : e.start ≤ e.stop
  start : isBoundary source e.start = true
  stop : isBoundary source e.stop = true

theorem fault?_eq_none_iff {source : List Char} {e : Edit} : e.fault? source = none ↔ e.Fits source := by
  constructor
  · intro h
    unfold fault? at h
    split at h
    · cases h
    · split at h
      · cases h
      · split at h
        · cases h
        · split at h
          · cases h
          · next h₁ _ h₃ h₄ => exact ⟨by omega, by simpa using h₃, by simpa using h₄⟩
  · intro h
    have h₁ := h.le
    have h₂ := le_byteSize_of_isBoundary h.stop
    rw [fault?, if_neg (by omega), if_neg (by omega), h.start, h.stop]
    rfl

private theorem clash?_eq_none_iff {edits : List Edit} :
    clash? edits = none ↔ edits.Pairwise fun a b => a.overlaps b = false := by
  induction edits with
  | nil => simp [clash?]
  | cons e es ih =>
    rw [clash?, List.pairwise_cons, ← ih]
    split
    · next h =>
      obtain ⟨f, hf, hef⟩ := List.any_eq_true.1 h
      constructor
      · intro h; cases h
      · rintro ⟨h, -⟩
        rw [h f hf] at hef
        cases hef
    · next h =>
      have hfree : ∀ f ∈ es, e.overlaps f = false := by simpa using h
      exact ⟨fun h => ⟨hfree, h⟩, fun h => h.2⟩

/-- Accepted lists are those of edits that fit the text and do not overlap. -/
theorem check_eq_ok_iff {source : List Char} {edits : List Edit} :
    check source edits = .ok () ↔
      (∀ e ∈ edits, e.Fits source) ∧ edits.Pairwise fun a b => a.overlaps b = false := by
  rw [← clash?_eq_none_iff]
  unfold check
  cases hf : edits.findSome? (fault? source) with
  | some error =>
    obtain ⟨e, he, hfault⟩ := List.exists_of_findSome?_eq_some hf
    constructor
    · intro h; cases h
    · rintro ⟨h, -⟩
      rw [fault?_eq_none_iff.2 (h e he)] at hfault
      cases hfault
  | none =>
    have hfit : ∀ e ∈ edits, e.Fits source := by
      intro e he
      exact fault?_eq_none_iff.1 (List.findSome?_eq_none_iff.1 hf e he)
    cases hc : clash? edits with
    | some error => simp
    | none => simpa using hfit

theorem overlaps_comm (a b : Edit) : a.overlaps b = b.overlaps a := by
  unfold overlaps
  cases a.isInsertion <;> cases b.isInsertion <;> simp [Bool.and_comm]

/-- The second edit starts behind the first, or puts something in where the first starts. -/
def Follows (a b : Edit) : Prop := a.stop ≤ b.start ∨ (b.start = a.start ∧ b.stop = a.start)

private theorem follows_of_overlaps {source : List Char} {a b : Edit} (ha : a.Fits source) (hb : b.Fits source)
    (hab : a.start ≤ b.start) (h : a.overlaps b = false) : Follows a b := by
  have h₁ := ha.le
  have h₂ := hb.le
  unfold overlaps isInsertion at h
  unfold Follows
  grind

/-- A list of edits in order, all from the offset `p` on. -/
structure Ordered (source : List Char) (p : Nat) (es : List Edit) : Prop where
  boundary : isBoundary source p = true
  fits : ∀ e ∈ es, e.Fits source
  le : ∀ e ∈ es, p ≤ e.start
  follows : es.Pairwise Follows

theorem Ordered.tail {source : List Char} {p : Nat} {e : Edit} {es : List Edit} (h : Ordered source p (e :: es)) :
    Ordered source e.start es where
  boundary := (h.fits e List.mem_cons_self).start
  fits f hf := h.fits f (List.mem_cons_of_mem e hf)
  le f hf := by
    have hle := (h.fits e List.mem_cons_self).le
    rcases (List.pairwise_cons.1 h.follows).1 f hf with hs | ⟨hs, -⟩
    · omega
    · omega
  follows := (List.pairwise_cons.1 h.follows).2

private theorem inOrder_perm (edits : List Edit) : (inOrder edits).Perm edits := List.mergeSort_perm ..

private theorem start_trans (a b c : Edit) (hab : decide (a.start ≤ b.start) = true)
    (hbc : decide (b.start ≤ c.start) = true) : decide (a.start ≤ c.start) = true :=
  decide_eq_true (Nat.le_trans (of_decide_eq_true hab) (of_decide_eq_true hbc))

private theorem start_total (a b : Edit) : (decide (a.start ≤ b.start) || decide (b.start ≤ a.start)) = true := by
  rw [Bool.or_eq_true, decide_eq_true_iff, decide_eq_true_iff]
  exact Nat.le_total a.start b.start

theorem pairwise_inOrder (edits : List Edit) : (inOrder edits).Pairwise fun a b => a.start ≤ b.start :=
  (List.pairwise_mergeSort start_trans start_total edits).imp of_decide_eq_true

theorem inOrder_eq_self {edits : List Edit} (h : edits.Pairwise fun a b => a.start ≤ b.start) :
    inOrder edits = edits :=
  List.mergeSort_of_pairwise (h.imp decide_eq_true)

/-- Edits with one start keep their order. -/
theorem filter_inOrder (edits : List Edit) (offset : Nat) :
    (inOrder edits).filter (·.start == offset) = edits.filter (·.start == offset) := by
  have hsorted : (edits.filter (·.start == offset)).Pairwise fun a b => decide (a.start ≤ b.start) = true := by
    refine List.Pairwise.imp_of_mem ?_ (List.pairwise_of_forall fun _ _ => trivial)
    intro a b ha hb _
    have ha' : a.start = offset := by simpa using (List.mem_filter.1 ha).2
    have hb' : b.start = offset := by simpa using (List.mem_filter.1 hb).2
    exact decide_eq_true (by omega)
  have hsub : (edits.filter (·.start == offset)).Sublist (inOrder edits) :=
    List.sublist_mergeSort start_trans start_total hsorted List.filter_sublist
  have hsub' := hsub.filter (·.start == offset)
  rw [List.filter_filter] at hsub'
  simp only [Bool.and_self] at hsub'
  exact (hsub'.eq_of_length ((inOrder_perm edits).filter _).length_eq.symm).symm

theorem ordered_inOrder {source : List Char} {edits : List Edit} (h : check source edits = .ok ()) :
    Ordered source 0 (inOrder edits) := by
  obtain ⟨hfits, hfree⟩ := check_eq_ok_iff.1 h
  have hfits' : ∀ e ∈ inOrder edits, e.Fits source := fun e he => hfits e ((inOrder_perm edits).mem_iff.1 he)
  have hfree' : (inOrder edits).Pairwise fun a b => a.overlaps b = false := by
    refine ((inOrder_perm edits).pairwise_iff ?_).2 hfree
    intro a b hab
    rw [overlaps_comm, hab]
  refine ⟨isBoundary_zero source, hfits', fun _ _ => Nat.zero_le _, ?_⟩
  refine ((pairwise_inOrder edits).and hfree').imp_of_mem ?_
  rintro a b ha hb ⟨hle, hab⟩
  exact follows_of_overlaps (hfits' a ha) (hfits' b hb) hle hab

/-! ### Edits one by one -/

/-- The text from the offset `p` on, with ordered edits made in it one by one, from the last backwards. -/
def patched (source : List Char) : Nat → List Edit → Except EditError (List Char)
  | p, [] => .ok (dropBytes p source)
  | p, e :: es =>
    match patched source e.start es with
    | .error error => .error error
    | .ok rest =>
      if isBoundary rest (e.stop - e.start) then
        .ok (between source p e.start ++ (e.replacement.toList ++ dropBytes (e.stop - e.start) rest))
      else .error (.cutsReplacement e.start e.stop)

/-- An edit does not see what stands in front of it. -/
private theorem splice_takeBytes {source : List Char} {e : Edit} (he : e.Fits source) (rest : List Char) :
    splice (takeBytes e.start source ++ rest) e =
      if isBoundary rest (e.stop - e.start) then
        .ok (takeBytes e.start source ++ e.replacement.toList ++ dropBytes (e.stop - e.start) rest)
      else .error (.cutsReplacement e.start e.stop) := by
  have hs : byteSize (takeBytes e.start source) = e.start := byteSize_takeBytes he.start
  generalize takeBytes e.start source = front at hs ⊢
  have hstart : isBoundary (front ++ rest) e.start = true := isBoundary_iff.2 ⟨front, rest, rfl, hs⟩
  have hstop : e.stop = byteSize front + (e.stop - e.start) := by
    have := he.le
    omega
  have hcut : isBoundary (front ++ rest) e.stop = isBoundary rest (e.stop - e.start) := by
    rw [hstop, isBoundary_append, ← hstop]
  have hdrop : dropBytes e.stop (front ++ rest) = dropBytes (e.stop - e.start) rest := by
    rw [hstop, dropBytes_append, ← hstop]
  have htake : takeBytes e.start (front ++ rest) = front := by rw [← hs, takeBytes_byteSize]
  rw [splice, hstart, Bool.true_and, hcut, htake, hdrop]

/-- What the edits make of a text: in front of them it is as it was. -/
theorem foldrM_splice {source : List Char} {p : Nat} {es : List Edit} (h : Ordered source p es) :
    es.foldrM (fun e text => splice text e) source = (patched source p es).map (takeBytes p source ++ ·) := by
  induction es generalizing p with
  | nil =>
    show Except.ok source = Except.ok (takeBytes p source ++ dropBytes p source)
    rw [takeBytes_append_dropBytes]
  | cons e es ih =>
    have he := h.fits e List.mem_cons_self
    rw [List.foldrM_cons, ih h.tail, patched]
    cases patched source e.start es with
    | error error => rfl
    | ok rest =>
      show splice (takeBytes e.start source ++ rest) e = _
      rw [splice_takeBytes he]
      dsimp only
      split
      · show Except.ok _ = Except.ok _
        rw [← takeBytes_append_between h.boundary he.start (h.le e List.mem_cons_self)]
        simp only [List.append_assoc]
      · rfl

theorem applyAll_eq_patched {source : String} {edits : List Edit} (h : check source.toList edits = .ok ()) :
    applyAll source edits = (patched source.toList 0 (inOrder edits)).map String.ofList := by
  have hfold := foldrM_splice (ordered_inOrder h)
  unfold applyAll backwards
  rw [h, List.foldlM_reverse]
  show (do let result ← (inOrder edits).foldrM (fun e text => splice text e) source.toList
           return String.ofList result) = _
  rw [hfold]
  cases patched source.toList 0 (inOrder edits) with
  | error error => rfl
  | ok text => rw [takeBytes_zero]; rfl

/-! ### Insertions -/

private theorem patched_of_insertion {source : List Char} {p : Nat} {e : Edit} {es : List Edit}
    (he : e.stop = e.start) : patched source p (e :: es) =
      (patched source e.start es).map fun t => between source p e.start ++ (e.replacement.toList ++ t) := by
  rw [patched]
  cases patched source e.start es with
  | error error => rfl
  | ok rest =>
    dsimp only
    rw [he, Nat.sub_self, isBoundary_zero, dropBytes_zero]
    rfl

private theorem weave_insertions {source : List Char} {p offset : Nat} (hp : offset ≤ p) {is : List Edit}
    (h : ∀ f ∈ is, f.start = offset ∧ f.stop = offset) (es : List Edit) :
    weave source p (is ++ es) = is.flatMap (·.replacement.toList) ++ weave source p es := by
  induction is with
  | nil => rfl
  | cons f is ih =>
    obtain ⟨hs, ht⟩ := h f List.mem_cons_self
    rw [List.cons_append, weave, hs, ht, between_of_le hp, Nat.max_eq_left hp,
      ih fun g hg => h g (List.mem_cons_of_mem f hg), List.flatMap_cons, List.nil_append, List.append_assoc]

theorem patched_insertions {source : List Char} {offset : Nat} {is : List Edit}
    (h : ∀ f ∈ is, f.start = offset ∧ f.stop = offset) (es : List Edit) :
    patched source offset (is ++ es) =
      (patched source offset es).map (is.flatMap (·.replacement.toList) ++ ·) := by
  induction is with
  | nil =>
    rw [List.nil_append]
    cases patched source offset es <;> rfl
  | cons f is ih =>
    obtain ⟨hs, ht⟩ := h f List.mem_cons_self
    rw [List.cons_append, patched_of_insertion (by rw [hs, ht]), hs, between_self,
      ih fun g hg => h g (List.mem_cons_of_mem f hg)]
    cases patched source offset es with
    | error error => rfl
    | ok rest =>
      apply congrArg Except.ok
      simp only [List.flatMap_cons, List.nil_append, List.append_assoc]

/-! ### The text behind an edit -/

/-- Edits from `q` on leave alone what stands between `p` and `q`. -/
private theorem weave_of_le {source : List Char} {p q : Nat} {es : List Edit} (h : Ordered source q es)
    (hp : isBoundary source p = true) (hpq : p ≤ q) :
    weave source p es = between source p q ++ weave source q es := by
  cases es with
  | nil => exact (between_append_dropBytes hp h.boundary hpq).symm
  | cons e es =>
    have he := h.fits e List.mem_cons_self
    have hle := h.le e List.mem_cons_self
    have hmax : max p e.stop = max q e.stop := by
      have := he.le
      omega
    rw [weave, weave, hmax, ← between_append_between hp h.boundary hpq he.start hle]
    simp only [List.append_assoc]

theorem patched_of_le {source : List Char} {p q : Nat} {es : List Edit} (h : Ordered source q es)
    (hp : isBoundary source p = true) (hpq : p ≤ q) :
    patched source p es = (patched source q es).map (between source p q ++ ·) := by
  cases es with
  | nil => exact congrArg Except.ok (between_append_dropBytes hp h.boundary hpq).symm
  | cons e es =>
    have hcut := between_append_between hp h.boundary hpq (h.fits e List.mem_cons_self).start
      (h.le e List.mem_cons_self)
    rw [patched, patched]
    cases patched source e.start es with
    | error error => rfl
    | ok rest =>
      dsimp only
      split
      · rw [← hcut, List.append_assoc]
        rfl
      · rfl

/-- Behind an edit that removes something come insertions at its start, then edits behind its end. -/
private theorem Ordered.exists_insertions {source : List Char} {p : Nat} {e : Edit} {es : List Edit}
    (h : Ordered source p (e :: es)) :
    ∃ is rest, es = is ++ rest ∧ (∀ f ∈ is, f.start = e.start ∧ f.stop = e.start) ∧ ∀ f ∈ rest, e.stop ≤ f.start := by
  have hfol := (List.pairwise_cons.1 h.follows).1
  have hpw := h.tail.follows
  have hfits := h.tail.fits
  clear h
  induction es with
  | nil => exact ⟨[], [], rfl, by simp, by simp⟩
  | cons f es ih =>
    rcases hfol f List.mem_cons_self with hf | hf
    · refine ⟨[], f :: es, rfl, by simp, ?_⟩
      intro g hg
      rcases List.mem_cons.1 hg with rfl | hg
      · exact hf
      · have hle := (hfits f List.mem_cons_self).le
        rcases (List.pairwise_cons.1 hpw).1 g hg with hfg | ⟨hfg, -⟩ <;> omega
    · obtain ⟨is, rest, rfl, his, hrest⟩ := ih (fun g hg => hfol g (List.mem_cons_of_mem f hg))
        (List.pairwise_cons.1 hpw).2 (fun g hg => hfits g (List.mem_cons_of_mem f hg))
      refine ⟨f :: is, rest, rfl, ?_, hrest⟩
      intro g hg
      rcases List.mem_cons.1 hg with rfl | hg
      · exact hf
      · exact his g hg

/-- The text from the start of an edit that removes something on, without that edit: what is put in there, what the
edit covers, and what stands behind it. -/
private theorem Ordered.exists_behind {source : List Char} {p : Nat} {e : Edit} {es : List Edit}
    (h : Ordered source p (e :: es)) (hlt : e.start < e.stop) :
    ∃ rest, weave source e.start es = putIn e.start es ++ (e.covered source ++ weave source e.stop rest) ∧
      weave source e.stop es = putIn e.start es ++ weave source e.stop rest ∧
      patched source e.start es =
        (patched source e.stop rest).map fun t => putIn e.start es ++ (e.covered source ++ t) := by
  have he := h.fits e List.mem_cons_self
  have ht := h.tail
  obtain ⟨is, rest, rfl, his, hrest⟩ := h.exists_insertions
  have hput : putIn e.start (is ++ rest) = is.flatMap (·.replacement.toList) := by
    have h₁ : is.filter (·.start == e.start) = is := List.filter_eq_self.2 fun f hf => by simp [(his f hf).1]
    have h₂ : rest.filter (·.start == e.start) = [] := by
      refine List.filter_eq_nil_iff.2 fun f hf => ?_
      have := hrest f hf
      simp only [beq_iff_eq]
      omega
    rw [putIn, List.filter_append, h₁, h₂, List.append_nil]
  have hord : Ordered source e.stop rest :=
    ⟨he.stop, fun f hf => ht.fits f (List.mem_append_right is hf), hrest, (List.pairwise_append.1 ht.follows).2.1⟩
  refine ⟨rest, ?_, ?_, ?_⟩
  · rw [hput, weave_insertions (Nat.le_refl _) his, weave_of_le hord he.start he.le]
    rfl
  · rw [hput, weave_insertions he.le his]
  · rw [hput, patched_insertions his, patched_of_le hord he.start he.le]
    cases patched source e.stop rest <;> rfl

/-! ### When the two ways agree -/

private theorem Fits.byteSize_covered {source : List Char} {e : Edit} (h : e.Fits source) :
    byteSize (e.covered source) = e.stop - e.start :=
  byteSize_between h.start h.stop h.le

private theorem covered_of_insertion {source : List Char} {e : Edit} (he : e.stop = e.start) :
    e.covered source = [] := by
  rw [covered, he, between_self]

private theorem weave_of_insertion {source : List Char} {p : Nat} {e : Edit} {es : List Edit} (he : e.stop = e.start)
    (hp : p ≤ e.start) :
    weave source p (e :: es) = between source p e.start ++ (e.replacement.toList ++ weave source e.start es) := by
  rw [weave, he, Nat.max_eq_right hp, List.append_assoc]

/-- An edit that removes something takes its bytes from what is put in at its start and from what it covers. -/
private theorem Ordered.patched_cons {source : List Char} {p : Nat} {e : Edit} {es : List Edit} {t : List Char}
    (h : Ordered source p (e :: es))
    (ht : patched source e.start es = .ok (putIn e.start es ++ (e.covered source ++ t))) :
    patched source p (e :: es) =
      if cutsCleanly source e es then
        .ok (between source p e.start ++ (e.replacement.toList ++
          dropBytes (byteSize (e.covered source)) (putIn e.start es ++ (e.covered source ++ t))))
      else .error (.cutsReplacement e.start e.stop) := by
  have hsize := (h.fits e List.mem_cons_self).byteSize_covered
  have hcut :
      isBoundary (putIn e.start es ++ (e.covered source ++ t)) (e.stop - e.start) = cutsCleanly source e es := by
    rw [cutsCleanly, hsize, ← List.append_assoc]
    apply isBoundary_append_left
    rw [byteSize_append]
    omega
  rw [patched, ht]
  dsimp only
  rw [hcut, hsize]

/-- The edits come to an end when none of them cuts a character that others have put in. -/
private theorem patched_eq_ok_iff {source : List Char} {p : Nat} {es : List Edit} (h : Ordered source p es) :
    (∃ t, patched source p es = .ok t) ↔ allWithLater (cutsCleanly source) es = true := by
  induction es generalizing p with
  | nil => simp [patched, allWithLater]
  | cons e es ih =>
    have ih := ih h.tail
    rw [allWithLater, Bool.and_eq_true, ← ih]
    by_cases he : e.stop = e.start
    · have hclean : cutsCleanly source e es = true := by
        rw [cutsCleanly, covered_of_insertion he]
        exact isBoundary_zero _
      rw [hclean, patched_of_insertion he]
      cases patched source e.start es <;> simp [Except.map]
    · obtain ⟨rest, -, -, hp⟩ := h.exists_behind (Nat.lt_of_le_of_ne (h.fits e List.mem_cons_self).le (Ne.symm he))
      cases hr : patched source e.stop rest with
      | error error =>
        rw [hr] at hp
        rw [patched, hp]
        simp [Except.map]
      | ok t =>
        rw [hr] at hp
        rw [h.patched_cons hp, hp]
        cases cutsCleanly source e es <;> simp [Except.map]

private theorem exists_of_patched_eq_error {source : List Char} {p : Nat} {es : List Edit} {error : EditError}
    (h : patched source p es = .error error) : ∃ e ∈ es, error = .cutsReplacement e.start e.stop := by
  induction es generalizing p with
  | nil => cases h
  | cons e es ih =>
    rw [patched] at h
    cases hr : patched source e.start es with
    | error cause =>
      rw [hr] at h
      cases h
      obtain ⟨f, hf, heq⟩ := ih hr
      exact ⟨f, List.mem_cons_of_mem e hf, heq⟩
    | ok rest =>
      rw [hr] at h
      dsimp only at h
      split at h
      · cases h
      · cases h
        exact ⟨e, List.mem_cons_self, rfl⟩

/-- An edit shortens what stands behind its start by what it covers. -/
private theorem Ordered.byteSize_weave {source : List Char} {p : Nat} {e : Edit} {es : List Edit}
    (h : Ordered source p (e :: es)) :
    byteSize (weave source (max p e.stop) es) = byteSize (weave source e.start es) - (e.stop - e.start) := by
  have he := h.fits e List.mem_cons_self
  have hp := h.le e List.mem_cons_self
  have hle := he.le
  rw [Nat.max_eq_right (Nat.le_trans hp hle)]
  by_cases hs : e.stop = e.start
  · rw [hs, Nat.sub_self, Nat.sub_zero]
  · obtain ⟨rest, hstart, hstop, -⟩ := h.exists_behind (Nat.lt_of_le_of_ne hle (Ne.symm hs))
    rw [hstart, hstop, byteSize_append, byteSize_append, byteSize_append, he.byteSize_covered]
    omega

/-- Both ways give texts of one size. -/
private theorem byteSize_patched {source : List Char} {p : Nat} {es : List Edit} (h : Ordered source p es)
    {t : List Char} (ht : patched source p es = .ok t) : byteSize t = byteSize (weave source p es) := by
  induction es generalizing p t with
  | nil =>
    cases ht
    rfl
  | cons e es ih =>
    rw [patched] at ht
    cases hr : patched source e.start es with
    | error error =>
      rw [hr] at ht
      cases ht
    | ok rest =>
      rw [hr] at ht
      dsimp only at ht
      split at ht
      · next hcut =>
        cases ht
        rw [weave, byteSize_append, byteSize_append, byteSize_append, byteSize_append, byteSize_dropBytes hcut,
          h.byteSize_weave, ih h.tail hr, Nat.add_assoc]
      · cases ht

/-- Cutting bytes from what is put in and what is covered leaves what is put in exactly if that ends both. -/
private theorem dropBytes_eq_iff (added cs : List Char) {t w : List Char} (ht : byteSize t = byteSize w) :
    (isBoundary (added ++ cs) (byteSize cs) = true ∧
      dropBytes (byteSize cs) (added ++ (cs ++ t)) = added ++ w) ↔ added <:+ added ++ cs ∧ t = w := by
  rw [← List.append_assoc]
  constructor
  · rintro ⟨hb, hd⟩
    obtain ⟨ls, rs, hcut, hl⟩ := isBoundary_iff.1 hb
    rw [hcut, List.append_assoc, ← hl, dropBytes_byteSize] at hd
    obtain ⟨rfl, rfl⟩ := append_inj_of_byteSize_right hd ht
    exact ⟨⟨ls, hcut.symm⟩, rfl⟩
  · rintro ⟨⟨ls, hcut⟩, rfl⟩
    have hl : byteSize ls = byteSize cs := by
      have := congrArg byteSize hcut
      rw [byteSize_append, byteSize_append] at this
      omega
    rw [← hcut, ← hl]
    refine ⟨isBoundary_iff.2 ⟨ls, added, rfl, rfl⟩, ?_⟩
    rw [List.append_assoc, dropBytes_byteSize]

/-- The edits give what they give all at once when each spares what those behind it put in. -/
private theorem patched_eq_weave_iff {source : List Char} {p : Nat} {es : List Edit} (h : Ordered source p es) :
    patched source p es = .ok (weave source p es) ↔ allWithLater (spares source) es = true := by
  induction es generalizing p with
  | nil => simp [patched, weave, allWithLater]
  | cons e es ih =>
    have hp := h.le e List.mem_cons_self
    have hle := (h.fits e List.mem_cons_self).le
    rw [allWithLater, Bool.and_eq_true, ← ih h.tail]
    by_cases he : e.stop = e.start
    · have hspares : spares source e es = true := by
        rw [spares, covered_of_insertion he, List.append_nil]
        exact List.isSuffixOf_iff_suffix.2 List.suffix_rfl
      rw [hspares, patched_of_insertion he, weave_of_insertion he hp]
      cases patched source e.start es <;> simp [Except.map]
    · obtain ⟨rest, hstart, hstop, hpat⟩ := h.exists_behind (Nat.lt_of_le_of_ne hle (Ne.symm he))
      rw [weave, Nat.max_eq_right (Nat.le_trans hp hle), hstop, List.append_assoc]
      cases hr : patched source e.stop rest with
      | error error =>
        rw [hr] at hpat
        rw [patched, hpat]
        simp [Except.map]
      | ok t =>
        rw [hr] at hpat
        have hsize : byteSize t = byteSize (weave source e.stop rest) := by
          have := byteSize_patched h.tail hpat
          rw [hstart] at this
          simp only [byteSize_append] at this
          omega
        have hiff := dropBytes_eq_iff (putIn e.start es) (e.covered source) hsize
        rw [h.patched_cons hpat, hpat, hstart, spares, List.isSuffixOf_iff_suffix]
        simp only [Except.map, Except.ok.injEq, List.append_cancel_left_eq]
        rw [← hiff, cutsCleanly]
        split
        · next hc => simp [hc]
        · next hc => simp [hc]

/-! ### Lists in any order -/

/-- A property of each edit and those behind it at its start does not depend on how the starts are ordered. -/
private theorem allWithLater_iff {prop : Edit → List Edit → Bool}
    (hprop : ∀ e es, prop e (es.filter (·.start == e.start)) = prop e es) (es : List Edit) :
    allWithLater prop es = true ↔ ∀ offset, allWithLater prop (es.filter (·.start == offset)) = true := by
  induction es with
  | nil => simp [allWithLater]
  | cons e es ih =>
    rw [allWithLater, Bool.and_eq_true, ih]
    constructor
    · rintro ⟨he, hes⟩ offset
      rw [List.filter_cons]
      split
      · next ho =>
        obtain rfl : e.start = offset := by simpa using ho
        rw [allWithLater, hprop, he, hes, Bool.and_self]
      · exact hes offset
    · intro h
      have he := h e.start
      rw [List.filter_cons, if_pos (beq_self_eq_true _), allWithLater, hprop, Bool.and_eq_true] at he
      refine ⟨he.1, fun offset => ?_⟩
      have ho := h offset
      rw [List.filter_cons] at ho
      split at ho
      · rw [allWithLater, Bool.and_eq_true] at ho
        exact ho.2
      · exact ho

private theorem putIn_filter (offset : Nat) (es : List Edit) :
    putIn offset (es.filter (·.start == offset)) = putIn offset es := by
  simp [putIn, List.filter_filter]

private theorem allWithLater_inOrder {prop : Edit → List Edit → Bool}
    (hprop : ∀ e es, prop e (es.filter (·.start == e.start)) = prop e es) (edits : List Edit) :
    allWithLater prop (inOrder edits) = allWithLater prop edits := by
  rw [Bool.eq_iff_iff, allWithLater_iff hprop, allWithLater_iff hprop]
  simp only [filter_inOrder]

/-- An accepted list of edits can be applied exactly when no edit cuts a character that others have put in. -/
theorem applyAll_eq_ok_iff {source : String} {edits : List Edit} (h : check source.toList edits = .ok ()) :
    (∃ text, applyAll source edits = .ok text) ↔ allWithLater (cutsCleanly source.toList) edits = true := by
  rw [← allWithLater_inOrder (fun e es => by rw [cutsCleanly, cutsCleanly, putIn_filter]),
    ← patched_eq_ok_iff (ordered_inOrder h), applyAll_eq_patched h]
  cases patched source.toList 0 (inOrder edits) <;> simp [Except.map]

/-- The only way in which an accepted list of edits fails. -/
theorem exists_of_applyAll_eq_error {source : String} {edits : List Edit} (h : check source.toList edits = .ok ())
    {error : EditError} (herr : applyAll source edits = .error error) :
    ∃ e ∈ edits, error = .cutsReplacement e.start e.stop := by
  rw [applyAll_eq_patched h] at herr
  cases hp : patched source.toList 0 (inOrder edits) with
  | ok text =>
    rw [hp] at herr
    cases herr
  | error cause =>
    rw [hp] at herr
    cases herr
    obtain ⟨e, he, heq⟩ := exists_of_patched_eq_error hp
    exact ⟨e, (inOrder_perm edits).mem_iff.1 he, heq⟩

/-- Accepted edits give what they give all at once exactly when each of them spares what the edits behind it put in
at its start. -/
theorem applyAll_eq_together_iff {source : String} {edits : List Edit} (h : check source.toList edits = .ok ()) :
    applyAll source edits = .ok (String.ofList (together source.toList edits)) ↔
      allWithLater (spares source.toList) edits = true := by
  rw [← allWithLater_inOrder (fun e es => by rw [spares, spares, putIn_filter]),
    ← patched_eq_weave_iff (ordered_inOrder h), applyAll_eq_patched h, together]
  cases patched source.toList 0 (inOrder edits) with
  | error error => simp [Except.map]
  | ok text =>
    simp only [Except.map, Except.ok.injEq]
    exact String.ofList_inj

/-- An insertion listed in front of a replacement at its offset. -/
theorem applyAll_insertion_first :
    check "abc".toList [⟨0, 0, "Z"⟩, ⟨1, 1, "YY"⟩, ⟨1, 2, "X"⟩] = .ok () ∧
      applyAll "abc" [⟨0, 0, "Z"⟩, ⟨1, 1, "YY"⟩, ⟨1, 2, "X"⟩] = .ok "ZaYYXc" := by
  refine ⟨rfl, ?_⟩
  rw [(applyAll_eq_together_iff rfl).2 (by decide), together, inOrder_eq_self (by decide)]
  rfl

/-- An insertion listed behind a replacement at its offset loses a byte to it, and the text keeps one. -/
theorem applyAll_replacement_first :
    check "abc".toList [⟨0, 1, "X"⟩, ⟨0, 0, "YY"⟩] = .ok () ∧
      applyAll "abc" [⟨0, 1, "X"⟩, ⟨0, 0, "YY"⟩] = .ok "XYabc" ∧
      String.ofList (together "abc".toList [⟨0, 1, "X"⟩, ⟨0, 0, "YY"⟩]) = "XYYbc" := by
  refine ⟨rfl, ?_, ?_⟩
  · rw [applyAll_eq_patched rfl, inOrder_eq_self (by decide)]
    rfl
  · rw [together, inOrder_eq_self (by decide)]
    rfl

end Disposal.Edit

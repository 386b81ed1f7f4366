import Mathlib.Data.List.Induction
import Disposal.Proofs.Edits
import Disposal.Suggestion.Batch

/-!
# Batches of suggestions

The selection of `Batch.select` is greedy: a suggestion is applied exactly when it is ready for the text and meets no
suggestion applied before it, and deferred exactly when it is ready and does meet one. The accepted edits are always
accepted by `Edit.check`, so the only way in which a batch ends without an outcome is that one edit cuts a character
that others have put in at its start.

* `State.offer_cases`: what one suggestion does to the selection;
* `State.IsSound.offer`, `select_isSound`: the edits taken so far fit together, and so after the whole list;
* `mem_accepted_iff`: the accepted edits are those of the applied suggestions;
* `ofDiagnostics_isGreedy`: the selection as a whole, and when it gives an outcome.
-/

namespace Disposal.Batch

/-! ### One suggestion -/

/-- The suggestion is allowed, changes something, and all its edits fit the text. -/
structure IsReady (source : List Char) (risky : Bool) (s : Suggestion) : Prop where
  allowed : s.applicability.isAllowed risky = true
  nonempty : s.edits ≠ []
  fits : ∀ e ∈ s.edits, e.Fits source

/-- An allowed suggestion without edits, which counts nowhere. -/
def isIdle (risky : Bool) (s : Suggestion) : Bool :=
  s.applicability.isAllowed risky && s.edits.isEmpty

private theorem collides_iff {accepted : List Edit} {s : Suggestion} :
    collides accepted s = true ↔ ∃ e ∈ s.edits, ∃ f ∈ accepted, f.overlaps e = true := by
  simp only [collides, List.any_eq_true]

/-- What one suggestion does to the selection: it is skipped, passed over, deferred or applied. -/
theorem State.offer_cases (source : List Char) (risky : Bool) (st : State) (s : Suggestion) :
    (¬ IsReady source risky s ∧ isIdle risky s = false ∧
      st.offer source risky s = { st with skipped := st.skipped + 1 }) ∨
    (¬ IsReady source risky s ∧ isIdle risky s = true ∧ st.offer source risky s = st) ∨
    (IsReady source risky s ∧ isIdle risky s = false ∧ collides st.accepted s = true ∧
      st.offer source risky s = { st with deferred := st.deferred + 1 }) ∨
    (IsReady source risky s ∧ isIdle risky s = false ∧ collides st.accepted s = false ∧
      st.offer source risky s = { st with accepted := st.accepted ++ s.edits, applied := st.applied + 1 }) := by
  unfold State.offer isIdle
  cases ha : s.applicability.isAllowed risky with
  | false => exact Or.inl ⟨fun h => by simp [h.allowed] at ha, rfl, rfl⟩
  | true =>
    cases he : s.edits.isEmpty with
    | true => exact Or.inr (Or.inl ⟨fun h => h.nonempty (List.isEmpty_iff.1 he), rfl, rfl⟩)
    | false =>
      cases hf : s.edits.any fun e => (e.fault? source).isSome with
      | true =>
        refine Or.inl ⟨fun h => ?_, rfl, rfl⟩
        obtain ⟨e, hmem, hfault⟩ := List.any_eq_true.1 hf
        rw [Edit.fault?_eq_none_iff.2 (h.fits e hmem)] at hfault
        cases hfault
      | false =>
        have hready : IsReady source risky s := by
          refine ⟨ha, fun h => by simp [h] at he, fun e hmem => ?_⟩
          rw [List.any_eq_false] at hf
          exact Edit.fault?_eq_none_iff.1 (by simpa using hf e hmem)
        cases hc : collides st.accepted s with
        | true => exact Or.inr (Or.inr (Or.inl ⟨hready, rfl, rfl, rfl⟩))
        | false => exact Or.inr (Or.inr (Or.inr ⟨hready, rfl, rfl, rfl⟩))

/-! ### The whole list -/

theorem select_append (source : List Char) (risky : Bool) (ss : List Suggestion) (s : Suggestion) :
    select source risky (ss ++ [s]) = (select source risky ss).offer source risky s := by
  rw [select, List.foldl_append]
  rfl

/-- The edits taken so far fit the text and each other, and nothing was deferred before something was applied. -/
structure State.IsSound (source : List Char) (st : State) : Prop where
  fits : ∀ e ∈ st.accepted, e.Fits source
  free : st.accepted.Pairwise fun a b => a.overlaps b = false
  applied_pos : st.accepted ≠ [] → 0 < st.applied
  progress : 0 < st.deferred → 0 < st.applied

theorem State.IsSound.offer {source : List Char} {risky : Bool} {st : State} {s : Suggestion}
    (h : st.IsSound source) (hs : s.edits.Pairwise fun a b => a.overlaps b = false) :
    (st.offer source risky s).IsSound source := by
  rcases st.offer_cases source risky s with ⟨-, -, heq⟩ | ⟨-, -, heq⟩ | ⟨-, -, hc, heq⟩ | ⟨hr, -, hc, heq⟩
  · rw [heq]
    exact ⟨h.fits, h.free, h.applied_pos, h.progress⟩
  · rw [heq]
    exact h
  · rw [heq]
    obtain ⟨-, -, f, hf, -⟩ := collides_iff.1 hc
    exact ⟨h.fits, h.free, h.applied_pos, fun _ => h.applied_pos (List.ne_nil_of_mem hf)⟩
  · rw [heq]
    refine ⟨?_, List.pairwise_append.2 ⟨h.free, hs, ?_⟩, fun _ => Nat.succ_pos _, fun _ => Nat.succ_pos _⟩
    · intro e he
      rcases List.mem_append.1 he with he | he
      · exact h.fits e he
      · exact hr.fits e he
    · intro f hf e he
      rw [Bool.eq_false_iff]
      intro hfe
      rw [collides_iff.2 ⟨e, he, f, hf, hfe⟩] at hc
      cases hc

theorem select_isSound {source : List Char} {risky : Bool} {ss : List Suggestion}
    (h : ∀ s ∈ ss, s.edits.Pairwise fun a b => a.overlaps b = false) : (select source risky ss).IsSound source := by
  induction ss using List.reverseRecOn with
  | nil => exact ⟨by simp [select], by simp [select], by simp [select], by simp [select]⟩
  | append_singleton ss s ih =>
    rw [select_append]
    exact (ih fun s hs => h s (List.mem_append_left _ hs)).offer (h s (by simp))

/-- Every suggestion is counted once, if those without edits are counted too. -/
private theorem select_total (source : List Char) (risky : Bool) (ss : List Suggestion) :
    (select source risky ss).applied + (select source risky ss).skipped + (select source risky ss).deferred +
      ss.countP (isIdle risky) = ss.length := by
  induction ss using List.reverseRecOn with
  | nil => rfl
  | append_singleton ss s ih =>
    rw [select_append, List.countP_append, List.length_append, List.countP_singleton, List.length_singleton]
    rcases (select source risky ss).offer_cases source risky s with
      ⟨-, hi, heq⟩ | ⟨-, hi, heq⟩ | ⟨-, hi, -, heq⟩ | ⟨-, hi, -, heq⟩ <;>
    · rw [heq, hi]
      simp only [Bool.false_eq_true, if_false, if_true]
      omega

/-! ### Fates -/

/-- The suggestion is applied when it comes after the suggestions `before`. -/
def IsApplied (source : List Char) (risky : Bool) (before : List Suggestion) (s : Suggestion) : Prop :=
  (select source risky (before ++ [s])).applied = (select source risky before).applied + 1

/-- The suggestion is deferred when it comes after the suggestions `before`. -/
def IsDeferred (source : List Char) (risky : Bool) (before : List Suggestion) (s : Suggestion) : Prop :=
  (select source risky (before ++ [s])).deferred = (select source risky before).deferred + 1

/-- An edit of the suggestion overlaps one of a suggestion that is applied before it. -/
def MeetsApplied (source : List Char) (risky : Bool) (before : List Suggestion) (s : Suggestion) : Prop :=
  ∃ earlier r later, before = earlier ++ r :: later ∧ IsApplied source risky earlier r ∧
    ∃ f ∈ r.edits, ∃ e ∈ s.edits, f.overlaps e = true

theorem isApplied_iff_not_collides {source : List Char} {risky : Bool} {before : List Suggestion} {s : Suggestion} :
    IsApplied source risky before s ↔
      IsReady source risky s ∧ collides (select source risky before).accepted s = false := by
  rw [IsApplied, select_append]
  rcases (select source risky before).offer_cases source risky s with
    ⟨hr, -, heq⟩ | ⟨hr, -, heq⟩ | ⟨hr, -, hc, heq⟩ | ⟨hr, -, hc, heq⟩ <;>
  · rw [heq]
    simp [*]

private theorem isDeferred_iff_collides {source : List Char} {risky : Bool} {before : List Suggestion}
    {s : Suggestion} : IsDeferred source risky before s ↔
      IsReady source risky s ∧ collides (select source risky before).accepted s = true := by
  rw [IsDeferred, select_append]
  rcases (select source risky before).offer_cases source risky s with
    ⟨hr, -, heq⟩ | ⟨hr, -, heq⟩ | ⟨hr, -, hc, heq⟩ | ⟨hr, -, hc, heq⟩ <;>
  · rw [heq]
    simp [*]

private theorem accepted_append (source : List Char) (risky : Bool) (ss : List Suggestion) (s : Suggestion) (e : Edit) :
    e ∈ (select source risky (ss ++ [s])).accepted ↔
      e ∈ (select source risky ss).accepted ∨ (IsApplied source risky ss s ∧ e ∈ s.edits) := by
  rw [isApplied_iff_not_collides, select_append]
  rcases (select source risky ss).offer_cases source risky s with
    ⟨hr, -, heq⟩ | ⟨hr, -, heq⟩ | ⟨hr, -, hc, heq⟩ | ⟨hr, -, hc, heq⟩ <;>
  · rw [heq]
    simp [*]

/-- The accepted edits are those of the applied suggestions. -/
theorem mem_accepted_iff {source : List Char} {risky : Bool} {ss : List Suggestion} {e : Edit} :
    e ∈ (select source risky ss).accepted ↔
      ∃ earlier r later, ss = earlier ++ r :: later ∧ IsApplied source risky earlier r ∧ e ∈ r.edits := by
  induction ss using List.reverseRecOn with
  | nil => simp [select]
  | append_singleton ss s ih =>
    rw [accepted_append, ih]
    constructor
    · rintro (⟨earlier, r, later, rfl, hr, he⟩ | ⟨hs, he⟩)
      · exact ⟨earlier, r, later ++ [s], by simp, hr, he⟩
      · exact ⟨ss, s, [], rfl, hs, he⟩
    · rintro ⟨earlier, r, later, heq, hr, he⟩
      rcases List.eq_nil_or_concat later with rfl | ⟨rest, last, rfl⟩
      · obtain ⟨rfl, hs⟩ := List.append_inj' heq rfl
        cases hs
        exact Or.inr ⟨hr, he⟩
      · have heq' : ss ++ [s] = (earlier ++ r :: rest) ++ [last] := by rw [heq]; simp
        obtain ⟨rfl, -⟩ := List.append_inj' heq' rfl
        exact Or.inl ⟨earlier, r, rest, rfl, hr, he⟩

theorem collides_iff_meetsApplied {source : List Char} {risky : Bool} {before : List Suggestion} {s : Suggestion} :
    collides (select source risky before).accepted s = true ↔ MeetsApplied source risky before s := by
  rw [collides_iff]
  constructor
  · rintro ⟨e, he, f, hf, hfe⟩
    obtain ⟨earlier, r, later, heq, hr, hfr⟩ := mem_accepted_iff.1 hf
    exact ⟨earlier, r, later, heq, hr, f, hfr, e, he, hfe⟩
  · rintro ⟨earlier, r, later, heq, hr, f, hfr, e, he, hfe⟩
    exact ⟨e, he, f, mem_accepted_iff.2 ⟨earlier, r, later, heq, hr, hfr⟩, hfe⟩

/-! ### Greedy selection -/

/-- What a selection from a list of suggestions promises. -/
structure IsGreedy (source : List Char) (risky : Bool) (ss : List Suggestion) : Prop where
  /-- The accepted edits are accepted together. -/
  accepted : Edit.check source (select source risky ss).accepted = .ok ()
  applied_iff : ∀ before s after, ss = before ++ s :: after →
    (IsApplied source risky before s ↔ IsReady source risky s ∧ ¬ MeetsApplied source risky before s)
  deferred_iff : ∀ before s after, ss = before ++ s :: after →
    (IsDeferred source risky before s ↔ IsReady source risky s ∧ MeetsApplied source risky before s)
  /-- Every suggestion has one fate. -/
  total : (select source risky ss).applied + (select source risky ss).skipped + (select source risky ss).deferred +
    ss.countP (isIdle risky) = ss.length
  /-- A round that puts something off has done something. -/
  progress : 0 < (select source risky ss).deferred → 0 < (select source risky ss).applied

private theorem select_isGreedy {source : List Char} {risky : Bool} {ss : List Suggestion}
    (h : ∀ s ∈ ss, s.edits.Pairwise fun a b => a.overlaps b = false) : IsGreedy source risky ss where
  accepted := by
    have hs : (select source risky ss).IsSound source := select_isSound h
    exact Edit.check_eq_ok_iff.2 ⟨hs.fits, hs.free⟩
  applied_iff before s after _ := by
    rw [isApplied_iff_not_collides, ← collides_iff_meetsApplied, Bool.not_eq_true]
  deferred_iff before s after _ := by
    rw [isDeferred_iff_collides, collides_iff_meetsApplied]
  total := select_total source risky ss
  progress := (select_isSound h).progress

theorem run_eq (source : String) (ss : List Suggestion) (risky : Bool) :
    run source ss risky =
      (Edit.applyAll source (select source.toList risky ss).accepted).map fun text =>
        ⟨text, (select source.toList risky ss).applied, (select source.toList risky ss).skipped,
          (select source.toList risky ss).deferred⟩ := by
  unfold run
  generalize select source.toList risky ss = st
  cases happ : Edit.applyAll source st.accepted with
  | error error => exact congrArg (· >>= _) happ
  | ok text => exact congrArg (· >>= _) happ

/-- The selection from the suggestions of a list of findings, each without overlaps of its own, is greedy. It leads to
an outcome exactly when no accepted edit cuts a character that edits behind it put in at its start, and otherwise fails
for that reason. -/
theorem ofDiagnostics_isGreedy {source : String} {ds : List Diagnostic} {risky : Bool}
    (h : ∀ s ∈ ds.filterMap (·.suggestion?), s.edits.Pairwise fun a b => a.overlaps b = false) :
    let ss := ds.filterMap (·.suggestion?)
    let st := select source.toList risky ss
    IsGreedy source.toList risky ss ∧
      ((∃ text, ofDiagnostics source ds risky = .ok ⟨text, st.applied, st.skipped, st.deferred⟩) ↔
        Edit.allWithLater (Edit.cutsCleanly source.toList) st.accepted = true) ∧
      ∀ error, ofDiagnostics source ds risky = .error error →
        ∃ e ∈ st.accepted, error = .cutsReplacement e.start e.stop := by
  intro ss st
  have hgreedy : IsGreedy source.toList risky ss := select_isGreedy h
  have hrun : ofDiagnostics source ds risky =
      (Edit.applyAll source st.accepted).map fun text => ⟨text, st.applied, st.skipped, st.deferred⟩ :=
    run_eq source ss risky
  refine ⟨hgreedy, ?_, ?_⟩
  · rw [← Edit.applyAll_eq_ok_iff hgreedy.accepted, hrun]
    cases Edit.applyAll source st.accepted <;> simp [Except.map]
  · intro error herr
    rw [hrun] at herr
    cases happ : Edit.applyAll source st.accepted with
    | ok text =>
      rw [happ] at herr
      cases herr
    | error cause =>
      rw [happ] at herr
      cases herr
      exact Edit.exists_of_applyAll_eq_error hgreedy.accepted happ

/-- A finding whose suggestion is a single edit. -/
def proposal (e : Edit) : Diagnostic :=
  ⟨.disposeCreated, .warn, none, ⟨⟨0, 0⟩, ⟨0, 0⟩, 0, 0⟩, "", none, some ⟨"", [e], .machineApplicable⟩⟩

/-- Two suggestions are applied and one in between is deferred. -/
theorem ofDiagnostics_isGreedy_deferring :
    ∃ text, ofDiagnostics "abc" [proposal ⟨0, 1, "x"⟩, proposal ⟨0, 2, "y"⟩, proposal ⟨1, 1, "z"⟩] false =
      .ok ⟨text, 2, 0, 1⟩ := by
  refine (ofDiagnostics_isGreedy ?_).2.1.2 ?_
  · decide
  · decide

/-- A batch that fails: the second suggestion puts in a character of two bytes, and the first cuts it. -/
theorem ofDiagnostics_cuts_character :
    (∀ s ∈ [proposal ⟨0, 1, "x"⟩, proposal ⟨0, 0, "é"⟩].filterMap (·.suggestion?),
      s.edits.Pairwise fun a b => a.overlaps b = false) ∧
    ofDiagnostics "abc" [proposal ⟨0, 1, "x"⟩, proposal ⟨0, 0, "é"⟩] false = .error (.cutsReplacement 0 1) := by
  refine ⟨by decide, ?_⟩
  show run "abc" [⟨"", [⟨0, 1, "x"⟩], .machineApplicable⟩, ⟨"", [⟨0, 0, "é"⟩], .machineApplicable⟩] false = _
  rw [run_eq]
  have hacc : (select "abc".toList false [⟨"", [⟨0, 1, "x"⟩], .machineApplicable⟩,
      ⟨"", [⟨0, 0, "é"⟩], .machineApplicable⟩]).accepted = [⟨0, 1, "x"⟩, ⟨0, 0, "é"⟩] := by decide
  rw [hacc, Edit.applyAll_eq_patched rfl, Edit.inOrder_eq_self (by decide)]
  rfl

end Disposal.Batch

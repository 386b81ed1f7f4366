import Disposal.Proofs.Batches
import Disposal.Repair

/-!
# Rounds of repair

The rounds of `Repair.run` are made over any linter. Where the linter comes to an end, a round finds nothing to repair,
fails, applies nothing, or applies something and leads to another round; a round that applies nothing leaves every text
as it is. So where the rounds end by themselves, the files are settled: a second run would find the same and apply
nothing.

* `Repair.rounds_succ`: what one round can do;
* `Repair.rounds_cases`: what a number of rounds comes to;
* `Repair.Settles.files_eq`: the last round changes no file;
* `Repair.run_settles`: at most ten rounds, and what a second run does.
-/

namespace Disposal

namespace Batch

private theorem accepted_eq_nil {source : List Char} {risky : Bool} {ss : List Suggestion}
    (h : (select source risky ss).applied = 0) : (select source risky ss).accepted = [] := by
  induction ss using List.reverseRecOn with
  | nil => rfl
  | append_singleton ss s ih =>
    rw [select_append] at h ⊢
    rcases (select source risky ss).offer_cases source risky s with
      ⟨-, -, heq⟩ | ⟨-, -, heq⟩ | ⟨-, -, -, heq⟩ | ⟨-, -, -, heq⟩
    · rw [heq] at h ⊢
      exact ih h
    · rw [heq] at h ⊢
      exact ih h
    · rw [heq] at h ⊢
      exact ih h
    · rw [heq] at h
      exact absurd h (Nat.succ_ne_zero _)

private theorem applyAll_nil (source : String) : Edit.applyAll source [] = .ok source := by
  rw [Edit.applyAll_eq_patched rfl, Edit.inOrder_eq_self List.Pairwise.nil]
  show Except.ok (String.ofList (Text.dropBytes 0 source.toList)) = _
  rw [Text.dropBytes_zero, String.ofList_toList]

/-- A batch of which nothing is applied leaves the text as it is. -/
private theorem fixed_eq_of_applied {source : String} {ds : List Diagnostic} {risky : Bool} {outcome : Outcome}
    (h : ofDiagnostics source ds risky = .ok outcome) (happlied : outcome.applied = 0) : outcome.fixed = source := by
  rw [ofDiagnostics, run_eq] at h
  cases happ : Edit.applyAll source (select source.toList risky (ds.filterMap (·.suggestion?))).accepted with
  | error e =>
    rw [happ] at h
    cases h
  | ok text =>
    rw [happ] at h
    cases h
    rw [accepted_eq_nil happlied, applyAll_nil] at happ
    cases happ
    rfl

end Batch

namespace Repair

/-! ### One round -/

private theorem repairFile_eq {risky : Bool} {ds : List Diagnostic} {f g : SourceFile} {skipped : Nat}
    (h : repairFile risky ds f = .ok (g, 0, skipped)) : g = f := by
  unfold repairFile at h
  cases hb : Batch.ofDiagnostics f.text (concerning ds f) risky with
  | error e =>
    rw [hb] at h
    cases h
  | ok outcome =>
    rw [hb] at h
    simp only [Except.ok.injEq, Prod.mk.injEq] at h
    obtain ⟨rfl, happlied, -⟩ := h
    rw [Batch.fixed_eq_of_applied hb happlied]

private theorem map_fst_eq {risky : Bool} {ds : List Diagnostic} {files : List SourceFile}
    {results : List (SourceFile × Nat × Nat)} (h : files.mapM (repairFile risky ds) = .ok results)
    (happlied : results.foldr (·.2.1 + ·) 0 = 0) : results.map (·.1) = files := by
  induction files generalizing results with
  | nil =>
    cases h
    rfl
  | cons f files ih =>
    rw [List.mapM_cons] at h
    cases hf : repairFile risky ds f with
    | error e =>
      rw [hf] at h
      cases h
    | ok result =>
      cases hfiles : files.mapM (repairFile risky ds) with
      | error e =>
        rw [hf, hfiles] at h
        cases h
      | ok rest =>
        rw [hf, hfiles] at h
        cases h
        obtain ⟨g, applied, skipped⟩ := result
        rw [List.foldr_cons, Nat.add_eq_zero_iff] at happlied
        obtain ⟨rfl, hrest⟩ := happlied
        rw [List.map_cons, ih hfiles hrest, repairFile_eq hf]

/-- A round in which nothing is applied leaves all files as they are. -/
private theorem round_eq {risky : Bool} {ds : List Diagnostic} {files files' : List SourceFile} {skipped : Nat}
    (h : round risky ds files = .ok (files', 0, skipped)) : files' = files := by
  unfold round at h
  cases hresults : files.mapM (repairFile risky ds) with
  | error e =>
    rw [hresults] at h
    cases h
  | ok results =>
    rw [hresults] at h
    have h : Except.ok (results.map (·.1), results.foldr (·.2.1 + ·) 0, results.foldr (·.2.2 + ·) 0) =
      Except.ok (files', 0, skipped) := h
    simp only [Except.ok.injEq, Prod.mk.injEq] at h
    obtain ⟨rfl, happlied, -⟩ := h
    exact map_fst_eq hresults happlied

section

variable (lint : Linter) (risky : Bool)

/-- A round applies something and leads to the next. -/
inductive Advances (p : Progress) : Progress → Prop
  | intro {ds : List Diagnostic} {files : List SourceFile} {applied skipped : Nat}
    (hlint : lint p.files = some (.ok ds)) (hsome : repairable ds ≠ [])
    (hround : round risky (repairable ds) p.files = .ok (files, applied, skipped))
    (happlied : applied ≠ 0) : Advances p ⟨files, p.applied + applied, p.skipped⟩

/-- A round is the last one: there is nothing to repair, or nothing is applied. -/
inductive Settles (p : Progress) : Progress → Prop
  | clean {ds : List Diagnostic} (hlint : lint p.files = some (.ok ds)) (hnone : repairable ds = []) : Settles p p
  | idle {ds : List Diagnostic} {files : List SourceFile} {skipped : Nat} (hlint : lint p.files = some (.ok ds))
    (hsome : repairable ds ≠ []) (hround : round risky (repairable ds) p.files = .ok (files, 0, skipped)) :
    Settles p ⟨files, p.applied, p.skipped + skipped⟩

/-- A round fails: the files cannot be linted, or a suggestion cannot be applied. -/
inductive Fails (p : Progress) : Failure → Prop
  | lint {e : Failure} (h : lint p.files = some (.error e)) : Fails p e
  | apply {ds : List Diagnostic} {e : Failure} (hlint : lint p.files = some (.ok ds)) (hsome : repairable ds ≠ [])
    (hround : round risky (repairable ds) p.files = .error e) : Fails p e

/-- So many rounds, each of which applies something. -/
inductive Rounds : Nat → Progress → Progress → Prop
  | none (p : Progress) : Rounds 0 p p
  | next {n : Nat} {p q r : Progress} (h : Advances lint risky p q) (hrest : Rounds n q r) : Rounds (n + 1) p r

variable {lint risky}

private theorem Settles.rounds_eq {p q : Progress} (h : Settles lint risky p q) (n : Nat) :
    rounds lint risky false (n + 1) p = some (.ok (q, .settled)) := by
  cases h with
  | clean hlint hnone => simp [rounds, hlint, hnone]
  | idle hlint hsome hround => simp [rounds, hlint, hsome, hround]

variable (lint risky)

/-- What one round can do. -/
theorem rounds_succ (n : Nat) (p : Progress) :
    (lint p.files = none ∧ rounds lint risky false (n + 1) p = none) ∨
    (∃ e, Fails lint risky p e ∧ rounds lint risky false (n + 1) p = some (.error e)) ∨
    (∃ q, Settles lint risky p q ∧ rounds lint risky false (n + 1) p = some (.ok (q, .settled))) ∨
    ∃ q, Advances lint risky p q ∧ rounds lint risky false (n + 1) p = rounds lint risky false n q := by
  cases hlint : lint p.files with
  | none => exact .inl ⟨rfl, by simp only [rounds, hlint]⟩
  | some found =>
    cases found with
    | error e => exact .inr (.inl ⟨e, .lint hlint, by simp only [rounds, hlint]⟩)
    | ok ds =>
      by_cases hsome : repairable ds = []
      · have hlast : Settles lint risky p p := .clean hlint hsome
        exact .inr (.inr (.inl ⟨p, hlast, hlast.rounds_eq n⟩))
      cases hround : round risky (repairable ds) p.files with
      | error e => exact .inr (.inl ⟨e, .apply hlint hsome hround, by simp [rounds, hlint, hsome, hround]⟩)
      | ok result =>
        obtain ⟨files, applied, skipped⟩ := result
        by_cases happlied : applied = 0
        · subst happlied
          have hlast : Settles lint risky p ⟨files, p.applied, p.skipped + skipped⟩ := .idle hlint hsome hround
          exact .inr (.inr (.inl ⟨_, hlast, hlast.rounds_eq n⟩))
        · refine .inr (.inr (.inr ⟨_, .intro hlint hsome hround happlied, ?_⟩))
          rw [rounds]
          simp [hlint, hsome, hround, happlied]

/-- What a number of rounds comes to: all of them apply something, or an earlier one is the last, fails or never comes
to an end. -/
theorem rounds_cases (n : Nat) (p : Progress) :
    (∃ q, Rounds lint risky n p q ∧ rounds lint risky false n p = some (.ok (q, .capped))) ∨
    ∃ k < n, ∃ q, Rounds lint risky k p q ∧
      ((∃ r, Settles lint risky q r ∧ rounds lint risky false n p = some (.ok (r, .settled))) ∨
        (∃ e, Fails lint risky q e ∧ rounds lint risky false n p = some (.error e)) ∨
        lint q.files = none ∧ rounds lint risky false n p = none) := by
  induction n generalizing p with
  | zero => exact .inl ⟨p, .none p, rfl⟩
  | succ n ih =>
    rcases rounds_succ lint risky n p with ⟨hnone, heq⟩ | ⟨e, hfail, heq⟩ | ⟨q, hq, heq⟩ | ⟨q, hq, heq⟩
    · exact .inr ⟨0, n.succ_pos, p, .none p, .inr (.inr ⟨hnone, heq⟩)⟩
    · exact .inr ⟨0, n.succ_pos, p, .none p, .inr (.inl ⟨e, hfail, heq⟩)⟩
    · exact .inr ⟨0, n.succ_pos, p, .none p, .inl ⟨q, hq, heq⟩⟩
    · rw [heq]
      rcases ih q with ⟨r, hr, hcap⟩ | ⟨k, hk, r, hr, hend⟩
      · exact .inl ⟨r, .next hq hr, hcap⟩
      · exact .inr ⟨k + 1, Nat.succ_lt_succ hk, r, .next hq hr, hend⟩

variable {lint risky}

/-! ### A second run -/

theorem Settles.files_eq {p q : Progress} (h : Settles lint risky p q) : q.files = p.files := by
  cases h with
  | clean => rfl
  | idle _ _ hround => exact round_eq hround

/-- Where the rounds have ended, they end at once. -/
private theorem Settles.again {p q : Progress} (h : Settles lint risky p q) (start : Progress)
    (hfiles : start.files = q.files) : ∃ r, Settles lint risky start r ∧ r.applied = start.applied := by
  rw [h.files_eq] at hfiles
  cases h with
  | clean hlint hnone => exact ⟨start, .clean (hfiles ▸ hlint) hnone, rfl⟩
  | idle hlint hsome hround => exact ⟨_, .idle (hfiles ▸ hlint) hsome (hfiles ▸ hround), rfl⟩

private theorem exists_settles {n : Nat} {p q : Progress} (h : rounds lint risky false n p = some (.ok (q, .settled))) :
    ∃ r, Settles lint risky r q := by
  rcases rounds_cases lint risky n p with
    ⟨r, -, heq⟩ | ⟨k, -, r, -, ⟨r', hr', heq⟩ | ⟨e, -, heq⟩ | ⟨-, heq⟩⟩
  · rw [h] at heq
    cases heq
  · rw [h] at heq
    cases heq
    exact ⟨r, hr'⟩
  · rw [h] at heq
    cases heq
  · rw [h] at heq
    cases heq

end

/-- Repairs are made in at most ten rounds: either all ten apply something, or an earlier round is the last one, or it
fails, or it has no end because the linter has none. Where the rounds end by themselves, repairing the result again
applies nothing and leaves every file as it is. -/
theorem run_settles (lint : Linter) (risky : Bool) (files : List SourceFile) :
    ((∃ q, Rounds lint risky 10 { files } q ∧ run lint risky false files = some (.ok (q, .capped))) ∨
      ∃ k < 10, ∃ q, Rounds lint risky k { files } q ∧
        ((∃ r, Settles lint risky q r ∧ run lint risky false files = some (.ok (r, .settled))) ∨
          (∃ e, Fails lint risky q e ∧ run lint risky false files = some (.error e)) ∨
          lint q.files = none ∧ run lint risky false files = none)) ∧
    ∀ p, run lint risky false files = some (.ok (p, .settled)) →
      ∃ again, run lint risky false p.files = some (.ok (again, .settled)) ∧ again.applied = 0 ∧
        again.files = p.files := by
  refine ⟨rounds_cases lint risky maxRounds { files }, fun p hp => ?_⟩
  obtain ⟨q, hq⟩ := exists_settles hp
  obtain ⟨again, hagain, happlied⟩ := hq.again { files := p.files } rfl
  exact ⟨again, hagain.rounds_eq _, happlied, hagain.files_eq⟩

/-- A linter that proposes to change the first letter, then both, and from then on what does not fit the text. -/
def fussyLinter : Linter := fun files =>
  let ds := if files.any (·.text == "ab") then [Batch.proposal ⟨0, 1, "x"⟩, Batch.proposal ⟨0, 2, "y"⟩]
    else [Batch.proposal ⟨8, 9, "z"⟩]
  some (.ok (ds.map fun d => { d with file? := some "C.cs" }))

/-- One suggestion is applied, one is put off and forgotten, one is skipped; a second run skips it again. -/
theorem run_settles_fussyLinter :
    run fussyLinter false false [⟨some "C.cs", "ab"⟩] = some (.ok (⟨[⟨some "C.cs", "xb"⟩], 1, 1⟩, .settled)) ∧
    ∃ again, run fussyLinter false false [⟨some "C.cs", "xb"⟩] = some (.ok (again, .settled)) ∧ again.applied = 0 ∧
      again.files = [⟨some "C.cs", "xb"⟩] := by
  have h : run fussyLinter false false [⟨some "C.cs", "ab"⟩] =
      some (.ok (⟨[⟨some "C.cs", "xb"⟩], 1, 1⟩, .settled)) := by decide +kernel
  exact ⟨h, (run_settles fussyLinter false [⟨some "C.cs", "ab"⟩]).2 _ h⟩

end Repair

end Disposal

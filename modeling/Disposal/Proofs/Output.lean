import Disposal.Proofs.Findings
import Disposal.Proofs.Sketch
import Mathlib.Data.List.Induction

/-!
# What a run puts out

A run over a compilation gives the findings of its documents, sorted. In a document the rules may report anything in
any order; which of the reports become findings is said here without the loop that decides it: a report is kept when it
is heard and no report before it that is heard is about the same stretch.

* `Diagnostic.isLE_order_iff`: the order of findings, key by key;
* `Engine.selects_distinct`: the reports that are kept, one report after the other;
* `Engine.run_output`: what holds of the findings of a run.
-/

namespace Disposal

private theorem Lint.id_injective {a b : Lint} (h : a.id = b.id) : a = b := by
  have hall : ∀ a ∈ all, ∀ b ∈ all, a.id = b.id → a = b := by decide
  exact hall a a.mem_all b b.mem_all h

namespace Diagnostic

/-- No file comes before every file, and files are ordered by their paths. -/
inductive FileBefore : Option String → Option String → Prop
  | unnamed (path : String) : FileBefore none (some path)
  | named {path path' : String} (h : path < path') : FileBefore (some path) (some path')

/-- A finding may stand before another: file, row, column and id are compared in turn. -/
inductive Precedes (a b : Diagnostic) : Prop
  | file (h : FileBefore a.file? b.file?)
  | row (hfile : a.file? = b.file?) (h : a.span.first.row < b.span.first.row)
  | column (hfile : a.file? = b.file?) (hrow : a.span.first.row = b.span.first.row)
    (h : a.span.first.column < b.span.first.column)
  | id (hfile : a.file? = b.file?) (hrow : a.span.first.row = b.span.first.row)
    (hcolumn : a.span.first.column = b.span.first.column) (h : a.lint.id ≤ b.lint.id)

private theorem compare_string_eq_lt {a b : String} : compare a b = .lt ↔ a < b :=
  compareOfLessAndEq_eq_lt

private theorem isLE_compare_string {a b : String} : (compare a b).isLE = true ↔ a ≤ b := by
  rw [← Std.OrientedCmp.isGE_eq_isLE, ← String.not_lt, ← compare_string_eq_lt]
  cases compare b a <;> decide

private theorem compareFile_eq_lt_iff {a b : Option String} : compareFile a b = .lt ↔ FileBefore a b := by
  constructor
  · intro h
    cases a with
    | none =>
      cases b with
      | none => cases h
      | some path' => exact .unnamed path'
    | some path =>
      cases b with
      | none => cases h
      | some path' => exact .named (compare_string_eq_lt.1 h)
  · intro h
    cases h with
    | unnamed => rfl
    | named h => exact compare_string_eq_lt.2 h

private theorem compareFile_eq_eq_iff {a b : Option String} : compareFile a b = .eq ↔ a = b := by
  rw [compareFile_eq_compare]
  exact Std.LawfulEqCmp.compare_eq_iff_eq

theorem isLE_order_iff {a b : Diagnostic} : (order a b).isLE = true ↔ Precedes a b := by
  simp only [order, Ordering.isLE_then_iff_or, compareFile_eq_lt_iff, compareFile_eq_eq_iff, Nat.compare_eq_lt,
    Nat.compare_eq_eq, isLE_compare_string]
  constructor
  · rintro (h | ⟨hfile, h | ⟨hrow, h | ⟨hcolumn, h⟩⟩⟩)
    · exact .file h
    · exact .row hfile h
    · exact .column hfile hrow h
    · exact .id hfile hrow hcolumn h
  · rintro (h | ⟨hfile, h⟩ | ⟨hfile, hrow, h⟩ | ⟨hfile, hrow, hcolumn, h⟩)
    · exact .inl h
    · exact .inr ⟨hfile, .inl h⟩
    · exact .inr ⟨hfile, .inr ⟨hrow, .inl h⟩⟩
    · exact .inr ⟨hfile, .inr ⟨hrow, .inr ⟨hcolumn, h⟩⟩⟩

private theorem pairwise_sort (ds : List Diagnostic) : (sort ds).Pairwise Precedes :=
  (List.pairwise_mergeSort order_trans order_total ds).imp isLE_order_iff.1

end Diagnostic

private theorem Suppression.suppresses_eq_false_iff {decl : Node} {lint : Lint} :
    suppresses decl lint = false ↔ ∀ a ∈ decl.attributes, a.attributeName? = some "SuppressMessage" →
      ∀ s ∈ strings a, namesLint s.text lint = false := by
  simp [suppresses]

/-- What reports that repeat each other have in common. -/
def Report.key (r : Report) : String × Nat × Nat := (r.lint.id, r.node.start, r.node.stop)

namespace Engine

/-! ### Which reports are kept -/

private theorem isRepeat_iff {a b : Report} : isRepeat a b = true ↔ a.key = b.key := by
  simp only [isRepeat, Report.key, Bool.and_eq_true, beq_iff_eq, Prod.mk.injEq, and_assoc]
  constructor
  · rintro ⟨hlint, hrest⟩
    exact ⟨congrArg Lint.id hlint, hrest⟩
  · rintro ⟨hid, hrest⟩
    exact ⟨Lint.id_injective hid, hrest⟩

/-- A report is heard in a text: its lint is not quiet, no directive has switched it off where the report starts, and no
declaration that is or holds the place of the report carries a suppression. -/
structure Hears (e : Engine) (text : String) (r : Report) : Prop where
  loud : e.settings.levelFor r.lint ≠ .allow
  enabled : Pragma.isDisabled (Pragma.parse text) r.lint r.node.start = false
  unsuppressed : ∀ decl ∈ r.node :: r.node.ancestors, Suppression.isCarrier decl = true →
    ∀ a ∈ decl.attributes, a.attributeName? = some "SuppressMessage" →
      ∀ s ∈ Suppression.strings a, Suppression.namesLint s.text r.lint = false

theorem isHeard_iff {e : Engine} {text : String} {r : Report} :
    e.isHeard (Pragma.parse text) r = true ↔ e.Hears text r := by
  have hlevel : (e.settings.levelFor r.lint).isEnabled = true ↔ e.settings.levelFor r.lint ≠ .allow := by
    cases e.settings.levelFor r.lint <;> decide
  have hunsuppressed : Suppression.isSuppressed r.node r.lint = false ↔
      ∀ decl ∈ r.node :: r.node.ancestors, Suppression.isCarrier decl = true →
        Suppression.suppresses decl r.lint = false := by
    simp [Suppression.isSuppressed]
  simp only [isHeard, Bool.and_eq_true, Bool.not_eq_true', hlevel, hunsuppressed, Suppression.suppresses_eq_false_iff]
  constructor
  · rintro ⟨⟨hloud, henabled⟩, hrest⟩
    exact ⟨hloud, henabled, hrest⟩
  · rintro ⟨hloud, henabled, hrest⟩
    exact ⟨⟨hloud, henabled⟩, hrest⟩

/-- From a list of reports those are selected that some condition on the reports before them lets through. -/
inductive Selects (lets : List Report → Report → Prop) : List Report → List Report → Prop
  | nil : Selects lets [] []
  | keep {rs kept : List Report} {r : Report} (h : Selects lets rs kept) (hr : lets rs r) :
    Selects lets (rs ++ [r]) (kept ++ [r])
  | drop {rs kept : List Report} {r : Report} (h : Selects lets rs kept) (hr : ¬lets rs r) :
    Selects lets (rs ++ [r]) kept

/-- A report is heard, and no report before it that is heard is about the same. -/
def IsFirst (hears : Report → Prop) (before : List Report) (r : Report) : Prop :=
  hears r ∧ ∀ s ∈ before, hears s → s.key ≠ r.key

private theorem distinct_append (rs : List Report) (r : Report) :
    distinct (rs ++ [r]) = if (distinct rs).any (isRepeat r) then distinct rs else distinct rs ++ [r] :=
  List.foldl_append

private theorem mem_of_mem_distinct {rs : List Report} {r : Report} (h : r ∈ distinct rs) : r ∈ rs := by
  induction rs using List.reverseRecOn with
  | nil => exact h
  | append_singleton rs s ih =>
    rw [distinct_append] at h
    split at h
    · exact List.mem_append_left _ (ih h)
    · rcases List.mem_append.1 h with h | h
      · exact List.mem_append_left _ (ih h)
      · exact List.mem_append_right _ h

/-- Of reports that repeat each other one is left. -/
private theorem exists_mem_distinct {rs : List Report} {r : Report} (h : r ∈ rs) :
    ∃ s ∈ distinct rs, s.key = r.key := by
  induction rs using List.reverseRecOn with
  | nil => cases h
  | append_singleton rs s ih =>
    rw [distinct_append]
    split
    case isTrue hany =>
      rcases List.mem_append.1 h with h | h
      · exact ih h
      · cases List.mem_singleton.1 h
        obtain ⟨k, hk, hrepeat⟩ := List.any_eq_true.1 hany
        exact ⟨k, hk, (isRepeat_iff.1 hrepeat).symm⟩
    case isFalse =>
      rcases List.mem_append.1 h with h | h
      · obtain ⟨k, hk, hkey⟩ := ih h
        exact ⟨k, List.mem_append_left _ hk, hkey⟩
      · exact ⟨r, List.mem_append_right _ h, rfl⟩

private theorem any_distinct_iff {rs : List Report} {r : Report} :
    (distinct rs).any (isRepeat r) = true ↔ ∃ s ∈ rs, s.key = r.key := by
  rw [List.any_eq_true]
  constructor
  · rintro ⟨s, hs, hrepeat⟩
    exact ⟨s, mem_of_mem_distinct hs, (isRepeat_iff.1 hrepeat).symm⟩
  · rintro ⟨s, hs, hkey⟩
    obtain ⟨k, hk, hkey'⟩ := exists_mem_distinct hs
    exact ⟨k, hk, isRepeat_iff.2 (hkey'.trans hkey).symm⟩

/-- What is left of the reports that are heard, without repetitions: a report that is not heard stands in the way of
none. -/
theorem selects_distinct {hears : Report → Prop} {p : Report → Bool} (hp : ∀ r, p r = true ↔ hears r)
    (rs : List Report) : Selects (IsFirst hears) rs (distinct (rs.filter p)) := by
  induction rs using List.reverseRecOn with
  | nil => exact .nil
  | append_singleton rs r ih =>
    rw [List.filter_append]
    by_cases hr : p r = true
    · rw [List.filter_cons_of_pos hr, List.filter_nil, distinct_append]
      split
      case isTrue hany =>
        obtain ⟨s, hs, hkey⟩ := any_distinct_iff.1 hany
        obtain ⟨hmem, hheard⟩ := List.mem_filter.1 hs
        exact .drop ih fun hfirst => hfirst.2 s hmem ((hp s).1 hheard) hkey
      case isFalse hany =>
        refine .keep ih ⟨(hp r).1 hr, fun s hs hheard hkey => hany (any_distinct_iff.2 ?_)⟩
        exact ⟨s, List.mem_filter.2 ⟨hs, (hp s).2 hheard⟩, hkey⟩
    · rw [List.filter_cons_of_neg hr, List.filter_nil, List.append_nil]
      exact .drop ih fun hfirst => hr ((hp r).2 hfirst.1)

namespace Selects

variable {hears : Report → Prop} {rs kept : List Report}

theorem mem (h : Selects (IsFirst hears) rs kept) {r : Report} (hr : r ∈ kept) : r ∈ rs ∧ hears r := by
  induction h with
  | nil => cases hr
  | keep _ hfirst ih =>
    rcases List.mem_append.1 hr with hr | hr
    · exact ⟨List.mem_append_left _ (ih hr).1, (ih hr).2⟩
    · cases List.mem_singleton.1 hr
      exact ⟨List.mem_append_right _ hr, hfirst.1⟩
  | drop _ _ ih => exact ⟨List.mem_append_left _ (ih hr).1, (ih hr).2⟩

theorem pairwise (h : Selects (IsFirst hears) rs kept) : kept.Pairwise fun a b => a.key ≠ b.key := by
  induction h with
  | nil => exact .nil
  | keep hselects hfirst ih =>
    refine List.pairwise_append.2 ⟨ih, List.pairwise_singleton _ _, fun a ha b hb => ?_⟩
    cases List.mem_singleton.1 hb
    exact hfirst.2 a (hselects.mem ha).1 (hselects.mem ha).2
  | drop _ _ ih => exact ih

end Selects

/-! ### The findings of a run -/

private theorem eq_nil_of_excluded {e : Engine} {m : Model} {d : Document} {root : Node} {found : List Diagnostic}
    (hfound : e.lintDocument m d root = some found) (h : e.exclusion.excludesFile d.toSourceFile = true) :
    found = [] := by
  rw [lintDocument, if_pos h] at hfound
  exact (Option.some.inj hfound).symm

private theorem exists_selects {e : Engine} {m : Model} {d : Document} {root : Node} {found : List Diagnostic}
    (hfound : e.lintDocument m d root = some found) (h : e.exclusion.excludesFile d.toSourceFile = false) :
    ∃ rs kept, e.reports m root = some rs ∧ Selects (IsFirst (e.Hears d.text)) rs kept ∧
      found = kept.map (e.finding d.toSourceFile) := by
  rw [lintDocument, if_neg (by simp [h])] at hfound
  obtain ⟨rs, hrs, rfl⟩ := Option.map_eq_some_iff.1 hfound
  exact ⟨rs, _, hrs, selects_distinct (fun r => isHeard_iff) rs, rfl⟩

/-- Two findings of one document differ in their lint or in their stretch. -/
private theorem pairwise_lintDocument {e : Engine} {m : Model} {d : Document} {root : Node} {found : List Diagnostic}
    (hfound : e.lintDocument m d root = some found) :
    found.Pairwise fun x y => (x.lint.id, x.span.start, x.span.stop) ≠ (y.lint.id, y.span.start, y.span.stop) := by
  cases h : e.exclusion.excludesFile d.toSourceFile with
  | true =>
    rw [eq_nil_of_excluded hfound h]
    exact .nil
  | false =>
    obtain ⟨rs, kept, -, hselects, rfl⟩ := exists_selects hfound h
    rw [List.pairwise_map]
    exact hselects.pairwise

theorem exists_report {e : Engine} {m : Model} {d : Document} {root : Node} {found : List Diagnostic}
    (hfound : e.lintDocument m d root = some found) {x : Diagnostic} (hx : x ∈ found) :
    ∃ rs, e.reports m root = some rs ∧ ∃ r ∈ rs, e.Hears d.text r ∧ x = e.finding d.toSourceFile r := by
  cases h : e.exclusion.excludesFile d.toSourceFile with
  | true =>
    rw [eq_nil_of_excluded hfound h] at hx
    cases hx
  | false =>
    obtain ⟨rs, kept, hrs, hselects, rfl⟩ := exists_selects hfound h
    obtain ⟨r, hr, rfl⟩ := List.mem_map.1 hx
    exact ⟨rs, hrs, r, (hselects.mem hr).1, (hselects.mem hr).2, rfl⟩

/-- The findings of a run are sorted, and are those of the documents taken together. The findings of a document are the
reports that are heard there and are the first of their kind, in the order in which they are made; no two of them agree
in lint and stretch, none is at a level that is not shown or at a place where its lint is switched off. -/
theorem run_output {e : Engine} {c : Compilation} {cancelled : Bool} {ds : List Diagnostic}
    (h : run e c cancelled = some (.ok ds)) :
    ds.Pairwise Diagnostic.Precedes ∧
    (∃ all, gather (fun (d, root) => e.lintDocument c.model d root) (c.documents.zip c.roots) = some all ∧
      ds.Perm all) ∧
    (∀ d root, (d, root) ∈ c.documents.zip c.roots → ∃ found, e.lintDocument c.model d root = some found ∧
      (e.exclusion.excludesFile d.toSourceFile = true → found = []) ∧
      (e.exclusion.excludesFile d.toSourceFile = false →
        ∃ rs kept, e.reports c.model root = some rs ∧ Selects (IsFirst (e.Hears d.text)) rs kept ∧
          found = kept.map (e.finding d.toSourceFile)) ∧
      found.Pairwise fun x y => (x.lint.id, x.span.start, x.span.stop) ≠ (y.lint.id, y.span.start, y.span.stop)) ∧
    ∀ x ∈ ds, x.level ≠ .allow ∧ x.level = e.settings.levelFor x.lint ∧
      ∃ d root, (d, root) ∈ c.documents.zip c.roots ∧ ∃ rs, e.reports c.model root = some rs ∧
        ∃ r ∈ rs, e.Hears d.text r ∧ x = e.finding d.toSourceFile r := by
  cases cancelled with
  | true => cases h
  | false =>
    obtain ⟨_, hlint, heq⟩ := Option.map_eq_some_iff.1 h
    cases heq
    obtain ⟨all, hall, rfl⟩ := Option.map_eq_some_iff.1 hlint
    have hperm := List.mergeSort_perm all fun a b => (Diagnostic.order a b).isLE
    refine ⟨Diagnostic.pairwise_sort _, ⟨all, hall, hperm⟩, fun d root hdoc => ?_, fun x hx => ?_⟩
    · obtain ⟨found, hfound, -⟩ := exists_of_mem_gather hall hdoc
      exact ⟨found, hfound, eq_nil_of_excluded hfound, exists_selects hfound, pairwise_lintDocument hfound⟩
    · obtain ⟨⟨d, root⟩, hdoc, found, hfound, hmem⟩ := exists_of_mem_result hall (hperm.mem_iff.1 hx)
      obtain ⟨rs, hrs, r, hr, hheard, rfl⟩ := exists_report hfound hmem
      exact ⟨hheard.loud, rfl, d, root, hdoc, rs, hrs, r, hr, hheard, rfl⟩

namespace Sample

open Sketch

/-- `class C{[…]void M(Stream p){p.Dispose();}void N(Stream q){q.Dispose();}}`, where the attribute speaks for `M`. -/
def partly : Compilation :=
  .ofDocuments [document "C.cs"
    [classOf "C"
      [marked (mark "SuppressMessage" "X" "IDISP007")
        (method [] void "M" [parameterOf "Stream" "p"] [statement (call (access (name "p") "Dispose") [])]),
       method [] void "N" [parameterOf "Stream" "q"] [statement (call (access (name "q") "Dispose") [])]]]]

/-- `class C{[…]static C operator +(C a,Stream b){b.Dispose();return a;}}` -/
def markedOperator : Compilation :=
  .ofDocuments [document "C.cs"
    [classOf "C"
      [marked (mark "SuppressMessage" "X" "IDISP007")
        (addition "C" [parameterOf "C" "a", token ",", parameterOf "Stream" "b"]
          [statement (call (access (name "b") "Dispose") []), returning (name "a")])]]]

end Sample

/-- Of two reports the one that is not suppressed becomes a finding. -/
theorem run_output_partly :
    (gather (Engine.default.reports Sample.partly.model) Sample.partly.roots).map List.length = some 2 ∧
    ∃ x, run .default Sample.partly false = some (.ok [x]) ∧ x.level ≠ .allow ∧
      ∃ d root, (d, root) ∈ Sample.partly.documents.zip Sample.partly.roots ∧
        ∃ rs, Engine.default.reports Sample.partly.model root = some rs ∧
          ∃ r ∈ rs, Engine.default.Hears d.text r ∧ x = Engine.default.finding d.toSourceFile r := by
  have hlength : (Engine.default.lint Sample.partly).map List.length = some 1 := by decide +kernel
  obtain ⟨ds, hds, hlength⟩ := Option.map_eq_some_iff.1 hlength
  obtain ⟨x, rfl⟩ := List.length_eq_one_iff.1 hlength
  have hrun : run .default Sample.partly false = some (.ok [x]) := run_eq_of_lint hds
  obtain ⟨-, -, -, hall⟩ := run_output hrun
  obtain ⟨hlevel, -, hreport⟩ := hall x (List.mem_singleton_self x)
  exact ⟨by decide +kernel, x, hrun, hlevel, hreport⟩

/-- An operator is a member of its type, and yet an attribute on it switches nothing off below it. -/
theorem run_hears_below_operator :
    ∃ ds, run .default Sample.markedOperator false = some (.ok ds) ∧
      ∃ d root, (d, root) ∈ Sample.markedOperator.documents.zip Sample.markedOperator.roots ∧
        ∃ rs, Engine.default.reports Sample.markedOperator.model root = some rs ∧ ∃ r ∈ rs,
          Engine.default.finding d.toSourceFile r ∈ ds ∧
          ∃ t ∈ Sample.markedOperator.types, ∃ decl ∈ Sample.markedOperator.members t,
            decl.isAbove r.node = true ∧ Suppression.suppresses decl r.lint = true := by
  have hany : ((Engine.default.lint Sample.markedOperator).any fun ds =>
      (Sample.markedOperator.documents.zip Sample.markedOperator.roots).any fun (d, root) =>
        (Engine.default.reports Sample.markedOperator.model root).any fun rs => rs.any fun r =>
          ds.contains (Engine.default.finding d.toSourceFile r) &&
            Sample.markedOperator.types.any fun t => (Sample.markedOperator.members t).any fun decl =>
              decl.isAbove r.node && Suppression.suppresses decl r.lint) = true := by
    decide +kernel
  simp only [Option.any_eq_true, List.any_eq_true, Bool.and_eq_true, List.contains_iff_mem] at hany
  obtain ⟨ds, hds, ⟨d, root⟩, hroot, rs, hrs, r, hr, hx, t, ht, decl, hdecl, habove, hsuppresses⟩ := hany
  exact ⟨ds, run_eq_of_lint hds, d, root, hroot, rs, hrs, r, hr, hx, t, ht, decl, hdecl, habove, hsuppresses⟩

end Engine

end Disposal

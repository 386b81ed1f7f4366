import Disposal.Engine
import Disposal.Proofs.Sketch

/-!
# Findings and what is left of them

The findings of a run are sorted by a total order that need not tell them apart, and of reports that repeat each other
the first is kept. Both commute with leaving out a part of the findings, so that leaving out files only takes findings
away and changes nothing about the others.

* `Diagnostic.filter_sort`: a part of the sorted findings is that part sorted;
* `Engine.gather_filter`: the same for what a task gives for one thing after the other;
* `Engine.distinct_filter`: and for reports without their repetitions;
* `Engine.run_excluding`: a run that leaves out paths.
-/

namespace Disposal

/-! ### Sorting a part of a list -/

/-- Two ways to cut a list in front of the first element that fails a test are the same. -/
private theorem append_inj_of_forall {α : Type} {q : α → Bool} {xs ys zs ws : List α} (h : xs ++ ys = zs ++ ws)
    (hxs : ∀ x ∈ xs, q x = true) (hys : ∀ y ∈ ys, q y = false) (hzs : ∀ z ∈ zs, q z = true)
    (hws : ∀ w ∈ ws, q w = false) : xs = zs ∧ ys = ws := by
  have hpart := congrArg (List.filter q) h
  rw [List.filter_append, List.filter_append, List.filter_eq_self.2 hxs, List.filter_eq_self.2 hzs,
    List.filter_eq_nil_iff.2 (by simpa using hys), List.filter_eq_nil_iff.2 (by simpa using hws), List.append_nil,
    List.append_nil] at hpart
  subst hpart
  exact ⟨rfl, List.append_cancel_left h⟩

/-- A part of a sorted list is that part sorted. -/
private theorem filter_mergeSort {α : Type} {le : α → α → Bool}
    (trans : ∀ a b c, le a b = true → le b c = true → le a c = true) (total : ∀ a b, (le a b || le b a) = true)
    (p : α → Bool) (l : List α) : (l.mergeSort le).filter p = (l.filter p).mergeSort le := by
  induction l with
  | nil => simp
  | cons a l ih =>
    obtain ⟨l₁, l₂, hal, hl, hbefore⟩ := List.mergeSort_cons trans total a l
    rw [hl, List.filter_append] at ih
    rw [hal, List.filter_append]
    cases hp : p a with
    | false => rw [List.filter_cons_of_neg (by simp [hp]), List.filter_cons_of_neg (by simp [hp]), ih]
    | true =>
      rw [List.filter_cons_of_pos hp, List.filter_cons_of_pos hp]
      obtain ⟨k₁, k₂, hak, hk, hbefore'⟩ := List.mergeSort_cons trans total a (l.filter p)
      have hsorted := List.pairwise_mergeSort trans total (a :: l)
      have hsorted' := List.pairwise_mergeSort trans total (a :: l.filter p)
      rw [hal] at hsorted
      rw [hak] at hsorted'
      -- in both lists the elements in front of `a` are those that `a` is not below
      have hafter := (List.pairwise_cons.1 (List.pairwise_append.1 hsorted).2.1).1
      have hafter' := (List.pairwise_cons.1 (List.pairwise_append.1 hsorted').2.1).1
      obtain ⟨h₁, h₂⟩ := append_inj_of_forall (q := fun b => !le a b) (ih.trans hk)
        (fun b hb => hbefore b (List.mem_filter.1 hb).1) (fun b hb => by simp [hafter b (List.mem_filter.1 hb).1])
        hbefore' (fun b hb => by simp [hafter' b hb])
      rw [h₁, h₂, hak]

namespace Diagnostic

/-! ### The order of reports -/

theorem compareFile_eq_compare (a b : Option String) : compareFile a b = compare a b := by
  cases a <;> cases b <;> rfl

private theorem order_eq_compareLex :
    order = compareLex (compareOn (·.file?)) (compareLex (compareOn (·.span.first.row))
      (compareLex (compareOn (·.span.first.column)) (compareOn (·.lint.id)))) := by
  funext a b
  rw [order, compareFile_eq_compare]
  rfl

instance : Std.TransCmp order := by
  rw [order_eq_compareLex]
  infer_instance

theorem order_trans (a b c : Diagnostic) (h : (order a b).isLE = true) (h' : (order b c).isLE = true) :
    (order a c).isLE = true :=
  Std.TransCmp.isLE_trans h h'

theorem order_total (a b : Diagnostic) : ((order a b).isLE || (order b a).isLE) = true := by
  have hswap : (order a b).isGE = (order b a).isLE := Std.OrientedCmp.isGE_eq_isLE
  rw [← hswap]
  cases order a b <;> rfl

theorem filter_sort (p : Diagnostic → Bool) (ds : List Diagnostic) : (sort ds).filter p = sort (ds.filter p) :=
  filter_mergeSort order_trans order_total p ds

end Diagnostic

namespace Engine

/-! ### One thing after the other -/

section

variable {α β γ : Type} {task : α → Option (List β)} {a : α} {as : List α} {bs : List β}

private theorem gather_cons_eq_some_iff :
    gather task (a :: as) = some bs ↔ ∃ front rest, task a = some front ∧ gather task as = some rest ∧
      front ++ rest = bs := by
  simp only [gather, List.mapM_cons, Option.bind_eq_bind, Option.map_eq_some_iff, Option.bind_eq_some_iff,
    Option.pure_def, Option.some.injEq]
  constructor
  · rintro ⟨_, ⟨front, hfront, rest, hrest, rfl⟩, rfl⟩
    exact ⟨front, rest.flatten, hfront, ⟨rest, hrest, rfl⟩, rfl⟩
  · rintro ⟨front, _, hfront, ⟨rest, hrest, rfl⟩, rfl⟩
    exact ⟨_, ⟨front, hfront, rest, hrest, rfl⟩, rfl⟩

/-- A task came to an end for each of the things, and what it gave is among the results. -/
theorem exists_of_mem_gather (h : gather task as = some bs) (ha : a ∈ as) :
    ∃ part, task a = some part ∧ part ⊆ bs := by
  induction as generalizing bs with
  | nil => cases ha
  | cons x as ih =>
    obtain ⟨front, rest, hfront, hrest, rfl⟩ := gather_cons_eq_some_iff.1 h
    rcases List.mem_cons.1 ha with rfl | ha
    · exact ⟨front, hfront, List.subset_append_left _ _⟩
    · obtain ⟨part, hpart, hsub⟩ := ih hrest ha
      exact ⟨part, hpart, List.Subset.trans hsub (List.subset_append_right _ _)⟩

/-- There is no result exactly if the task does not come to an end for one of the things. -/
theorem gather_eq_none_iff : gather task as = none ↔ ∃ a ∈ as, task a = none := by
  induction as with
  | nil => simp [gather]
  | cons a as ih =>
    have hcons : gather task (a :: as) = none ↔ task a = none ∨ gather task as = none := by
      simp only [gather, List.mapM_cons]
      cases task a with
      | none => simp
      | some front => cases as.mapM task <;> simp
    rw [hcons, ih]
    simp

theorem exists_of_mem_result (h : gather task as = some bs) {b : β} (hb : b ∈ bs) :
    ∃ a ∈ as, ∃ part, task a = some part ∧ b ∈ part := by
  induction as generalizing bs with
  | nil =>
    cases h
    cases hb
  | cons x as ih =>
    obtain ⟨front, rest, hfront, hrest, rfl⟩ := gather_cons_eq_some_iff.1 h
    rcases List.mem_append.1 hb with hb | hb
    · exact ⟨x, List.mem_cons_self, front, hfront, hb⟩
    · obtain ⟨a, ha, part, hpart⟩ := ih hrest hb
      exact ⟨a, List.mem_cons_of_mem x ha, part, hpart⟩

/-- Another task that does with each thing what a function makes of the result does so with all of them. -/
theorem gather_of_forall {task' : α → Option (List γ)} {f : List β → List γ} (hnil : f [] = [])
    (happend : ∀ xs ys, f (xs ++ ys) = f xs ++ f ys)
    (hf : ∀ a ∈ as, ∀ part, task a = some part → task' a = some (f part)) (h : gather task as = some bs) :
    gather task' as = some (f bs) := by
  induction as generalizing bs with
  | nil =>
    have hbs : [] = bs := Option.some.inj h
    rw [← hbs, hnil]
    rfl
  | cons a as ih =>
    obtain ⟨front, rest, hfront, hrest, rfl⟩ := gather_cons_eq_some_iff.1 h
    rw [happend]
    refine gather_cons_eq_some_iff.2 ⟨_, _, hf a List.mem_cons_self front hfront, ?_, rfl⟩
    exact ih (fun x hx => hf x (List.mem_cons_of_mem a hx)) hrest

/-- What a task gives for some of the things, where a test on the results tells for which of them they are. -/
theorem gather_filter {p : α → Bool} {q : β → Bool}
    (hq : ∀ a ∈ as, ∀ part, task a = some part → ∀ b ∈ part, q b = p a) (h : gather task as = some bs) :
    gather task (as.filter p) = some (bs.filter q) := by
  induction as generalizing bs with
  | nil =>
    cases h
    rfl
  | cons a as ih =>
    obtain ⟨front, rest, hfront, hrest, rfl⟩ := gather_cons_eq_some_iff.1 h
    have hpart := hq a List.mem_cons_self front hfront
    have ih := ih (fun x hx => hq x (List.mem_cons_of_mem a hx)) hrest
    rw [List.filter_append]
    cases hp : p a with
    | false =>
      have hnone : front.filter q = [] := by
        rw [List.filter_eq_nil_iff]
        intro b hb
        rw [hpart b hb, hp]
        exact Bool.false_ne_true
      rw [List.filter_cons_of_neg (by simp [hp]), hnone, ih, List.nil_append]
    | true =>
      have hall : front.filter q = front := by
        rw [List.filter_eq_self]
        intro b hb
        rw [hpart b hb, hp]
      rw [List.filter_cons_of_pos hp, hall]
      exact gather_cons_eq_some_iff.2 ⟨front, _, hfront, ih, rfl⟩

end

/-! ### Repetitions -/

/-- Reports are kept or left out together with their repetitions. -/
theorem distinct_filter {q : Report → Bool} (hq : ∀ a b, isRepeat a b = true → q a = q b) (rs : List Report) :
    distinct (rs.filter q) = (distinct rs).filter q := by
  -- generalized to what has been kept so far
  have key : ∀ kept : List Report,
      (rs.filter q).foldl (fun kept r => if kept.any (isRepeat r) then kept else kept ++ [r]) (kept.filter q) =
        (rs.foldl (fun kept r => if kept.any (isRepeat r) then kept else kept ++ [r]) kept).filter q := by
    induction rs with
    | nil => intro kept; rfl
    | cons r rs ih =>
      intro kept
      rw [List.foldl_cons, ← ih]
      cases hr : q r with
      | false =>
        rw [List.filter_cons_of_neg (by simp [hr])]
        split
        · rfl
        · rw [List.filter_append, List.filter_cons_of_neg (by simp [hr]), List.filter_nil, List.append_nil]
      | true =>
        have hany : (kept.filter q).any (isRepeat r) = kept.any (isRepeat r) := by
          rw [List.any_filter]
          congr 1
          funext b
          cases hb : isRepeat r b with
          | false => rw [Bool.and_false]
          | true => rw [← hq r b hb, hr, Bool.and_true]
        rw [List.filter_cons_of_pos hr, List.foldl_cons, hany]
        split
        · rfl
        · rw [List.filter_append, List.filter_cons_of_pos hr, List.filter_nil]
  exact key []

/-! ### Paths that are left out -/

/-- The same engine, which leaves out no path. -/
def withoutPaths (e : Engine) : Engine :=
  { e with exclusion := { e.exclusion with isExcluded := fun _ => false } }

/-- Whether a finding lies in a file that is not left out by its path. -/
def keepsPath (e : Engine) (d : Diagnostic) : Bool := !d.file?.any e.exclusion.excludesPath

private theorem file?_of_mem_lintDocument {e : Engine} {m : Model} {d : Document} {root : Node} {ds : List Diagnostic}
    (h : e.lintDocument m d root = some ds) {x : Diagnostic} (hx : x ∈ ds) : x.file? = d.path? := by
  unfold lintDocument at h
  split at h
  · cases h
    cases hx
  · obtain ⟨rs, -, rfl⟩ := Option.map_eq_some_iff.1 h
    obtain ⟨r, -, rfl⟩ := List.mem_map.1 hx
    rfl

private theorem excludesFile_eq_or (e : Engine) (f : SourceFile) :
    e.exclusion.excludesFile f =
      (f.path?.any e.exclusion.excludesPath || e.withoutPaths.exclusion.excludesFile f) := by
  have hpath : f.path?.any e.withoutPaths.exclusion.excludesPath = false := by
    cases f.path? <;> rfl
  rw [Exclusion.excludesFile, Exclusion.excludesFile, hpath, Bool.false_or]
  rfl

/-- A document that is left out is not looked at. -/
private theorem lintDocument_of_withoutPaths {e : Engine} {m : Model} {d : Document} {root : Node}
    {ds : List Diagnostic} (h : e.withoutPaths.lintDocument m d root = some ds) :
    e.lintDocument m d root = some (ds.filter e.keepsPath) := by
  cases hpath : d.path?.any e.exclusion.excludesPath with
  | true =>
    have hnone : ds.filter e.keepsPath = [] := by
      rw [List.filter_eq_nil_iff]
      intro x hx
      rw [keepsPath, file?_of_mem_lintDocument h hx, hpath]
      exact Bool.false_ne_true
    rw [hnone, lintDocument, excludesFile_eq_or, hpath]
    rfl
  | false =>
    have hall : ds.filter e.keepsPath = ds := by
      rw [List.filter_eq_self]
      intro x hx
      rw [keepsPath, file?_of_mem_lintDocument h hx, hpath]
      rfl
    rw [hall, ← h, lintDocument, excludesFile_eq_or, hpath]
    rfl

theorem run_eq_of_lint {e : Engine} {c : Compilation} {ds : List Diagnostic} (h : e.lint c = some ds) :
    run e c false = some (.ok ds) := by
  rw [run, if_neg Bool.false_ne_true, h]
  rfl

/-- Every document is looked at with the same knowledge of all of them, whether they are left out or not. -/
private theorem lint_of_withoutPaths {e : Engine} {c : Compilation} {ds : List Diagnostic}
    (h : e.withoutPaths.lint c = some ds) : e.lint c = some (ds.filter e.keepsPath) := by
  obtain ⟨found, hfound, rfl⟩ := Option.map_eq_some_iff.1 h
  rw [Diagnostic.filter_sort]
  refine Option.map_eq_some_iff.2 ⟨_, ?_, rfl⟩
  exact gather_of_forall rfl List.filter_append (fun _ _ _ => lintDocument_of_withoutPaths) hfound

/-- A run that leaves out paths finds what a run over all paths finds, in the same order, less what lies in files with
these paths. It comes to an end whenever the run over all paths does. -/
theorem run_excluding (rules : List Rule) (settings : Settings) (isExcluded : String → Bool) (analyzeGenerated : Bool)
    (c : Compilation) (cancelled : Bool) {result : Except Failure (List Diagnostic)}
    (h : run ⟨rules, settings, ⟨fun _ => false, analyzeGenerated⟩⟩ c cancelled = some result) :
    run ⟨rules, settings, ⟨isExcluded, analyzeGenerated⟩⟩ c cancelled =
      some (result.map (List.filter fun d => !d.file?.any fun path => isExcluded (Exclusion.normalize path))) := by
  cases cancelled with
  | true =>
    cases h
    rfl
  | false =>
    obtain ⟨ds, hds, rfl⟩ := Option.map_eq_some_iff.1 h
    exact run_eq_of_lint (lint_of_withoutPaths (e := ⟨rules, settings, ⟨isExcluded, analyzeGenerated⟩⟩) hds)

namespace Sample

open Sketch

/-- `class C{void M(Stream p){p.Dispose();}}` and `class D{}`, in two directories. -/
def apart : Compilation :=
  .ofDocuments
    [document "a/C.cs"
      [classOf "C"
        [method [] void "M" [parameterOf "Stream" "p"] [statement (call (access (name "p") "Dispose") [])]]],
     document "b/D.cs" [classOf "D" []]]

end Sample

/-- The theorem where the only file with a finding is left out. -/
theorem run_excluding_apart :
    ∃ x, run ⟨Rule.stable, {}, ⟨fun _ => false, false⟩⟩ Sample.apart false = some (.ok [x]) ∧
      x.file? = some "a/C.cs" ∧
      run ⟨Rule.stable, {}, ⟨(· == "a/C.cs"), false⟩⟩ Sample.apart false = some (.ok []) := by
  have hfiles : (lint ⟨Rule.stable, {}, ⟨fun _ => false, false⟩⟩ Sample.apart).map (List.map (·.file?)) =
      some [some "a/C.cs"] := by decide +kernel
  obtain ⟨found, hfound, hfiles⟩ := Option.map_eq_some_iff.1 hfiles
  obtain ⟨x, rfl⟩ := List.length_eq_one_iff.1 ((List.length_map _).symm.trans (congrArg List.length hfiles))
  have hfile : x.file? = some "a/C.cs" := List.singleton_inj.1 hfiles
  have hrun : run ⟨Rule.stable, {}, ⟨fun _ => false, false⟩⟩ Sample.apart false = some (.ok [x]) :=
    run_eq_of_lint hfound
  have hgone : [x].filter (fun d => !d.file?.any fun path => Exclusion.normalize path == "a/C.cs") = [] := by
    rw [List.filter_eq_nil_iff]
    intro y hy
    rw [List.mem_singleton.1 hy, hfile]
    decide
  have hleft := run_excluding Rule.stable {} (· == "a/C.cs") false Sample.apart false hrun
  exact ⟨x, hrun, hfile, hleft.trans (congrArg (fun ds => some (Except.ok ds)) hgone)⟩

end Engine

end Disposal

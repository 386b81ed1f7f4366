import Disposal.Proofs.Circles
import Disposal.Proofs.Dispatch
import Disposal.Proofs.Output
import Disposal.Proofs.Sites

/-!
# Selections and levels

Which rules run, and how loudly their lints speak, decides only which of all findings are reported and with which
level. A lint that is skipped, disabled or given the level `allow` disappears in the same way. But a rule that is quiet
still looks: where it never comes to an end, a run with its lint at the level `allow` has no end either.

* `Lint.eq_of_answersTo`: a word stands for one lint at most;
* `Rule.lint_of_mem_check`: every rule reports under its own lint;
* `Engine.Narrows.lint`: an engine with some of the rules finds a part of what all of them find;
* `Engine.lint_build_of_full`: the engine that a selection and a configuration ask for;
* `Engine.lint_eq_none_iff`: when a run has no end;
* `ForeignValue.check_eq_none`: a loop at which the rule for foreign values has none.
-/

namespace Disposal

/-! ### Words for lints -/

namespace Lint

/-- A word stands for one lint at most. -/
theorem eq_of_answersTo {a b : Lint} {word : String} (ha : a.answersTo word = true) (hb : b.answersTo word = true) :
    a = b := by
  have names : ∀ a ∈ all, ∀ b ∈ all, a.name = b.name → a = b := by decide +kernel
  have ids : ∀ a ∈ all, ∀ b ∈ all, Text.lower a.id = Text.lower b.id → a = b := by decide +kernel
  have mixed : ∀ a ∈ all, ∀ b ∈ all, Text.lower a.id ≠ Text.lower b.name := by decide +kernel
  simp only [answersTo, Bool.or_eq_true, beq_iff_eq] at ha hb
  rcases ha with rfl | ha
  · rcases hb with hb | hb
    · exact names a a.mem_all b b.mem_all hb.symm
    · exact absurd hb (mixed b b.mem_all a a.mem_all)
  · rcases hb with rfl | hb
    · exact absurd ha (mixed a a.mem_all b b.mem_all)
    · exact ids a a.mem_all b b.mem_all (ha.trans hb.symm)

private theorem answersTo_eq_beq {a : Lint} {word : String} (ha : a.answersTo word = true) (b : Lint) :
    b.answersTo word = (b == a) := by
  rw [Bool.eq_iff_iff, beq_iff_eq]
  constructor
  · intro hb
    exact eq_of_answersTo hb ha
  · rintro rfl
    exact ha

private theorem ofName?_eq_some_iff {word : String} {l : Lint} : ofName? word = some l ↔ l.answersTo word = true := by
  unfold ofName?
  constructor
  · intro h
    simpa using List.find?_some h
  · intro h
    cases hf : all.find? (·.answersTo word) with
    | none => exact absurd h (List.find?_eq_none.1 hf l l.mem_all)
    | some k =>
      have hk : k.answersTo word = true := by simpa using List.find?_some hf
      rw [eq_of_answersTo hk h]

end Lint

private theorem Selection.names_eq_any (words : List String) (l : Lint) : names words l = words.any l.answersTo := by
  unfold names
  congr 1
  funext w
  rw [Bool.eq_iff_iff, beq_iff_eq, Lint.ofName?_eq_some_iff]

/-! ### Rules and their lints -/

section

variable {m : Model} {n : Node} {x r : Report} {rs : List Report}

theorem eq_of_mem_ite {p : Prop} [Decidable p] (h : x ∈ if p then [r] else []) : x = r := by
  split at h
  · exact List.mem_singleton.1 h
  · cases h

theorem CreatedLocal.lint_of_mem_check (hx : x ∈ check m n) : x.lint = .disposeCreated := by
  unfold check at hx
  split at hx
  · cases hx
  · split at hx
    · split at hx
      · cases hx
      · cases List.mem_singleton.1 hx
        rfl
    · cases hx

private theorem OwnedMember.lint_of_mem_checkMember {member : Symbol} {place : Node}
    (hx : x ∈ checkMember m member place) : x.lint = .disposeMember := by
  cases eq_of_mem_ite hx
  rfl

theorem OwnedMember.lint_of_mem_check (hx : x ∈ check m n) : x.lint = .disposeMember := by
  unfold check at hx
  split at hx
  · exact lint_of_mem_checkMember hx
  · split at hx
    · cases hx
    · split at hx
      · exact lint_of_mem_checkMember hx
      · obtain ⟨d, -, hx⟩ := List.mem_flatMap.1 hx
        exact lint_of_mem_checkMember hx

theorem Reassignment.lint_of_mem_check (hx : x ∈ check m n) : x.lint = .disposePrevious := by
  unfold check at hx
  split at hx
  · cases hx
  · dsimp only at hx
    split at hx
    · cases hx
    · cases eq_of_mem_ite hx
      rfl

theorem IgnoredValue.lint_of_mem_check (hx : x ∈ check m n) : x.lint = .dontIgnoreCreated := by
  unfold check at hx
  split at hx
  · cases hx
  · cases eq_of_mem_ite hx
    rfl

private theorem ForeignValue.exists_report_of_mem_reportIfShared {values : List Node}
    (h : reportIfShared m values n = some rs) (hx : x ∈ rs) : ∃ shown, x = report shown := by
  obtain ⟨b, -, rfl⟩ := Option.map_eq_some_iff.1 h
  exact ⟨n, eq_of_mem_ite hx⟩

theorem ForeignValue.exists_report_of_mem_check (h : check m n = some rs) (hx : x ∈ rs) :
    ∃ shown, x = report shown := by
  -- a node with nothing to report at
  have hnone : some [] = some rs → ∃ shown, x = report shown := by
    rintro ⟨⟩
    cases hx
  unfold check at h
  split at h
  · split at h
    · exact exists_report_of_mem_reportIfShared h hx
    · exact hnone h
  · split at h
    · exact exists_report_of_mem_reportIfShared h hx
    · exact hnone h
  · split at h
    · split at h
      · exact hnone h
      · exact exists_report_of_mem_reportIfShared h hx
    · exact hnone h
  · exact hnone h

theorem BaseCall.lint_of_mem_check (hx : x ∈ check m n) : x.lint = .callBaseDispose := by
  unfold check at hx
  split at hx
  · cases eq_of_mem_ite hx
    rfl
  · cases hx

theorem Finalizer.lint_of_mem_check (hx : x ∈ check m n) : x.lint = .suppressFinalizeThis := by
  unfold check at hx
  split at hx
  · cases hx
  · cases eq_of_mem_ite hx
    rfl

/-- Every rule reports under its own lint. -/
theorem Rule.lint_of_mem_check {rule : Rule} (hr : rule ∈ all) (h : rule.check m n = some rs) (hx : x ∈ rs) :
    x.lint = rule.lint := by
  simp only [all, List.mem_cons, List.not_mem_nil, or_false] at hr
  rcases hr with rfl | rfl | rfl | rfl | rfl | rfl | rfl
  case inr.inr.inr.inr.inl =>
    obtain ⟨shown, rfl⟩ := ForeignValue.exists_report_of_mem_check h hx
    rfl
  all_goals cases h
  · exact CreatedLocal.lint_of_mem_check hx
  · exact OwnedMember.lint_of_mem_check hx
  · exact Reassignment.lint_of_mem_check hx
  · exact IgnoredValue.lint_of_mem_check hx
  · exact BaseCall.lint_of_mem_check hx
  · exact Finalizer.lint_of_mem_check (m := m) hx

end

/-! ### Engines with some of the rules -/

/-- The same finding at another level. -/
def Diagnostic.atLevel (level : Lint → Level) (d : Diagnostic) : Diagnostic := { d with level := level d.lint }

/-- The order of reports does not look at levels. -/
private theorem Diagnostic.map_atLevel_sort (level : Lint → Level) (ds : List Diagnostic) :
    (sort ds).map (atLevel level) = sort (ds.map (atLevel level)) :=
  List.map_mergeSort fun _ _ _ _ => rfl

namespace Engine

/-- The engine with every rule, in which every lint has its own level. -/
def full (exclusion : Exclusion) : Engine := { rules := Rule.all, exclusion }

section

variable {e wide : Engine} {select : Lint → Bool} {c : Compilation} {ds : List Diagnostic}

private theorem mem_rules_of_mem_dispatch {root : Node} {call : Rule × Node} (h : call ∈ e.dispatch root) :
    call.1 ∈ e.rules := by
  obtain ⟨n, -, hn⟩ := List.mem_flatMap.1 h
  obtain ⟨r, hr, rfl⟩ := List.mem_map.1 hn
  exact Registry.mem_of_mem_rulesFor hr

private theorem mem_preorder_of_mem_dispatch {doc : Nat} {tree : Tree} {call : Rule × Node}
    (h : call ∈ e.dispatch (.root doc tree)) : call.2 ∈ (Node.root doc tree).preorder := by
  obtain ⟨n, hn, hcall⟩ := List.mem_flatMap.1 h
  obtain ⟨r, -, rfl⟩ := List.mem_map.1 hcall
  rw [Exclusion.visible_eq_filter] at hn
  exact (List.mem_filter.1 hn).1

/-- In a file that is looked at, a rule for the lint does not come to an end at a node that it is handed. -/
def StallsAt (e : Engine) (c : Compilation) (l : Lint) : Prop :=
  ∃ d root, (d, root) ∈ c.documents.zip c.roots ∧ e.exclusion.excludesFile d.toSourceFile = false ∧
    ∃ call ∈ e.dispatch root, call.1.lint = l ∧ call.1.check c.model call.2 = none

private theorem lintDocument_eq_none_iff {m : Model} {d : Document} {root : Node} :
    e.lintDocument m d root = none ↔
      e.exclusion.excludesFile d.toSourceFile = false ∧ ∃ call ∈ e.dispatch root, call.1.check m call.2 = none := by
  unfold lintDocument
  split
  · next hx => simp [hx]
  · next hx =>
    rw [Option.map_eq_none_iff, reports, gather_eq_none_iff]
    simp [hx]

/-- A run does not come to an end exactly if one of the rules does not. -/
theorem lint_eq_none_iff : e.lint c = none ↔ ∃ l, e.StallsAt c l := by
  show (gather _ (c.documents.zip c.roots)).map Diagnostic.sort = none ↔ _
  rw [Option.map_eq_none_iff, gather_eq_none_iff]
  constructor
  · rintro ⟨⟨d, root⟩, hdoc, hnone⟩
    obtain ⟨hfile, call, hcall, hcheck⟩ := lintDocument_eq_none_iff.1 hnone
    exact ⟨_, d, root, hdoc, hfile, call, hcall, rfl, hcheck⟩
  · rintro ⟨l, d, root, hdoc, hfile, call, hcall, -, hcheck⟩
    exact ⟨(d, root), hdoc, lintDocument_eq_none_iff.2 ⟨hfile, call, hcall, hcheck⟩⟩

/-- A finding has the level of its lint, which is loud enough, and one of the rules is for the lint. -/
private theorem spec_of_mem_lint (hrules : ∀ r ∈ e.rules, r ∈ Rule.all) (h : e.lint c = some ds) {d : Diagnostic}
    (hd : d ∈ ds) : d.level = e.settings.levelFor d.lint ∧ (e.settings.levelFor d.lint).isEnabled = true ∧
      ∃ r ∈ e.rules, r.lint = d.lint := by
  obtain ⟨all, hall, rfl⟩ := Option.map_eq_some_iff.1 h
  obtain ⟨⟨file, root⟩, -, found, hfound, hmem⟩ := exists_of_mem_result hall ((List.mergeSort_perm ..).mem_iff.1 hd)
  obtain ⟨rs, hrs, x, hx, hheard, rfl⟩ := exists_report hfound hmem
  obtain ⟨⟨r, n⟩, hcall, part, hpart, hxpart⟩ := exists_of_mem_result hrs hx
  have hr := mem_rules_of_mem_dispatch hcall
  have hloud := (Bool.and_eq_true_iff.1 (Bool.and_eq_true_iff.1 (isHeard_iff.2 hheard)).1).1
  exact ⟨rfl, hloud, r, hr, (Rule.lint_of_mem_check (hrules r hr) hpart hxpart).symm⟩

/-- One engine has those rules of another that are for some lints, and leaves out the same places. -/
structure Narrows (e wide : Engine) (select : Lint → Bool) : Prop where
  exclusion : e.exclusion = wide.exclusion
  known : ∀ r ∈ wide.rules, r ∈ Rule.all
  rules : e.rules = wide.rules.filter fun r => select r.lint

namespace Narrows

variable (h : Narrows e wide select)

include h

private theorem dispatch_eq_filter (root : Node) :
    e.dispatch root = (wide.dispatch root).filter fun x => select x.1.lint := by
  unfold dispatch Registry.dispatch
  rw [h.exclusion, List.filter_flatMap]
  congr 1
  funext n
  rw [h.rules, Registry.rulesFor_filter, List.filter_map]
  rfl

private theorem stallsAt_iff {l : Lint} : e.StallsAt c l ↔ select l = true ∧ wide.StallsAt c l := by
  unfold StallsAt
  simp only [h.exclusion, h.dispatch_eq_filter, List.mem_filter]
  constructor
  · rintro ⟨d, root, hdoc, hfile, call, ⟨hcall, hselect⟩, rfl, hcheck⟩
    exact ⟨hselect, d, root, hdoc, hfile, call, hcall, rfl, hcheck⟩
  · rintro ⟨hselect, d, root, hdoc, hfile, call, hcall, rfl, hcheck⟩
    exact ⟨d, root, hdoc, hfile, call, ⟨hcall, hselect⟩, rfl, hcheck⟩

/-- What the fewer rules report is a part of what the others report, if these come to an end. -/
theorem reports {m : Model} {root : Node} {rs : List Report} (hwide : wide.reports m root = some rs) :
    e.reports m root = some (rs.filter fun x => select x.lint) := by
  rw [Engine.reports, h.dispatch_eq_filter]
  refine gather_filter (fun call hcall part hpart x hx => ?_) hwide
  rw [Rule.lint_of_mem_check (h.known _ (mem_rules_of_mem_dispatch hcall)) hpart hx]

variable (hloud : ∀ l, (e.settings.levelFor l).isEnabled = true → select l = true →
  (wide.settings.levelFor l).isEnabled = true)

include hloud

theorem lintDocument {m : Model} {d : Document} {root : Node} (hwide : wide.lintDocument m d root = some ds) :
    e.lintDocument m d root = some ((ds.filter fun x =>
      select x.lint && (e.settings.levelFor x.lint).isEnabled).map (Diagnostic.atLevel e.settings.levelFor)) := by
  unfold Engine.lintDocument at hwide ⊢
  rw [h.exclusion]
  split
  · next hx =>
    rw [if_pos hx] at hwide
    cases hwide
    rfl
  · next hx =>
    rw [if_neg hx] at hwide
    obtain ⟨rs, hrs, rfl⟩ := Option.map_eq_some_iff.1 hwide
    have hheard : (rs.filter fun x => select x.lint).filter (e.isHeard (Pragma.parse d.text)) =
        (rs.filter (wide.isHeard (Pragma.parse d.text))).filter
          fun x => select x.lint && (e.settings.levelFor x.lint).isEnabled := by
      rw [List.filter_filter, List.filter_filter]
      congr 1
      funext x
      have := hloud x.lint
      rw [isHeard, isHeard]
      grind
    rw [h.reports hrs, Option.map_some, hheard, distinct_filter, List.filter_map, List.map_map]
    · rfl
    · intro a b hab
      simp only [isRepeat, Bool.and_eq_true, beq_iff_eq] at hab
      rw [hab.1.1]

/-- An engine with fewer rules finds what the other one finds under their lints, as far as its settings let them speak,
and only the levels are others. -/
theorem lint (hwide : wide.lint c = some ds) :
    e.lint c = some ((ds.filter fun x =>
      select x.lint && (e.settings.levelFor x.lint).isEnabled).map (Diagnostic.atLevel e.settings.levelFor)) := by
  obtain ⟨found, hfound, rfl⟩ := Option.map_eq_some_iff.1 hwide
  rw [Diagnostic.filter_sort, Diagnostic.map_atLevel_sort]
  refine Option.map_eq_some_iff.2 ⟨_, ?_, rfl⟩
  refine gather_of_forall (f := fun ds => (ds.filter _).map _) rfl (fun xs ys => ?_) ?_ hfound
  · rw [List.filter_append, List.map_append]
  · exact fun _ _ _ => h.lintDocument hloud

omit hloud

/-- Nothing is lost with rules of which nothing is heard. -/
private theorem lint_of_silent (hsame : ∀ l, select l = true → e.settings.levelFor l = wide.settings.levelFor l)
    (hsilent : ∀ r ∈ wide.rules, select r.lint = false → (wide.settings.levelFor r.lint).isEnabled = false)
    (hwide : wide.lint c = some ds) : e.lint c = some ds := by
  have hall : ∀ d ∈ ds, select d.lint = true ∧ (e.settings.levelFor d.lint).isEnabled = true ∧
      d.atLevel e.settings.levelFor = d := by
    intro d hd
    obtain ⟨hlevel, henabled, r, hr, hlint⟩ := spec_of_mem_lint h.known hwide hd
    have hselect : select d.lint = true := by
      by_contra hnot
      rw [← hlint] at hnot henabled
      rw [hsilent r hr (by simpa using hnot)] at henabled
      cases henabled
    rw [Diagnostic.atLevel, hsame _ hselect, ← hlevel]
    exact ⟨hselect, hlevel ▸ henabled, rfl⟩
  rw [h.lint (fun l henabled hselect => hsame l hselect ▸ henabled) hwide]
  refine congrArg some ?_
  rw [List.filter_eq_self.2 fun d hd => Bool.and_eq_true_iff.2 ⟨(hall d hd).1, (hall d hd).2.1⟩]
  exact (List.map_congr_left fun d hd => (hall d hd).2.2).trans (List.map_id ds)

end Narrows

end

end Engine

/-! ### Configurations -/

private theorem Settings.lookup_ofNames (levels : List (String × Level)) (disabled : List String) (l : Lint) :
    (ofNames levels disabled).levels.lookup l = (levels.find? fun x => l.answersTo x.1).map (·.2) := by
  show (levels.filterMap fun x => (Lint.ofName? x.1).map (·, x.2)).lookup l = _
  induction levels with
  | nil => rfl
  | cons x levels ih =>
    rw [List.filterMap_cons]
    cases hl : l.answersTo x.1 with
    | true =>
      rw [Lint.ofName?_eq_some_iff.2 hl, List.find?_cons_of_pos (by exact hl)]
      simp
    | false =>
      rw [List.find?_cons_of_neg (by simp [hl]), ← ih]
      cases hx : Lint.ofName? x.1 with
      | none => rfl
      | some k =>
        have hne : (l == k) = false := by
          rw [beq_eq_false_iff_ne]
          rintro rfl
          rw [Lint.ofName?_eq_some_iff, hl] at hx
          cases hx
        simp [List.lookup_cons, hne]

namespace Config

/-- The function gives every lint the level that a configuration gives it, or else its own. There is one if no lint
is given two levels. -/
structure SetsLevels (c : Config) (level : Lint → Level) : Prop where
  listed : ∀ x ∈ c.levels, ∀ l, l.answersTo x.1 = true → level l = x.2
  unlisted : ∀ l, (∀ x ∈ c.levels, l.answersTo x.1 = false) → level l = l.defaultLevel

/-- Whether a lint is asked for: by name or, if none is named, by its group; and neither left out nor silenced. -/
def asksFor (c : Config) (s : Selection) (level : Lint → Level) (l : Lint) : Bool :=
  (if s.only.isEmpty then l.group == .stable || s.preview || c.preview else s.only.any l.answersTo) &&
    !s.skip.any l.answersTo && !c.disabled.any l.answersTo && level l != .allow

theorem SetsLevels.levelFor {c : Config} {level : Lint → Level} (h : c.SetsLevels level) (l : Lint) :
    c.settings.levelFor l = if c.disabled.any l.answersTo then .allow else level l := by
  have hdisabled : c.settings.disabled.contains l = c.disabled.any l.answersTo := by
    rw [← Selection.names_eq_any, Bool.eq_iff_iff, List.contains_iff_mem]
    show l ∈ c.disabled.filterMap Lint.ofName? ↔ _
    simp [Selection.names]
  have hlevel : (c.settings.levels.lookup l).getD l.defaultLevel = level l := by
    rw [settings, Settings.lookup_ofNames]
    cases hf : c.levels.find? fun x => l.answersTo x.1 with
    | none =>
      refine (h.unlisted l ?_).symm
      intro x hx
      simpa using List.find?_eq_none.1 hf x hx
    | some x => exact (h.listed x (List.mem_of_find?_eq_some hf) l (by simpa using List.find?_some hf)).symm
  rw [Settings.levelFor, hdisabled, hlevel]

/-- The selection with what the configuration adds to it. -/
def extend (c : Config) (s : Selection) : Selection :=
  { s with skip := s.skip ++ c.disabled, preview := s.preview || c.preview }

/-- A lint is asked for if it is selected and the settings let it speak. -/
private theorem SetsLevels.asksFor_eq {c : Config} {level : Lint → Level} (h : c.SetsLevels level) (s : Selection)
    (l : Lint) : c.asksFor s level l = ((c.extend s).selects l && (c.settings.levelFor l).isEnabled) := by
  rw [asksFor, Selection.selects, Selection.names_eq_any, Selection.names_eq_any, h.levelFor]
  show _ = ((if s.only.isEmpty then l.group == .stable || (s.preview || c.preview) else _) &&
    !(s.skip ++ c.disabled).any l.answersTo && _)
  rw [List.any_append]
  cases c.disabled.any l.answersTo with
  | true => simp [Level.isEnabled]
  | false => simp [Level.isEnabled, Bool.or_assoc, extend]

/-- All words that should stand for lints do. -/
def IsKnown (c : Config) (s : Selection) : Prop :=
  ∀ w ∈ s.only ++ s.skip ++ c.disabled, (Lint.ofName? w).isSome = true

end Config

namespace Engine

/-- The engine for a selection and a configuration of which all words are known. -/
private theorem build_eq_ok {s : Selection} {c : Config} {exclusion : Exclusion} (hx : c.exclusion = .ok exclusion)
    (hknown : c.IsKnown s) :
    build s c = .ok ⟨Rule.all.filter fun r => (c.extend s).selects r.lint, c.settings, exclusion⟩ := by
  have hrules : (c.extend s).rules = .ok (Rule.all.filter fun r => (c.extend s).selects r.lint) := by
    have hnone : (s.only ++ (s.skip ++ c.disabled)).find? (fun w => (Lint.ofName? w).isNone) = none := by
      rw [List.find?_eq_none]
      intro w hw
      have := hknown w (by rwa [List.append_assoc])
      simp [Option.isSome_iff_ne_none.1 this]
    unfold Selection.rules
    rw [show (c.extend s).only ++ (c.extend s).skip = s.only ++ (s.skip ++ c.disabled) from rfl, hnone]
  unfold build
  rw [hx]
  show ((c.extend s).rules.mapError SetupError.selection >>= fun rules =>
    Except.ok (Engine.mk rules c.settings exclusion)) = _
  rw [hrules]
  rfl

/-- The engine for a selection and a configuration finds those of all findings that are asked for. -/
private theorem exists_build {s : Selection} {c : Config} {exclusion : Exclusion} {level : Lint → Level}
    (hx : c.exclusion = .ok exclusion) (hknown : c.IsKnown s) (hlevel : c.SetsLevels level) :
    ∃ e, build s c = .ok e ∧ ∀ compilation ds, (full exclusion).lint compilation = some ds →
      e.lint compilation =
        some ((ds.filter fun d => c.asksFor s level d.lint).map (Diagnostic.atLevel level)) := by
  refine ⟨_, build_eq_ok hx hknown, ?_⟩
  intro compilation ds hds
  have hnarrows : Narrows ⟨Rule.all.filter fun r => (c.extend s).selects r.lint, c.settings, exclusion⟩
      (full exclusion) (c.extend s).selects := ⟨rfl, fun _ => id, rfl⟩
  -- without settings every lint is loud enough to be heard
  rw [hnarrows.lint (fun _ _ _ => rfl) hds]
  simp only [← hlevel.asksFor_eq]
  refine congrArg some (List.map_congr_left ?_)
  intro d hd
  -- a lint that is asked for is not disabled
  have hask := (List.mem_filter.1 hd).2
  simp only [Config.asksFor, Bool.and_eq_true, Bool.not_eq_true'] at hask
  show { d with level := c.settings.levelFor d.lint } = { d with level := level d.lint }
  rw [hlevel.levelFor, hask.1.2]
  rfl

end Engine

/-! ### Three ways to silence a lint -/

section

variable {c : Config} {s : Selection} {level : Lint → Level} {l : Lint} {word : String}
  (hword : l.answersTo word = true)

/-- The configuration in which a lint has the level `allow`, under some word for it. -/
def Config.allow (c : Config) (l : Lint) (word : String) : Config :=
  { c with levels := (word, .allow) :: c.levels.filter fun x => !l.answersTo x.1 }

include hword

private theorem Config.selects_skip (k : Lint) :
    (c.extend { s with skip := word :: s.skip }).selects k = ((c.extend s).selects k && k != l) := by
  simp only [extend, Selection.selects, Selection.names_eq_any, List.cons_append, List.any_cons,
    Lint.answersTo_eq_beq hword]
  cases h : k == l <;> simp [bne, h]

private theorem Config.selects_disable (k : Lint) :
    (Config.extend { c with disabled := word :: c.disabled } s).selects k = ((c.extend s).selects k && k != l) := by
  simp only [extend, Selection.selects, Selection.names_eq_any, List.any_append, List.any_cons,
    Lint.answersTo_eq_beq hword]
  cases h : k == l <;> simp [bne, h]

theorem Config.IsKnown.skip (h : c.IsKnown s) : c.IsKnown { s with skip := word :: s.skip } := by
  intro w hw
  simp only [List.mem_append, List.mem_cons] at hw
  rcases hw with (hw | rfl | hw) | hw
  · exact h w (by simp [hw])
  · rw [Lint.ofName?_eq_some_iff.2 hword]
    rfl
  · exact h w (by simp [hw])
  · exact h w (by simp [hw])

theorem Config.IsKnown.disable (h : c.IsKnown s) : Config.IsKnown { c with disabled := word :: c.disabled } s := by
  intro w hw
  simp only [List.mem_append, List.mem_cons] at hw
  rcases hw with (hw | hw) | rfl | hw
  · exact h w (by simp [hw])
  · exact h w (by simp [hw])
  · rw [Lint.ofName?_eq_some_iff.2 hword]
    rfl
  · exact h w (by simp [hw])

theorem Config.SetsLevels.allow (h : c.SetsLevels level) :
    (c.allow l word).SetsLevels fun k => if k = l then .allow else level k where
  listed x hx k hk := by
    rcases List.mem_cons.1 hx with rfl | hx
    · exact if_pos (Lint.eq_of_answersTo hk hword)
    · obtain ⟨hx, hl⟩ := List.mem_filter.1 hx
      have hne : k ≠ l := by
        rintro rfl
        simp [hk] at hl
      exact (if_neg hne).trans (h.listed x hx k hk)
  unlisted k hk := by
    have hne : k ≠ l := by
      rintro rfl
      have := hk (word, .allow) List.mem_cons_self
      rw [hword] at this
      cases this
    refine (if_neg hne).trans (h.unlisted k ?_)
    intro x hx
    cases hl : l.answersTo x.1 with
    | true => rw [Lint.answersTo_eq_beq hl, beq_eq_false_iff_ne]; exact hne
    | false => exact hk x (List.mem_cons_of_mem _ (List.mem_filter.2 ⟨hx, by simp [hl]⟩))

end

namespace Engine

private theorem narrows_of_selects {sel sel' select : Lint → Bool} (settings settings' : Settings)
    (exclusion : Exclusion) (h : ∀ k, sel k = (sel' k && select k)) :
    Narrows ⟨Rule.all.filter fun r => sel r.lint, settings, exclusion⟩
      ⟨Rule.all.filter fun r => sel' r.lint, settings', exclusion⟩ select where
  exclusion := rfl
  known _ hr := (List.mem_filter.1 hr).1
  rules := by
    rw [List.filter_filter]
    refine List.filter_congr fun r _ => ?_
    rw [h, Bool.and_comm]

/-- An engine that skips a lint, one that has it disabled and one that gives it the level `allow`. -/
private theorem exists_silencing {s : Selection} {c : Config} {exclusion : Exclusion} {level : Lint → Level}
    (hx : c.exclusion = .ok exclusion) (hknown : c.IsKnown s) (hlevel : c.SetsLevels level) {l : Lint} {word : String}
    (hword : l.answersTo word = true) :
    ∃ skipping disabling allowing,
      build { s with skip := word :: s.skip } c = .ok skipping ∧
      build s { c with disabled := word :: c.disabled } = .ok disabling ∧
      build s (c.allow l word) = .ok allowing ∧
      ∀ compilation, skipping.lint compilation = disabling.lint compilation ∧
        (∀ ds, allowing.lint compilation = some ds → skipping.lint compilation = some ds) ∧
        (allowing.lint compilation = none ↔
          skipping.lint compilation = none ∨ allowing.StallsAt compilation l) := by
  refine ⟨_, _, _, build_eq_ok hx (hknown.skip hword), build_eq_ok hx (hknown.disable hword), build_eq_ok hx hknown,
    fun compilation => ?_⟩
  have hskip := c.selects_skip (s := s) hword
  have hdisable := c.selects_disable (s := s) hword
  -- the three give the same levels to all lints but the silenced one
  have hallowed : ∀ k, (k != l) = true → c.settings.levelFor k = (c.allow l word).settings.levelFor k := by
    intro k hk
    rw [hlevel.levelFor, (hlevel.allow hword).levelFor, if_neg (bne_iff_ne.1 hk)]
    rfl
  have hdisabled : ∀ k, (k != l) = true →
      c.settings.levelFor k = Settings.levelFor (Config.settings { c with disabled := word :: c.disabled }) k := by
    intro k hk
    have hlevel' : Config.SetsLevels { c with disabled := word :: c.disabled } level :=
      ⟨hlevel.listed, hlevel.unlisted⟩
    rw [hlevel.levelFor, hlevel'.levelFor, List.any_cons, Lint.answersTo_eq_beq hword, beq_eq_false_iff_ne.2
      (bne_iff_ne.1 hk), Bool.false_or]
  refine ⟨?_, ?_, ?_⟩
  · refine Option.ext fun ds => ⟨fun h => ?_, fun h => ?_⟩
    · refine (narrows_of_selects _ _ exclusion fun k => ?_).lint_of_silent (fun k hk => (hdisabled k hk).symm) ?_ h
      · rw [hdisable, hskip, Bool.and_assoc, Bool.and_self]
      · intro r hr hrl
        rw [List.mem_filter, hskip, hrl, Bool.and_false] at hr
        cases hr.2
    · refine (narrows_of_selects _ _ exclusion fun k => ?_).lint_of_silent hdisabled ?_ h
      · rw [hdisable, hskip, Bool.and_assoc, Bool.and_self]
      · intro r hr hrl
        rw [List.mem_filter, hdisable, hrl, Bool.and_false] at hr
        cases hr.2
  · intro ds h
    refine (narrows_of_selects _ _ exclusion hskip).lint_of_silent hallowed (fun r _ hrl => ?_) h
    show ((c.allow l word).settings.levelFor r.lint).isEnabled = false
    rw [(hlevel.allow hword).levelFor, if_pos (show r.lint = l by simpa using hrl), ite_self]
    rfl
  · -- of the rules at work only those for the silenced lint are not left with the lint skipped
    have hnarrows := narrows_of_selects c.settings (c.allow l word).settings exclusion hskip
    rw [lint_eq_none_iff, lint_eq_none_iff]
    constructor
    · rintro ⟨k, hk⟩
      by_cases hkl : k = l
      · exact .inr (hkl ▸ hk)
      · exact .inl ⟨k, hnarrows.stallsAt_iff.2 ⟨bne_iff_ne.2 hkl, hk⟩⟩
    · rintro (⟨k, hk⟩ | hl)
      · exact ⟨k, (hnarrows.stallsAt_iff.1 hk).2⟩
      · exact ⟨l, hl⟩

/-- Where the engine with all rules comes to an end, the engine for a selection and a configuration finds those of its
findings that are asked for, in the same order and with nothing but the levels changed. Skipping a lint and disabling it
are the same, and so is giving it the level `allow`, unless a rule for the lint then never comes to an end. -/
theorem lint_build_of_full (s : Selection) (c : Config) (exclusion : Exclusion) (level : Lint → Level)
    (hx : c.exclusion = .ok exclusion) (hknown : c.IsKnown s) (hlevel : c.SetsLevels level) :
    (∃ e, build s c = .ok e ∧ ∀ compilation ds, (full exclusion).lint compilation = some ds →
      e.lint compilation =
        some ((ds.filter fun d => c.asksFor s level d.lint).map (Diagnostic.atLevel level))) ∧
    ∀ l word, l.answersTo word = true → ∃ skipping disabling allowing,
      build { s with skip := word :: s.skip } c = .ok skipping ∧
      build s { c with disabled := word :: c.disabled } = .ok disabling ∧
      build s (c.allow l word) = .ok allowing ∧
      ∀ compilation, skipping.lint compilation = disabling.lint compilation ∧
        (∀ ds, allowing.lint compilation = some ds → skipping.lint compilation = some ds) ∧
        (allowing.lint compilation = none ↔
          skipping.lint compilation = none ∨ allowing.StallsAt compilation l) :=
  ⟨exists_build hx hknown hlevel, fun _ _ hword => exists_silencing hx hknown hlevel hword⟩

namespace Sample

/-- A lint of the preview group is named, and one of the lints named is skipped under another word. -/
def selection : Selection := { only := ["IDISP001", "dispose_member", "dont_ignore_created"], skip := ["idisp002"] }

def config : Config :=
  { disabled := ["suppress_finalize_this"], levels := [("IDISP001", .error), ("idisp007", .allow)] }

def level : Lint → Level
  | .disposeCreated => .error
  | .dontDisposeInjected => .allow
  | _ => .warn

end Sample

/-- The theorem where lints are named, skipped, disabled and given levels under ids and names: a value from outside is
disposed, and the lint for that is silenced. -/
theorem lint_build_of_full_mixed :
    Sample.config.exclusion = .ok (.ofPatterns [] false) ∧ Sample.config.IsKnown Sample.selection ∧
      Sample.config.SetsLevels Sample.level ∧
      ∃ e ds, build Sample.selection Sample.config = .ok e ∧
        (full (.ofPatterns [] false)).lint Sample.apart = some ds ∧
        ds.map (·.lint) = [.dontDisposeInjected] ∧ e.lint Sample.apart = some [] := by
  have hx : Sample.config.exclusion = .ok (.ofPatterns [] false) := rfl
  have hknown : Sample.config.IsKnown Sample.selection := by
    unfold Config.IsKnown
    decide +kernel
  have hlisted : ∀ x ∈ Sample.config.levels, ∀ l ∈ Lint.all, l.answersTo x.1 = true → Sample.level l = x.2 := by
    decide +kernel
  have hlevel : Sample.config.SetsLevels Sample.level := by
    refine ⟨fun x hx l => hlisted x hx l l.mem_all, ?_⟩
    intro l hl
    cases l with
    | disposeCreated | dontDisposeInjected => exact absurd hl (by decide +kernel)
    | _ => rfl
  have hfull : ((full (.ofPatterns [] false)).lint Sample.apart).map (List.map (·.lint)) =
      some [.dontDisposeInjected] := by decide +kernel
  obtain ⟨ds, hds, hlints⟩ := Option.map_eq_some_iff.1 hfull
  obtain ⟨⟨e, he, hall⟩, -⟩ := lint_build_of_full Sample.selection Sample.config _ Sample.level hx hknown hlevel
  refine ⟨hx, hknown, hlevel, e, ds, he, hds, hlints, (hall _ ds hds).trans ?_⟩
  have hnone : ds.filter (fun d => Sample.config.asksFor Sample.selection Sample.level d.lint) = [] := by
    rw [List.filter_eq_nil_iff]
    intro d hd
    have hmem : d.lint ∈ ds.map (·.lint) := List.mem_map_of_mem hd
    rw [hlints, List.mem_singleton] at hmem
    rw [hmem]
    decide +kernel
  rw [hnone]
  rfl

end Engine

/-! ### Runs without end -/

section

open Sharing

/-- The rule for foreign values does not come to an end where a loop that runs through its own variable disposes it. -/
theorem ForeignValue.check_eq_none {c : Compilation} (hc : c.IsRead) {n receiver : Node} (hn : c.HasPlace n)
    (hr : n.disposeReceiver? = some receiver) (hlambda : insideLambda n = false)
    (hloop : isOfOwnLoop c.model receiver = true) : check c.model n = none := by
  obtain ⟨hk, name, hi⟩ := Node.disposeReceiver?_eq_some hr
  have hplace := (Ownership.lower_of_invoked? hn hk hi).1
  have hnone : c.model.mayBeShared receiver = none := mayBeShared_eq_none (isEndless_of_isOfOwnLoop hc hplace hloop [])
  rw [check, hk]
  simp only [hr, hlambda, Bool.false_eq_true, if_false, reportIfShared, List.anyM_cons, hnone]
  rfl

private theorem Rule.eq_foreignValue {r : Rule} (hr : r ∈ all) (h : r.lint = .dontDisposeInjected) :
    r = ForeignValue.rule := by
  simp only [all, List.mem_cons, List.not_mem_nil, or_false] at hr
  rcases hr with rfl | rfl | rfl | rfl | rfl | rfl | rfl
  case inr.inr.inr.inr.inl => rfl
  all_goals cases h

namespace Engine

namespace Sample

open Sketch

/-- `class C{void M(){foreach(Stream s in s){s.Dispose();}}}` -/
def circling : Document :=
  document "C.cs"
    [classOf "C"
      [method [] void "M" []
        [loop "Stream" "s" (name "s") [statement (call (access (name "s") "Dispose") [])]]]]

end Sample

/-- Where a loop that runs through its own variable disposes it, the run ends if the lint for that is skipped or
disabled, but not if it has the level `allow`: its rule still looks. -/
theorem lint_allow_eq_none :
    ∃ skipping disabling allowing,
      build { skip := ["IDISP007"] } {} = .ok skipping ∧
      build {} { disabled := ["IDISP007"] } = .ok disabling ∧
      build {} { levels := [("IDISP007", .allow)] } = .ok allowing ∧
      skipping.lint (.ofDocuments [Sample.circling]) = some [] ∧
      disabling.lint (.ofDocuments [Sample.circling]) = some [] ∧
      allowing.lint (.ofDocuments [Sample.circling]) = none := by
  let allowing : Engine := ⟨Rule.stable, .ofNames [("IDISP007", .allow)] [], .ofPatterns [] false⟩
  refine ⟨_, _, allowing, rfl, rfl, rfl, ?_, ?_, ?_⟩
  · decide +kernel
  · decide +kernel
  · -- the rule is called for the dispose call in the loop
    have hany : (allowing.dispatch (.root 0 Sample.circling.tree)).any (fun call =>
        call.1.lint == .dontDisposeInjected && !ForeignValue.insideLambda call.2 &&
          call.2.disposeReceiver?.any (isOfOwnLoop (Compilation.ofDocuments [Sample.circling]).model)) = true := by
      decide +kernel
    obtain ⟨⟨r, n⟩, hcall, h⟩ := List.any_eq_true.1 hany
    simp only [Bool.and_eq_true, beq_iff_eq, Bool.not_eq_true', Option.any_eq_true] at h
    obtain ⟨⟨hlint, hlambda⟩, receiver, hr, hloop⟩ := h
    obtain rfl := Rule.eq_foreignValue (List.mem_filter.1 (mem_rules_of_mem_dispatch hcall)).1 hlint
    refine lint_eq_none_iff.2 ⟨_, Sample.circling, _, List.mem_cons_self, rfl, _, hcall, rfl, ?_⟩
    refine ForeignValue.check_eq_none (Compilation.isRead_ofDocuments _) ?_ hr hlambda hloop
    exact (Compilation.HasPlace.root List.mem_cons_self).of_mem_preorder (mem_preorder_of_mem_dispatch hcall)

end Engine

end

end Disposal

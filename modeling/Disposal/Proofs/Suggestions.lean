import Disposal.Proofs.DisposingBranch
import Disposal.Proofs.Selections
import Disposal.Proofs.Sketch
import Disposal.Proofs.Slices

/-!
# Suggestions that can be applied

Every suggestion that a rule attaches to a report can be applied on its own to the text of the document that the report
is about. Which edits a rule suggests, and at which nodes, is said by `Plan.MadeBy`; whatever the layout of the text,
such edits fit it and do not overlap.

* `Rule.isPlanned_of_mem_check`: what the rules suggest;
* `Plan.MadeBy.isIn`: all of it in the document of the report;
* `Plan.MadeBy.pairwise`: edits of one suggestion do not overlap.
-/

namespace Disposal

/-! ### Parts of declarations -/

namespace Node

private theorem mem_preorder_of_declarators {n list d : Node} (hlist : n.variableDeclaration? = some list)
    (hd : d ∈ list.declarators) : d ∈ n.preorder := by
  have hmem := mem_preorder_of_mem_children (mem_children_of_namedOf hd)
  unfold variableDeclaration? at hlist
  split at hlist
  · cases hlist
    exact hmem
  · exact mem_preorder_of_child (mem_children_of_childOf? hlist) hmem

private theorem mem_preorder_of_baseCallStatement? {n x : Node} (h : n.baseCallStatement? = some x) :
    x ∈ n.preorder := by
  obtain ⟨block, hblock, h⟩ := Option.bind_eq_some_iff.1 h
  exact mem_preorder_of_child (blockBody?_eq_some hblock).1 (mem_preorder_of_statements (List.mem_of_find?_eq_some h))

private theorem mem_preorder_of_suppressed? {n x : Node} (h : Finalizer.suppressed? n = some x) : x ∈ n.preorder := by
  obtain ⟨⟨name, receiver?⟩, -, h⟩ := Option.bind_eq_some_iff.1 h
  obtain ⟨receiver, -, h⟩ := Option.bind_eq_some_iff.1 h
  split at h
  · split at h
    · next argument hargument =>
      have hmem : argument ∈ n.arguments := by
        rw [hargument]
        exact List.mem_cons_self
      exact mem_preorder_trans (mem_preorder_of_arguments hmem) (mem_preorder_of_argumentExpression? h)
    · cases h
  · cases h

end Node

/-- The branch of a method opens at one of its statements. -/
private theorem Model.exists_of_disposingBranch? {m : Model} {method : Node} {branch : DisposingBranch}
    (h : m.disposingBranch? method = some branch) :
    ∃ s ∈ method.preorder, branch = .earlyReturn s ∨ ∃ b ∈ s.children, b.is .block = true ∧ branch = .block b := by
  obtain ⟨param, -, h⟩ := Option.bind_eq_some_iff.1 h
  obtain ⟨block, hblock, h⟩ := Option.bind_eq_some_iff.1 h
  obtain ⟨s, hs, h⟩ := List.exists_of_findSome?_eq_some h
  refine ⟨s, Node.mem_preorder_of_child (Node.blockBody?_eq_some hblock).1 (Node.mem_preorder_of_statements hs), ?_⟩
  obtain ⟨-, b, hb, ⟨-, -, hbranch⟩ | ⟨-, hk, hbranch⟩⟩ := branchAt?_eq_some h
  · exact .inl hbranch
  · exact .inr ⟨b, Node.mem_children_of_ifConsequence? hb, hk, hbranch⟩

/-! ### What rules plan -/

namespace Plan

/-- At the end of a method. -/
inductive EndsMethod (method : Node) : Plan → Prop
  | block {block : Node} (h : method.blockBody? = some block) (text : String) : EndsMethod method (.atEnd block text)
  | arrow {arrow : Node} (h : method.arrowBody? = some arrow) (lines : List String) :
      EndsMethod method (.inArrow method arrow lines)

/-- Where a method `Dispose(bool)` releases managed resources. -/
inductive Releases (m : Model) (method : Node) : Plan → Prop
  | afterReturn {s : Node} (h : m.disposingBranch? method = some (.earlyReturn s)) (text : String) :
      Releases m method (.after s text)
  | inBranch {block : Node} (h : m.disposingBranch? method = some (.block block)) (text : String) :
      Releases m method (.atEnd block text)
  | beforeBase {s : Node} (h : method.baseCallStatement? = some s) (header : String) (lines : List String) :
      Releases m method (.headedBefore s header lines)
  | ends {block : Node} (h : method.blockBody? = some block) (header : String) (lines : List String) :
      Releases m method (.headedAtEnd block header lines)

/-- What a rule plans when it looks at a node. -/
inductive MadeBy (m : Model) (n : Node) : Rule → List Plan → Prop
  | asField {region : Node} (h : n.region? = some region) (declared assigned : String) :
      MadeBy m n CreatedLocal.rule [.before region declared, .replacing n assigned]
  | asUsing (text : String) : MadeBy m n CreatedLocal.rule [.inFront n text]
  | beforeWrite {statement : Node} (h : n.enclosingStatement? = some statement) (text : String) :
      MadeBy m n Reassignment.rule [.before statement text]
  | release {member : Symbol} {decl : Node} {owner : TypeDecl} {method : DisposeMethod} {p : Plan}
      (hdecl : member.node? = some decl) (hmem : decl ∈ n.preorder) (howner : member.owner? m.compilation = some owner)
      (hmethod : m.compilation.primaryDisposeMethod? owner = some method) (hdoc : decl.doc = method.node.doc)
      (hp : Releases m method.node p ∨ EndsMethod method.node p) : MadeBy m n OwnedMember.rule [p]
  | baseCall {p : Plan} (hp : EndsMethod n p) : MadeBy m n BaseCall.rule [p]
  | self {e : Node} (h : Finalizer.suppressed? n = some e) (text : String) :
      MadeBy m n Finalizer.rule [.replacing e text]

private theorem exists_endsMethod {source : String} {method : Node} {lines : List String} {e : Edit}
    (h : Placement.atMethodEnd? source method lines = some e) :
    ∃ p, EndsMethod method p ∧ p.edit? source = some e := by
  unfold Placement.atMethodEnd? at h
  split at h
  · next hblock => exact ⟨_, .block hblock _, h⟩
  · next harrow => exact ⟨_, .arrow harrow _, h⟩
  · cases h

private theorem exists_releases {m : Model} {source : String} {method : Node} {lines : List String} {e : Edit}
    (h : OwnedMember.inDisposeBool? m source method lines = some e) :
    ∃ p, Releases m method p ∧ p.edit? source = some e := by
  unfold OwnedMember.inDisposeBool? at h
  split at h
  · next hbranch => exact ⟨_, .afterReturn hbranch _, h⟩
  · next hbranch => exact ⟨_, .inBranch hbranch _, h⟩
  · obtain ⟨param, -, h⟩ := Option.bind_eq_some_iff.1 h
    obtain ⟨name, -, h⟩ := Option.bind_eq_some_iff.1 h
    dsimp only at h
    split at h
    · next hbase => exact ⟨_, .beforeBase hbase _ _, h⟩
    · obtain ⟨block, hblock, h⟩ := Option.bind_eq_some_iff.1 h
      exact ⟨_, .ends hblock _ _, h⟩

end Plan

/-- A report that suggests something is about the document of the node that the rule looks at, and suggests what the
rule plans there. -/
def Report.IsPlanned (m : Model) (rule : Rule) (n : Node) (r : Report) : Prop :=
  ∀ s, r.suggestion? = some s → r.node.doc = n.doc ∧
    ∃ plans, Plan.MadeBy m n rule plans ∧ plans.map (Plan.edit? (m.compilation.sourceOf n)) = s.edits.map some

section

variable {m : Model} {n : Node} {r : Report}

theorem CreatedLocal.isPlanned_of_mem_check (hr : r ∈ check m n) : r.IsPlanned m rule n := by
  unfold check at hr
  split at hr
  · cases hr
  · split at hr
    · next region list hregion _ =>
      split at hr
      · cases hr
      · cases List.mem_singleton.1 hr
        refine fun s hs => ⟨rfl, ?_⟩
        dsimp only at hs
        split at hs
        · split at hs
          · unfold asField? at hs
            obtain ⟨name, -, hs⟩ := Option.bind_eq_some_iff.1 hs
            obtain ⟨owner, -, hs⟩ := Option.bind_eq_some_iff.1 hs
            split at hs
            · cases hs
            · obtain ⟨type, -, hs⟩ := Option.bind_eq_some_iff.1 hs
              cases hs
              exact ⟨_, .asField hregion _ _, rfl⟩
          · unfold asUsing? at hs
            split at hs
            · cases hs
              exact ⟨_, .asUsing _, rfl⟩
            · cases hs
        · cases hs
    · cases hr

theorem Reassignment.isPlanned_of_mem_check (hr : r ∈ check m n) : r.IsPlanned m rule n := by
  unfold check at hr
  split at hr
  · cases hr
  · dsimp only at hr
    split at hr
    · cases hr
    · cases eq_of_mem_ite hr
      refine fun s hs => ⟨rfl, ?_⟩
      obtain ⟨statement, hstatement, hs⟩ := Option.bind_eq_some_iff.1 hs
      split at hs
      · cases hs
        exact ⟨_, .beforeWrite hstatement _, rfl⟩
      · cases hs

private theorem OwnedMember.isPlanned_of_mem_checkMember {member : Symbol} {decl place : Node}
    (hdecl : member.node? = some decl) (hmem : decl ∈ n.preorder) (hplace : place ∈ n.preorder)
    (hr : r ∈ checkMember m member place) :
    r.IsPlanned m rule n := by
  cases eq_of_mem_ite hr
  refine fun s hs => ⟨Node.doc_of_mem_preorder hplace, ?_⟩
  obtain ⟨owner, howner, hs⟩ := Option.bind_eq_some_iff.1 hs
  obtain ⟨method, hmethod, hs⟩ := Option.bind_eq_some_iff.1 hs
  obtain ⟨decl', hdecl', hs⟩ := Option.bind_eq_some_iff.1 hs
  rw [hdecl] at hdecl'
  cases hdecl'
  split at hs
  · cases hs
  · next hdoc =>
    have hdoc : decl.doc = method.node.doc := Decidable.not_not.1 hdoc
    have hsource : m.compilation.sourceOf method.node = m.compilation.sourceOf n :=
      Compilation.sourceOf_eq (hdoc.symm.trans (Node.doc_of_mem_preorder hmem))
    dsimp only at hs
    rw [hsource] at hs
    split at hs
    · obtain ⟨e, he, hs⟩ := Option.bind_eq_some_iff.1 hs
      cases hs
      obtain ⟨p, hp, he⟩ := Plan.exists_releases he
      exact ⟨[p], .release hdecl hmem howner hmethod hdoc (.inl hp), by rw [List.map_singleton, he]; rfl⟩
    · obtain ⟨e, he, hs⟩ := Option.bind_eq_some_iff.1 hs
      cases hs
      obtain ⟨p, hp, he⟩ := Plan.exists_endsMethod he
      exact ⟨[p], .release hdecl hmem howner hmethod hdoc (.inr hp), by rw [List.map_singleton, he]; rfl⟩

theorem OwnedMember.isPlanned_of_mem_check (hr : r ∈ check m n) : r.IsPlanned m rule n := by
  have hself := Node.mem_preorder_self n
  unfold check at hr
  split at hr
  · exact isPlanned_of_mem_checkMember rfl hself hself hr
  · split at hr
    · cases hr
    · next list hlist =>
      split at hr
      · next d hd =>
        have hmem := Node.mem_preorder_of_declarators hlist (by rw [hd]; exact List.mem_cons_self)
        exact isPlanned_of_mem_checkMember rfl hmem hself hr
      · obtain ⟨d, hd, hr⟩ := List.mem_flatMap.1 hr
        have hmem := Node.mem_preorder_of_declarators hlist hd
        exact isPlanned_of_mem_checkMember rfl hmem hmem hr

theorem BaseCall.isPlanned_of_mem_check (hr : r ∈ check m n) : r.IsPlanned m rule n := by
  unfold check at hr
  split at hr
  · next kind name _ hname =>
    cases eq_of_mem_ite hr
    refine fun s hs => ⟨Node.doc_of_mem_preorder (Node.mem_preorder_of_nameOf? hname), ?_⟩
    obtain ⟨call, -, hs⟩ := Option.bind_eq_some_iff.1 hs
    obtain ⟨e, he, hs⟩ := Option.bind_eq_some_iff.1 hs
    cases hs
    obtain ⟨p, hp, he⟩ := Plan.exists_endsMethod he
    exact ⟨[p], .baseCall hp, by rw [List.map_singleton, he]; rfl⟩
  · cases hr

theorem Finalizer.isPlanned_of_mem_check (hr : r ∈ check m n) : r.IsPlanned m rule n := by
  unfold check at hr
  split at hr
  · cases hr
  · next e he =>
    cases eq_of_mem_ite hr
    intro s hs
    cases hs
    exact ⟨Node.doc_of_mem_preorder (Node.mem_preorder_of_suppressed? he), _, .self he _, rfl⟩

private theorem IgnoredValue.suggestion?_of_mem_check (hr : r ∈ check m n) : r.suggestion? = none := by
  unfold check at hr
  split at hr
  · cases hr
  · cases eq_of_mem_ite hr
    rfl

theorem Rule.isPlanned_of_mem_check {rule : Rule} (hrule : rule ∈ all) {rs : List Report}
    (hrs : rule.check m n = some rs) (hr : r ∈ rs) : r.IsPlanned m rule n := by
  have silent : r.suggestion? = none → r.IsPlanned m rule n := by
    intro hnone s hs
    rw [hnone] at hs
    cases hs
  simp only [all, List.mem_cons, List.not_mem_nil, or_false] at hrule
  rcases hrule with rfl | rfl | rfl | rfl | rfl | rfl | rfl
  case inr.inr.inr.inr.inl =>
    obtain ⟨x, rfl⟩ := ForeignValue.exists_report_of_mem_check hrs hr
    exact silent rfl
  all_goals cases hrs
  · exact CreatedLocal.isPlanned_of_mem_check hr
  · exact OwnedMember.isPlanned_of_mem_check hr
  · exact Reassignment.isPlanned_of_mem_check hr
  · exact silent (IgnoredValue.suggestion?_of_mem_check hr)
  · exact BaseCall.isPlanned_of_mem_check hr
  · exact Finalizer.isPlanned_of_mem_check hr

end

/-! ### Plans in a document -/

namespace Compilation

theorem IsBeside.of_mem_preorder {c : Compilation} {a n x : Node} (h : c.IsBeside a n) (hx : x ∈ n.preorder) :
    c.IsBeside a x :=
  ⟨h.place.of_mem_preorder hx, (Node.doc_of_mem_preorder hx).trans h.doc⟩

theorem IsBeside.of_mem_ancestors {c : Compilation} {n x : Node} (h : c.HasPlace n) (hx : x ∈ n.ancestors) :
    c.IsBeside n x :=
  ⟨h.of_mem_ancestors hx, (Node.doc_of_mem_preorder (Node.mem_preorder_of_mem_ancestors h hx)).symm⟩

/-- What lies in a node starts no earlier. -/
theorem IsLaidOut.start_le_of_mem_preorder {c : Compilation} (hc : c.IsLaidOut) {n x : Node} (h : c.HasPlace n)
    (hx : x ∈ n.preorder) : n.start ≤ x.start := by
  revert h
  refine Node.preorder_induction (motive := fun n => c.HasPlace n → n.start ≤ x.start) (fun _ => Nat.le_refl _) ?_ n hx
  intro n k hk _ ih hn
  have hspan := List.all_eq_true.1 (hc.nested n hn) k hk
  rw [Bool.and_eq_true, decide_eq_true_eq] at hspan
  exact Nat.le_trans hspan.1 (ih (.child hn hk))

private theorem IsRead.hasPlace_of_primaryDisposeMethod? {c : Compilation} (hc : c.IsRead) {t : TypeDecl}
    {d : DisposeMethod} (h : c.primaryDisposeMethod? t = some d) : c.HasPlace d.node := by
  obtain ⟨kind, -, h⟩ := List.exists_of_findSome?_eq_some h
  obtain ⟨member, hmember, h⟩ := List.mem_filterMap.1 (List.mem_of_find?_eq_some h)
  obtain ⟨_, -, rfl⟩ := Option.map_eq_some_iff.1 h
  exact hc.hasPlace_of_members hmember

end Compilation

namespace Plan

theorem EndsMethod.isIn {c : Compilation} {a method : Node} {p : Plan} (hp : EndsMethod method p)
    (h : c.IsBeside a method) : p.IsIn c a := by
  cases hp with
  | block hblock text => exact ⟨h.child (Node.blockBody?_eq_some hblock).1, (Node.blockBody?_eq_some hblock).2⟩
  | arrow harrow lines => exact ⟨h, h.of_mem_preorder (Node.mem_preorder_of_arrowBody? harrow)⟩

theorem Releases.isIn {c : Compilation} {m : Model} {a method : Node} {p : Plan} (hp : Releases m method p)
    (h : c.IsBeside a method) : p.IsIn c a := by
  cases hp with
  | afterReturn hbranch text =>
    obtain ⟨s, hs, heq | ⟨b, -, -, heq⟩⟩ := Model.exists_of_disposingBranch? hbranch
    · cases heq
      exact h.of_mem_preorder hs
    · cases heq
  | inBranch hbranch text =>
    obtain ⟨s, hs, heq | ⟨b, hb, hk, heq⟩⟩ := Model.exists_of_disposingBranch? hbranch
    · cases heq
    · cases heq
      exact ⟨(h.of_mem_preorder hs).child hb, hk⟩
  | beforeBase hbase header lines => exact h.of_mem_preorder (Node.mem_preorder_of_baseCallStatement? hbase)
  | ends hblock header lines => exact ⟨h.child (Node.blockBody?_eq_some hblock).1, (Node.blockBody?_eq_some hblock).2⟩

theorem MadeBy.isIn {c : Compilation} (hc : c.IsRead) {n : Node} (hn : c.HasPlace n) {rule : Rule} {plans : List Plan}
    (h : MadeBy c.model n rule plans) : ∀ p ∈ plans, p.IsIn c n := by
  have hself : c.IsBeside n n := ⟨hn, rfl⟩
  cases h with
  | asField hregion declared assigned =>
    have hregion : c.IsBeside n _ := .of_mem_ancestors hn (List.mem_of_find?_eq_some hregion)
    simp only [List.mem_cons, List.not_mem_nil, or_false, forall_eq_or_imp, forall_eq]
    exact ⟨hregion, hself⟩
  | asUsing text =>
    simp only [List.mem_singleton, forall_eq]
    exact hself
  | @beforeWrite statement hstatement text =>
    simp only [List.mem_singleton, forall_eq]
    unfold Node.enclosingStatement? at hstatement
    split at hstatement
    · cases hstatement
      exact hself
    · have hmem := (List.takeWhile_sublist _).subset (List.mem_of_find?_eq_some hstatement)
      exact Compilation.IsBeside.of_mem_ancestors hn hmem
  | @release member decl owner method p hdecl hmem howner hmethod hdoc hp =>
    simp only [List.mem_singleton, forall_eq]
    have hbeside : c.IsBeside n method.node :=
      ⟨hc.hasPlace_of_primaryDisposeMethod? hmethod, hdoc.symm.trans (Node.doc_of_mem_preorder hmem)⟩
    rcases hp with hp | hp
    · exact hp.isIn hbeside
    · exact hp.isIn hbeside
  | baseCall hp =>
    simp only [List.mem_singleton, forall_eq]
    exact hp.isIn hself
  | self he text =>
    simp only [List.mem_singleton, forall_eq]
    exact hself.of_mem_preorder (Node.mem_preorder_of_suppressed? he)

/-- A statement that is put in front of a node is put in no later than there. -/
private theorem start_le_of_before {source : String} {n : Node} (h : Text.isBoundary source.toList n.start = true)
    (text : String) : (Placement.beforeStatement source n text).isInsertion = true ∧
      (Placement.beforeStatement source n text).start ≤ n.start := by
  unfold Placement.beforeStatement
  dsimp only
  split
  · exact ⟨beq_self_eq_true _, Layout.lineStart_le h⟩
  · exact ⟨beq_self_eq_true _, Nat.le_refl _⟩

/-- Edits of one suggestion do not overlap: a new field stands in front of the constructor that sets it. -/
theorem MadeBy.pairwise {c : Compilation} (hc : c.IsLaidOut) {n : Node} (hn : c.HasPlace n) {rule : Rule}
    {plans : List Plan} (h : MadeBy c.model n rule plans) {edits : List Edit}
    (hedits : plans.map (edit? (c.sourceOf n)) = edits.map some) : edits.Pairwise fun a b => a.overlaps b = false := by
  cases h with
  | @asField region hregion declared assigned =>
    have hmem := List.mem_of_find?_eq_some hregion
    obtain ⟨hinsertion, hstart⟩ :=
      start_le_of_before (hc.cutBeside (.of_mem_ancestors hn hmem)).2.1 declared
    have hle := hc.start_le_of_mem_preorder (hn.of_mem_ancestors hmem) (Node.mem_preorder_of_mem_ancestors hn hmem)
    obtain rfl : edits = [Placement.beforeStatement (c.sourceOf n) region declared, ⟨n.start, n.stop, assigned⟩] :=
      (List.map_inj_right fun _ _ => Option.some.inj).1 hedits.symm
    refine List.pairwise_cons.2 ⟨?_, List.pairwise_singleton _ _⟩
    intro e he
    rw [List.mem_singleton.1 he, Edit.overlaps, hinsertion]
    split
    · rfl
    · simp only [if_true, Bool.and_eq_false_iff, decide_eq_false_iff_not]
      left
      omega
  | _ =>
    -- there is one edit
    obtain ⟨e, rfl⟩ : ∃ e, edits = [e] := by
      have hlength := congrArg List.length hedits
      rw [List.length_map, List.length_map] at hlength
      exact List.length_eq_one_iff.1 hlength.symm
    exact List.pairwise_singleton _ _

end Plan

/-- Every suggestion that a rule attaches to a report can be applied on its own to the text of the document of the
report. No stretch of the text that its edits are built from cuts a character, nor does the text of any node. -/
theorem Rule.check_suggestion (documents : List Document) (hlaid : (Compilation.ofDocuments documents).IsLaidOut)
    {rule : Rule} (hrule : rule ∈ Rule.all) {n : Node} (hn : (Compilation.ofDocuments documents).HasPlace n)
    {rs : List Report} (hrs : rule.check (Compilation.ofDocuments documents).model n = some rs)
    {r : Report} (hr : r ∈ rs) {s : Suggestion} (hs : r.suggestion? = some s) :
    Edit.check ((Compilation.ofDocuments documents).sourceOf r.node).toList s.edits = .ok () ∧
      (∃ plans, Plan.MadeBy (Compilation.ofDocuments documents).model n rule plans ∧
        plans.map (Plan.edit? ((Compilation.ofDocuments documents).sourceOf r.node)) = s.edits.map some ∧
        plans.map (Plan.sliced? ((Compilation.ofDocuments documents).sourceOf r.node)) = s.edits.map some) ∧
      ∀ k, (Compilation.ofDocuments documents).IsBeside r.node k →
        (Text.slice? ((Compilation.ofDocuments documents).sourceOf r.node) k.start k.stop).isSome = true := by
  obtain ⟨hdoc, plans, hplans, hedits⟩ := Rule.isPlanned_of_mem_check hrule hrs hr s hs
  change plans.map (Plan.edit? ((Compilation.ofDocuments documents).sourceOf n)) = _ at hedits
  have hin := hplans.isIn (Compilation.isRead_ofDocuments documents) hn
  have htexts : ∀ k, (Compilation.ofDocuments documents).IsBeside r.node k →
      (Text.slice? ((Compilation.ofDocuments documents).sourceOf r.node) k.start k.stop).isSome = true := by
    intro k hk
    obtain ⟨hle, hstart, hstop⟩ := hlaid.cutBeside hk
    rw [Text.slice?_eq_some hle hstart hstop]
    rfl
  have hfits : ∀ e ∈ s.edits, e.Fits ((Compilation.ofDocuments documents).sourceOf n).toList := by
    intro e he
    have hsome : some e ∈ plans.map (Plan.edit? ((Compilation.ofDocuments documents).sourceOf n)) := by
      rw [hedits]
      exact List.mem_map_of_mem he
    obtain ⟨p, hp, he⟩ := List.mem_map.1 hsome
    exact Plan.fits hlaid (hin p hp) he
  have hsliced : plans.map (Plan.sliced? ((Compilation.ofDocuments documents).sourceOf n)) = s.edits.map some := by
    rw [← hedits]
    exact List.map_congr_left fun p hp => Plan.sliced?_eq_edit? hlaid (hin p hp)
  refine ⟨?_, ?_, htexts⟩
  · rw [Compilation.sourceOf_eq hdoc]
    exact Edit.check_eq_ok_iff.2 ⟨hfits, hplans.pairwise hlaid hn hedits⟩
  · rw [Compilation.sourceOf_eq hdoc]
    exact ⟨plans, hplans, hedits, hsliced⟩

namespace Sample

open Sketch

/-- `class Ä{Ä(){MemoryStream s=new MemoryStream();}}` -/
def constructing : Document :=
  document "C.cs"
    [classOf "Ä"
      [ofKind .constructorDeclaration
        [(name "Ä").inField .name, (ofKind .parameterList (between "(" ")" [])).inField .parameters,
         block [declare "MemoryStream" "s" (create "MemoryStream")]]]]

private theorem isLaidOut_constructing : (Compilation.ofDocuments [constructing]).IsLaidOut := by
  have hall : ((Compilation.ofDocuments [constructing]).places.all fun n =>
      n.doc == 0 && n.isCutFrom constructing.text && n.holdsChildren && (!n.is .block || n.opensWithBrace)) = true := by
    decide +kernel
  simp only [List.all_eq_true, Bool.and_eq_true, Bool.or_eq_true, Bool.not_eq_true', beq_iff_eq,
    Compilation.mem_places_iff] at hall
  refine ⟨fun n hn => ?_, fun n hn => (hall n hn).1.2, fun n hn hk => ?_⟩
  · have hsource : (Compilation.ofDocuments [constructing]).sourceOf n = constructing.text := by
      rw [Compilation.sourceOf, (hall n hn).1.1.1]
      rfl
    rw [hsource]
    exact (hall n hn).1.1.2
  · rcases (hall n hn).2 with h | h
    · rw [hk] at h
      cases h
    · exact h

end Sample

/-- The theorem where a local of a constructor, on one line with it, is made a field. -/
theorem Rule.check_suggestion_constructing :
    ∃ n r s, (Compilation.ofDocuments [Sample.constructing]).HasPlace n ∧
      r ∈ CreatedLocal.check (Compilation.ofDocuments [Sample.constructing]).model n ∧ r.suggestion? = some s ∧
      s.edits = [⟨9, 9, "private readonly MemoryStream s;\n "⟩, ⟨14, 48, "this.s = new MemoryStream();"⟩] ∧
      Edit.check ((Compilation.ofDocuments [Sample.constructing]).sourceOf r.node).toList s.edits = .ok () := by
  have hany : ((Compilation.ofDocuments [Sample.constructing]).places.any fun n =>
      (CreatedLocal.check (Compilation.ofDocuments [Sample.constructing]).model n).any fun r =>
        r.suggestion?.any fun s => decide (s.edits =
          [⟨9, 9, "private readonly MemoryStream s;\n "⟩, ⟨14, 48, "this.s = new MemoryStream();"⟩])) = true := by
    decide +kernel
  simp only [List.any_eq_true, Option.any_eq_true, decide_eq_true_eq] at hany
  obtain ⟨n, hn, r, hr, s, hs, hedits⟩ := hany
  have hn := Compilation.mem_places_iff.1 hn
  have hrule : CreatedLocal.rule ∈ Rule.all := List.mem_cons_self
  exact ⟨n, r, s, hn, hr, hs, hedits, (Rule.check_suggestion _ Sample.isLaidOut_constructing hrule hn rfl hr hs).1⟩

end Disposal

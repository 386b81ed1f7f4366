import Disposal.Proofs.StraightLine
import Disposal.Proofs.Visibility

/-!
# Released before an overwrite

Whether a local is released before it is assigned again, in a body that is a straight line for it. A statement
`x.Dispose();` or `x?.Dispose();` counts just where no assignment to `x` stands between it and the assignment asked
about. Besides, a dispose call inside another statement, up to the assignment asked about, counts unless the local is
certainly written in between.

* `IsStraightLine.executedBefore_eq_always_iff`, `IsStraightLine.executedBefore_eq_never_iff`: the order of two
  statements of the block;
* `IsStraightLine.reassigned_iff`: when an assignment stands between;
* `IsStraightLine.disposedBefore_iff`: both together.
-/

namespace Disposal

/-! ### Order -/

namespace Order

/-- A walk that enters no region stays in the region that it starts in. -/
private theorem region?_of_mem_walk {n x : Node} {enter : Node → Bool} (hx : x ∈ n.walk enter)
    (h : ∀ m ∈ n.preorder, enter m = true → m.isRegion = false) : x.region? = n.region? := by
  rcases Node.mem_walk_iff.1 hx with rfl | ⟨henter, c, hc, hxc⟩
  · rfl
  · have := Node.sizeOf_of_mem_children hc
    rw [region?_of_mem_walk hxc fun m hm => h m (Node.mem_preorder_of_child hc hm), region?_of_mem_children hc,
      h n (Node.mem_preorder_self n) henter, if_neg Bool.false_ne_true]
termination_by sizeOf n.here

/-- The expression of a statement runs whenever the statement does. -/
private theorem isCertain_of_expression? {p e : Node} (h : p.expression? = some e) : IsCertain p e := by
  obtain ⟨hk, -⟩ := Node.expression?_eq_some h
  have he := Node.mem_children_of_expression? h
  intro m hm k hkm hek
  rcases Node.mem_preorder_iff.1 hm with rfl | ⟨c, hc, hmc⟩
  · constructor
    · simp only [isConditionalChild, hk]
    · rw [leavesBefore, Node.isAny_eq_of_kind? hk, Node.is_eq_of_kind? hk, Node.is_eq_of_kind? hk]
      rfl
  · -- no other node stands between the two
    have hem := Node.mem_preorder_of_child hkm hek
    obtain rfl := Node.eq_of_mem_preorder hc he (Node.mem_preorder_trans hmc hem) (Node.mem_preorder_self e)
    have h₁ := Node.length_path_le hmc
    have h₂ := Node.length_path_lt hkm hek
    omega

/-- A node and what is below it are not ordered. -/
private theorem executedBefore_of_mem_preorder {n a : Node} (h : a ∈ n.preorder) (hne : a ≠ n) :
    executedBefore a n = sometimes := by
  rcases Node.mem_preorder_iff.1 h with heq | ⟨child, hchild, hac⟩
  · exact absurd heq hne
  · have hbeq : (a == n) = false := Node.beq_eq_false_of_length_ne (Nat.ne_of_gt (Node.length_path_lt hchild hac))
    rw [executedBefore, hbeq, Node.contains_of_mem_preorder h, Bool.or_true]
    rfl

/-- The parts of a region run one after the other. -/
private theorem ofChildren_of_isRegion {region l r : Node} (h : region.isRegion = true) :
    ofChildren region l r = byPlace l r := by
  obtain ⟨k, hk, hregion⟩ := Node.isAny_iff.1 h
  simp only [Node.regions, List.mem_cons, List.not_mem_nil, or_false] at hk
  rcases hk with rfl | rfl | rfl | rfl | rfl | rfl | rfl | rfl | rfl | rfl | rfl | rfl <;>
    simp only [ofChildren, hregion]

end Order

namespace IsStraightLine

open Disposal.Order

variable {c : Compilation} {x : String} {region block declaration d : Node}
  (h : IsStraightLine x region block declaration d)

include h

/-- A statement that consists of an expression is not the declaration. -/
private theorem ne_declaration {p e : Node} (he : p.expression? = some e) : p ≠ declaration := by
  rintro rfl
  have := (Node.expression?_eq_some he).1
  rw [h.declares] at this
  cases this

/-- The expressions of the statements belong to the region. -/
private theorem mem_ofRegion {p e : Node} (hp : p ∈ block.children) (he : p.expression? = some e)
    (hl : e.isLambda = false) : e ∈ region.ofRegion := by
  have hbl : block.isLambda = false := Node.isLambda_eq_false h.kind (by decide)
  have hpl : p.isLambda = false := Node.isLambda_eq_false (Node.expression?_eq_some he).1 (by decide)
  refine List.mem_filter.2 ⟨Node.mem_walk_iff.2 (.inr ⟨?_, block, h.body, ?_⟩), ?_⟩
  · rw [Node.beq_refl]
    simp
  · refine Node.mem_walk_iff.2 (.inr ⟨by simp [hbl], p, hp, ?_⟩)
    refine Node.mem_walk_iff.2 (.inr ⟨by simp [hpl], e, Node.mem_children_of_expression? he, ?_⟩)
    exact Node.mem_walk_iff.2 (.inl rfl)
  · simp [hl]

/-- What belongs to the region and stands in the block has no other region around it. -/
private theorem region?_eq {a : Node} (ha : a ∈ region.ofRegion) (hblock : a ∈ block.preorder) :
    a.region? = some region := by
  obtain ⟨hwalk, -⟩ := List.mem_filter.1 ha
  rcases Node.mem_walk_iff.1 hwalk with rfl | ⟨-, b, hb, hab⟩
  · have h₁ := Node.length_path_lt h.body (Node.mem_preorder_self block)
    have h₂ := Node.length_path_le hblock
    omega
  · obtain rfl := Node.eq_of_mem_preorder hb h.body (Node.mem_preorder_of_mem_walk hab) hblock
    rw [region?_of_mem_walk hab, region?_of_mem_children h.body, h.bounds, if_pos rfl]
    intro m hm henter
    have hne : (m == region) = false := by
      refine Node.beq_eq_false_of_length_ne ?_
      have := Node.length_path_lt h.body hm
      omega
    rw [Bool.eq_false_iff]
    intro hregion
    rw [h.functions m hm hregion, hne] at henter
    cases henter

private theorem region?_of_expression? {p e : Node} (hp : p ∈ block.children) (he : p.expression? = some e)
    (hl : e.isLambda = false) : e.region? = some region :=
  h.region?_eq (h.mem_ofRegion hp he hl) (Node.mem_preorder_of_child hp (Node.expression?_mem_preorder he))

private theorem inLoop_eq_false : inLoop block = false := by
  rw [inLoop, Node.ancestors_of_mem_children h.body]
  simp [h.bounds]

section

variable {p q a b : Node} (hp : p ∈ block.children) (hq : q ∈ block.children) (hne : p ≠ q) (ha : a ∈ p.preorder)
  (hb : b ∈ q.preorder)

include hp hq hne ha hb

theorem executedBefore_eq_always_iff :
    executedBefore a b = always ↔ p.start < q.start ∧ ShareRegion a b ∧ IsCertain p a := by
  rw [Order.executedBefore_eq_always_iff hp hq hne ha hb, ofChildren_eq_always_iff]
  simp only [RunsFirst, arrangement, h.kind]

theorem executedBefore_eq_never_iff :
    executedBefore a b = never ↔ ¬ p.start < q.start ∧ ∃ r, a.region? = some r ∧ b.region? = some r := by
  have hplace : ofChildren block p q = never ↔ ¬ p.start < q.start := by
    simp only [ofChildren, h.kind, byPlace]
    split <;> simp_all
  rw [Order.executedBefore_eq_never_iff hp hq hne ha hb, hplace, h.inLoop_eq_false]
  simp

end

/-- Of the expressions of two statements the earlier one always runs first. -/
private theorem executedBefore_expressions {p q e f : Node} (hp : p ∈ block.children) (hq : q ∈ block.children)
    (he : p.expression? = some e) (hf : q.expression? = some f) (hel : e.isLambda = false) (hfl : f.isLambda = false)
    (hlt : p.start < q.start) : executedBefore e f = always := by
  have hep := Node.expression?_mem_preorder he
  have hfq := Node.expression?_mem_preorder hf
  have hne : p ≠ q := by
    rintro rfl
    exact Nat.lt_irrefl _ hlt
  have hshare : ShareRegion e f :=
    ⟨region, h.region?_of_expression? hp he hel, h.region?_of_expression? hq hf hfl, h.straight⟩
  exact (h.executedBefore_eq_always_iff hp hq hne hep hfq).2 ⟨hlt, hshare, isCertain_of_expression? he⟩

/-- Between two nodes of the block only nodes of its statements run. -/
private theorem exists_statement {a w b : Node} (ha : a ∈ block.preorder) (hb : b ∈ block.preorder)
    (hw : w ∈ region.preorder) (haw : executedBefore a w = always) (hwb : executedBefore w b = always) :
    ∃ r ∈ block.children, w ∈ r.preorder := by
  have hnot := (not_mem_preorder_of_always haw).2
  rcases Node.mem_preorder_iff.1 hw with rfl | ⟨part, hpart, hwp⟩
  · exact absurd (Node.mem_preorder_of_child h.body ha) hnot
  · by_cases hne : part = block
    · subst hne
      rcases Node.mem_preorder_iff.1 hwp with rfl | hwr
      · exact absurd ha hnot
      · exact hwr
    · -- the rest of the region cannot stand both behind the block and in front of it
      have h₁ := ((Order.executedBefore_eq_always_iff h.body hpart (Ne.symm hne) ha hwp).1 haw).1
      have h₂ := ((Order.executedBefore_eq_always_iff hpart h.body hne hwp hb).1 hwb).1
      rw [ofChildren_of_isRegion h.bounds, byPlace_eq_always_iff] at h₁ h₂
      omega

/-! ### Statements that mention the local -/

/-- In a statement that does not mention the name nothing refers to the local. -/
private theorem refersTo_eq_false {m : Model} {p t : Node} (hp : p ∈ block.children) (hidle : p.isIdle x = true)
    (ht : t ∈ p.preorder) : m.refersTo t (.localVar d) x = false := by
  rw [Node.isIdle, Bool.and_eq_true, Bool.not_eq_true', List.all_eq_true] at hidle
  have hne : declaration ≠ p := by
    rintro rfl
    have := hidle.1
    rw [Node.isAny_eq_of_kind? h.declares] at this
    cases this
  have hmem := Node.mem_preorder_trans ht (Node.stripParens_mem_preorder t)
  have hd : (d == t.stripParens) = false := Node.beq_eq_false_of_ne h.declared hp hne h.mem_declaration hmem
  have hname : (t.stripParens.simpleName?.any (·.text == x)) = false := by
    rw [Bool.eq_false_iff]
    intro hany
    obtain ⟨s, hs, htext⟩ := (Option.any_eq_true _ _).1 hany
    obtain ⟨hst, hk⟩ := Node.simpleName?_eq_some hs
    have := hidle.2 s (Node.mem_preorder_trans hmem hst)
    rw [Node.isName, hk, htext] at this
    cases this
  simp only [Model.refersTo, Symbol.node?, Option.any_some, hd, hname, Bool.false_and, Bool.or_false]

/-- A statement that mentions the name stands behind the declaration. -/
private theorem start_lt_of_isName {p e t : Node} (hp : p ∈ block.children) (he : p.expression? = some e)
    (ht : t ∈ p.preorder) (hname : t.isName x = true) : declaration.start < p.start := by
  rcases h.plain p hp with heq | hidle | ⟨-, hlt⟩
  · exact absurd heq (h.ne_declaration he)
  · rw [Node.isIdle, Bool.and_eq_true, List.all_eq_true] at hidle
    have := hidle.2 t ht
    rw [hname] at this
    cases this
  · exact hlt

private theorem start_lt_of_isReleaseCall {p e : Node} (hp : p ∈ block.children) (he : p.expression? = some e)
    (hcall : e.isReleaseCall x = true) : declaration.start < p.start := by
  obtain ⟨function, receiver, hparts⟩ := Node.exists_releaseParts hcall
  have hmem := Node.mem_preorder_of_child hparts.mem (Node.mem_preorder_of_mem_children hparts.disposes.mem)
  exact h.start_lt_of_isName hp he (Node.mem_preorder_of_child (Node.mem_children_of_expression? he) hmem)
    hparts.disposes.name

/-- A statement that assigns to the local, with the assignment. -/
private theorem exists_write {r f : Node} (hr : r ∈ block.children) (hf : r.expression? = some f)
    (ha : f.assignsName x = true) : ∃ w ∈ c.model.writes (.localVar d) (.node region), w.node = f := by
  obtain ⟨hk, s, hs, hleft, hname, hop⟩ := Node.exists_of_assignsName ha
  have hfr := Node.mem_children_of_expression? hf
  have hlt := h.start_lt_of_isName hr hf
    (Node.mem_preorder_of_child hfr (Node.mem_preorder_of_mem_children hleft)) hname
  have hrefers := h.refersTo_left (c := c) hr hf hk hleft hname hlt
  have hleftKind := (Node.isName_iff.1 hname).1
  have htargets : Model.targets s.left (some s.right) = [(s.left, some s.right)] := by
    obtain ⟨height, hheight⟩ : ∃ height, s.left.here.height = height + 1 := by
      cases s.left.here
      exact ⟨_, rfl⟩
    simp [Model.targets, hheight, Model.targetsWithin, Node.stripParens_of_kind? hleftKind (by decide),
      Node.is_eq_of_kind? hleftKind]
  have hat : ⟨.assign, f, some s.right⟩ ∈ c.model.writesAt (.localVar d) x f := by
    unfold Model.writesAt
    simp [hk, hs, hop, htargets, hrefers]
  refine ⟨⟨.assign, f, some s.right⟩, List.mem_append_right _ ?_, rfl⟩
  rw [h.name?_eq]
  refine List.mem_flatMap.2 ⟨f, ?_, hat⟩
  have hmem : f ∈ region.preorder := Node.mem_preorder_of_child h.body (Node.mem_preorder_of_child hr
    (Node.mem_preorder_of_mem_children hfr))
  simpa [Scope.nodes, Scope.roots] using hmem

/-- A statement of the block in which the local is written, other than the declaration, assigns to it. -/
private theorem isOverwrite_of_mem_writes {m : Model} {r : Node} {w : Write} (hr : r ∈ block.children)
    (hne : r ≠ declaration) (hw : w ∈ m.writes (.localVar d) (.node region)) (hwr : w.node ∈ r.preorder) :
    r.isOverwrite x = true := by
  rcases Model.mem_writes_localVar h.name?_eq hw with hd | ⟨-, hk, t, ht, hrefers⟩
  · rw [hd] at hwr
    exact absurd (Node.eq_of_mem_preorder hr h.declared hwr h.mem_declaration) hne
  · rcases h.plain r hr with heq | hidle | ⟨hplain, -⟩
    · exact absurd heq hne
    · rw [h.refersTo_eq_false hr hidle (Node.mem_preorder_trans hwr ht)] at hrefers
      cases hrefers
    · refine (Bool.or_eq_true_iff.1 hplain).resolve_left ?_
      intro hrelease
      obtain ⟨e, he, hcall⟩ := (Option.any_eq_true _ _).1 hrelease
      obtain ⟨function, receiver, hparts⟩ := Node.exists_releaseParts hcall
      rcases Node.mem_preorder_of_isReleaseCall he hcall hwr with heq | hquiet
      · rw [heq, Node.isAny_eq_of_kind? hparts.kind] at hk
        cases hk
      · rw [(Node.isAny_actions.1 hquiet).2] at hk
        cases hk

private theorem mem_region_of_mem_writes {m : Model} {w : Write} (hw : w ∈ m.writes (.localVar d) (.node region)) :
    w.node ∈ region.preorder := by
  rcases Model.mem_writes_localVar h.name?_eq hw with hd | ⟨hmem, -⟩
  · rw [hd]
    exact Node.mem_preorder_of_child h.body (Node.mem_preorder_of_child h.declared h.mem_declaration)
  · exact hmem

/-- A write in a statement that consists of an expression stands in the expression. -/
private theorem mem_expression_of_mem_writes {m : Model} {p e : Node} {w : Write} (hp : p ∈ block.children)
    (he : p.expression? = some e) (hw : w ∈ m.writes (.localVar d) (.node region)) (hwp : w.node ∈ p.preorder) :
    w.node ∈ e.preorder := by
  refine (Node.mem_preorder_of_expression? he hwp).resolve_right ?_
  intro hquiet
  rcases Model.mem_writes_localVar h.name?_eq hw with hd | ⟨-, hk, -⟩
  · rw [hd] at hwp
    exact h.ne_declaration he (Node.eq_of_mem_preorder hp h.declared hwp h.mem_declaration)
  · rw [(Node.isAny_actions.1 hquiet).2] at hk
    cases hk

/-- After a dispose call that is a statement, the local is certainly written before an assignment just where a
statement between the two assigns to it. -/
theorem reassigned_iff {p q e n : Node} (hp : p ∈ block.children) (hq : q ∈ block.children)
    (he : p.expression? = some e) (hcall : e.isReleaseCall x = true) (hn : q.expression? = some n)
    (hassign : n.assignsName x = true) :
    Model.reassigned (c.model.writes (.localVar d) (.node region)) e n = true ↔
      ∃ r ∈ block.children, r.isOverwrite x = true ∧ p.start < r.start ∧ r.start < q.start := by
  obtain ⟨function, receiver, hparts⟩ := Node.exists_releaseParts hcall
  obtain ⟨hnk, -⟩ := Node.exists_of_assignsName hassign
  have hep := Node.expression?_mem_preorder he
  have hnq := Node.expression?_mem_preorder hn
  have hel := Node.isLambda_eq_false hparts.kind (by decide)
  have hnl := Node.isLambda_eq_false hnk (by decide)
  simp only [Model.reassigned, List.any_eq_true, Bool.and_eq_true, Bool.not_eq_true', isAlways, beq_iff_eq]
  constructor
  · rintro ⟨w, hw, ⟨-, hew⟩, hwn⟩
    obtain ⟨r, hr, hwr⟩ := h.exists_statement (Node.mem_preorder_of_child hp hep) (Node.mem_preorder_of_child hq hnq)
      (h.mem_region_of_mem_writes hw) hew hwn
    -- neither of the two statements holds the write
    have hpr : p ≠ r := by
      rintro rfl
      exact (not_mem_preorder_of_always hew).1 (h.mem_expression_of_mem_writes hp he hw hwr)
    have hrq : r ≠ q := by
      rintro rfl
      exact (not_mem_preorder_of_always hwn).2 (h.mem_expression_of_mem_writes hq hn hw hwr)
    have hstart := ((h.executedBefore_eq_always_iff hp hr hpr hep hwr).1 hew).1
    refine ⟨r, hr, h.isOverwrite_of_mem_writes hr ?_ hw hwr, hstart,
      ((h.executedBefore_eq_always_iff hr hq hrq hwr hnq).1 hwn).1⟩
    rintro rfl
    have := h.start_lt_of_isReleaseCall hp he hcall
    omega
  · rintro ⟨r, hr, hover, hpr, hrq⟩
    obtain ⟨f, hf, hassign'⟩ := (Option.any_eq_true _ _).1 hover
    obtain ⟨w, hw, rfl⟩ := h.exists_write (c := c) hr hf hassign'
    have hwl := Node.isLambda_eq_false (Node.exists_of_assignsName hassign').1 (by decide)
    refine ⟨w, hw, ⟨?_, h.executedBefore_expressions hp hr he hf hel hwl hpr⟩,
      h.executedBefore_expressions hr hq hf hn hwl hnl hrq⟩
    have hne : r ≠ q := by
      rintro rfl
      exact Nat.lt_irrefl _ hrq
    exact Node.beq_eq_false_of_ne hr hq hne (Node.expression?_mem_preorder hf) hnq

/-- Statements stand in the source in the order of their positions. -/
private theorem start_lt_iff {i j : Nat} {p q : Node} (hp : block.children[i]? = some p)
    (hq : block.children[j]? = some q) : p.start < q.start ↔ i < j := by
  have hspans : ∀ {i j : Nat} {p q : Node}, block.children[i]? = some p → block.children[j]? = some q → i < j →
      p.start < q.start := by
    intro i j p q hp hq hij
    obtain ⟨hi, rfl⟩ := List.getElem?_eq_some_iff.1 hp
    obtain ⟨hj, rfl⟩ := List.getElem?_eq_some_iff.1 hq
    have hnested := h.nested block (Node.mem_preorder_self block)
    simp only [Node.isNested, Bool.and_eq_true, decide_eq_true_eq] at hnested
    have hgap := List.pairwise_iff_getElem.1 hnested.2 i j hi hj hij
    have hfilled := h.filled _ (List.getElem_mem hi)
    omega
  refine ⟨fun hlt => ?_, hspans hp hq⟩
  rcases Nat.lt_trichotomy i j with hij | rfl | hij
  · exact hij
  · rw [hp] at hq
    cases hq
    exact absurd hlt (Nat.lt_irrefl _)
  · exact absurd (hspans hq hp hij) (Nat.lt_asymm hlt)

end IsStraightLine

/-- A dispose call on the local inside a statement releases it and is not followed by a certain write before a place. -/
def Model.ReleasesInside (m : Model) (x : String) (region d p place : Node) : Prop :=
  ∃ e ∈ region.disposals, e.1 ∈ p.preorder ∧ m.refersTo e.2 (.localVar d) x = true ∧
    reassigned (m.writes (.localVar d) (.node region)) e.1 place = false

namespace IsStraightLine

open Disposal.Order

variable {c : Compilation} {x : String} {region block declaration d : Node}
  (h : IsStraightLine x region block declaration d)

include h

/-- Outside the block nothing refers to the local. -/
private theorem refersTo_eq_false_of_outside {part t : Node} (hplace : c.HasPlace region)
    (hpart : part ∈ region.children) (hne : part ≠ block) (ht : t ∈ part.preorder) :
    c.model.refersTo t (.localVar d) x = false := by
  have hmem := Node.mem_preorder_trans ht (Node.stripParens_mem_preorder t)
  have hdb := Node.mem_preorder_of_child h.declared h.mem_declaration
  have hd : (d == t.stripParens) = false := Node.beq_eq_false_of_ne h.body hpart (Ne.symm hne) hdb hmem
  have hanswer : (Symbol.localVar d).isAnswer (c.model.symbol? t.stripParens) = false := by
    obtain ⟨list, hlist, hdl, -⟩ := h.exists_variable
    have h₁ := Compilation.length_path_of_mem_children h.declared
    have h₂ := Compilation.length_path_of_mem_children hlist
    have h₃ := Compilation.length_path_of_mem_children (Node.mem_children_of_namedOf hdl)
    rw [Bool.eq_false_iff]
    intro hanswer
    have htb := Compilation.mem_preorder_of_isAnswer (hplace.of_mem_preorder (Node.mem_preorder_of_child h.body hdb))
      h.kind?_eq hdb (by omega) (hplace.of_mem_preorder (Node.mem_preorder_of_child hpart hmem)) hanswer
    exact hne (Node.eq_of_mem_preorder hpart h.body hmem htb)
  simp only [Model.refersTo, Symbol.node?, Option.any_some, hd, hanswer, Bool.and_false, Bool.or_false]

/-- The dispose calls on the local lie in the statements of the block. -/
private theorem exists_statement_of_mem_disposals {e : Node × Node} (hplace : c.HasPlace region)
    (he : e ∈ region.disposals) (hrefers : c.model.refersTo e.2 (.localVar d) x = true) :
    ∃ p ∈ block.children, e.1 ∈ p.preorder := by
  obtain ⟨hmem, r, hr, hstrip⟩ := Node.mem_disposals_iff.1 he
  obtain ⟨k, hregion, hk⟩ := Node.isAny_iff.1 h.bounds
  have hcall := (Node.disposeReceiver?_eq_some hr).1
  have hin := Node.mem_preorder_of_mem_walk (List.mem_filter.1 hmem).1
  rcases Node.mem_preorder_iff.1 hin with heq | ⟨part, hpart, hep⟩
  · rw [← heq, hcall] at hk
    cases hk
    exact absurd hregion (by decide)
  · by_cases hne : part = block
    · subst hne
      rcases Node.mem_preorder_iff.1 hep with heq | hep
      · rw [heq, h.kind] at hcall
        cases hcall
      · exact hep
    · have hcond : region.is .conditionalAccessExpression = false := by
        rw [Node.is_eq_of_kind? hk]
        clear hk
        revert k
        decide
      have hrp := Node.mem_preorder_of_disposeReceiver? hcond hpart hep hr
      have hreleased := Node.mem_preorder_trans hrp (Node.stripConversions_mem_preorder r)
      rw [hstrip] at hreleased
      rw [h.refersTo_eq_false_of_outside hplace hpart hne hreleased] at hrefers
      cases hrefers

/-- The dispose calls that count: they may run before, and the local is not certainly written in between. -/
private theorem disposedBefore_iff_exists {q n : Node} (hq : q ∈ block.children) (hn : q.expression? = some n)
    (hassign : n.assignsName x = true) :
    c.model.disposedBefore (.localVar d) n = true ↔
      ∃ e ∈ region.disposals, executedBefore e.1 n ≠ never ∧ c.model.refersTo e.2 (.localVar d) x = true ∧
        Model.reassigned (c.model.writes (.localVar d) (.node region)) e.1 n = false := by
  have hl := Node.isLambda_eq_false (Node.exists_of_assignsName hassign).1 (by decide)
  have hregion := h.region?_of_expression? hq hn hl
  simp only [Model.disposedBefore, hregion, h.name?_eq, Bool.or_false, Model.releasedByCall, List.any_eq_true,
    Bool.and_eq_true, isPossible, bne_iff_ne, Bool.not_eq_true', and_assoc]

section

variable {i k : Nat} {p q n : Node} (hp : block.children[i]? = some p) (hq : block.children[k]? = some q)
  (hn : q.expression? = some n) (hassign : n.assignsName x = true)

include hp hq hn hassign

/-- A dispose call in a statement may run before an assignment unless the statement stands behind it. -/
private theorem executedBefore_ne_never_iff {e : Node × Node} (he : e ∈ region.disposals) (hep : e.1 ∈ p.preorder) :
    executedBefore e.1 n ≠ never ↔ i ≤ k := by
  obtain ⟨hmem, r, hr, -⟩ := Node.mem_disposals_iff.1 he
  have hek := (Node.disposeReceiver?_eq_some hr).1
  have hnk := (Node.exists_of_assignsName hassign).1
  have hpb := List.mem_of_getElem? hp
  have hqb := List.mem_of_getElem? hq
  have hnq := Node.expression?_mem_preorder hn
  by_cases hik : i = k
  · -- within one statement, the call stands in the assignment
    subst hik
    rw [hp] at hq
    cases hq
    have hen : e.1 ∈ n.preorder := by
      rcases Node.mem_preorder_of_expression? hn hep with hmem | hquiet
      · exact hmem
      · rw [Node.isAny_actions, Node.is_eq_of_kind? hek] at hquiet
        cases hquiet.1
    have hne : e.1 ≠ n := by
      intro heq
      rw [heq, hnk] at hek
      cases hek
    simp [executedBefore_of_mem_preorder hen hne]
  · have hne : p ≠ q := by
      rintro rfl
      have h₁ := h.start_lt_iff hp hq
      have h₂ := h.start_lt_iff hq hp
      omega
    have hl := Node.isLambda_eq_false hnk (by decide)
    have hregions : ∃ r, e.1.region? = some r ∧ n.region? = some r :=
      ⟨region, h.region?_eq hmem (Node.mem_preorder_of_child hpb hep), h.region?_of_expression? hqb hn hl⟩
    rw [Ne, h.executedBefore_eq_never_iff hpb hqb hne hep hnq, h.start_lt_iff hp hq]
    simp only [hregions, and_true]
    omega

/-- After a dispose call that is a statement, nothing is written before an assignment just where no statement between
the two assigns to the local. -/
private theorem reassigned_eq_false_iff {e : Node} (he : p.expression? = some e) (hcall : e.isReleaseCall x = true) :
    Model.reassigned (c.model.writes (.localVar d) (.node region)) e n = false ↔
      ∀ j, i < j → j < k → ∀ r, block.children[j]? = some r → r.isOverwrite x = false := by
  rw [Bool.eq_false_iff, Ne,
    h.reassigned_iff (List.mem_of_getElem? hp) (List.mem_of_getElem? hq) he hcall hn hassign]
  constructor
  · intro hnone j hij hjk r hr
    rw [Bool.eq_false_iff]
    intro hover
    exact hnone ⟨r, List.mem_of_getElem? hr, hover, (h.start_lt_iff hp hr).2 hij, (h.start_lt_iff hr hq).2 hjk⟩
  · rintro hall ⟨r, hmem, hover, hpr, hrq⟩
    obtain ⟨j, hr⟩ := List.mem_iff_getElem?.1 hmem
    rw [hall j ((h.start_lt_iff hp hr).1 hpr) ((h.start_lt_iff hr hq).1 hrq) r hr] at hover
    cases hover

end

/-- A statement that is a dispose call is one of the calls that release the local. -/
private theorem mem_disposals {p e : Node} (hp : p ∈ block.children) (he : p.expression? = some e)
    (hcall : e.isReleaseCall x = true) :
    ∃ receiver, (e, receiver) ∈ region.disposals ∧ c.model.refersTo receiver (.localVar d) x = true := by
  obtain ⟨function, receiver, hparts⟩ := Node.exists_releaseParts hcall
  refine ⟨receiver, Node.mem_disposals_iff.2 ⟨?_, receiver, hparts.released, ?_⟩, ?_⟩
  · exact h.mem_ofRegion hp he (Node.isLambda_eq_false hparts.kind (by decide))
  · apply Node.stripConversions_of_insideConversion?_eq_none
    rw [Node.insideConversion?, (Node.isName_iff.1 hparts.disposes.name).1]
  · exact h.refersTo_receiver hp he hparts (h.start_lt_of_isReleaseCall hp he hcall)

/-- In a body that is a straight line for a local, the local is released before an assignment just where a dispose call
stands before it as a statement with no assignment between, or where a dispose call stands inside another statement up
to the assignment and the local is not certainly written in between. -/
theorem disposedBefore_iff (hplace : c.HasPlace region) {k : Nat} {q n : Node} (hq : block.children[k]? = some q)
    (hn : q.expression? = some n) (hassign : n.assignsName x = true) :
    c.model.disposedBefore (.localVar d) n = true ↔
      (∃ i < k, (∃ p, block.children[i]? = some p ∧ p.isRelease x = true) ∧
        ∀ j, i < j → j < k → ∀ r, block.children[j]? = some r → r.isOverwrite x = false) ∨
      ∃ i ≤ k, ∃ p, block.children[i]? = some p ∧ p.isRelease x = false ∧
        c.model.ReleasesInside x region d p n := by
  rw [h.disposedBefore_iff_exists (List.mem_of_getElem? hq) hn hassign]
  constructor
  · rintro ⟨e, he, hpossible, hrefers, hkept⟩
    obtain ⟨p, hmem, hep⟩ := h.exists_statement_of_mem_disposals hplace he hrefers
    obtain ⟨i, hp⟩ := List.mem_iff_getElem?.1 hmem
    have hik := (h.executedBefore_ne_never_iff hp hq hn hassign he hep).1 hpossible
    cases hrelease : p.isRelease x with
    | false => exact .inr ⟨i, hik, p, hp, hrelease, e, he, hep, hrefers, hkept⟩
    | true =>
      obtain ⟨f, hf, hcall⟩ := (Option.any_eq_true _ _).1 hrelease
      have heq : e.1 = f := by
        obtain ⟨-, r, hr, -⟩ := Node.mem_disposals_iff.1 he
        refine (Node.mem_preorder_of_isReleaseCall hf hcall hep).resolve_right ?_
        rw [Node.isAny_actions, Node.is_eq_of_kind? (Node.disposeReceiver?_eq_some hr).1]
        simp
      have hne : i ≠ k := by
        rintro rfl
        rw [hp] at hq
        cases hq
        rw [hf] at hn
        cases hn
        exact Node.not_assignsName hcall hassign
      rw [heq] at hkept
      exact .inl ⟨i, by omega, ⟨p, hp, hrelease⟩, (h.reassigned_eq_false_iff hp hq hn hassign hf hcall).1 hkept⟩
  · rintro (⟨i, hik, ⟨p, hp, hrelease⟩, hall⟩ | ⟨i, hik, p, hp, -, e, he, hep, hrefers, hkept⟩)
    · obtain ⟨f, hf, hcall⟩ := (Option.any_eq_true _ _).1 hrelease
      obtain ⟨receiver, hmem, hrefers⟩ := h.mem_disposals (c := c) (List.mem_of_getElem? hp) hf hcall
      have hbefore := (h.executedBefore_ne_never_iff hp hq hn hassign hmem (Node.expression?_mem_preorder hf)).2
        (Nat.le_of_lt hik)
      exact ⟨(f, receiver), hmem, hbefore, hrefers, (h.reassigned_eq_false_iff hp hq hn hassign hf hcall).2 hall⟩
    · exact ⟨e, he, (h.executedBefore_ne_never_iff hp hq hn hassign he hep).2 hik, hrefers, hkept⟩

omit h

namespace Sample

open Sketch

/-- `x.Dispose()` -/
def releasing : Sketch := call (access (name "x") "Dispose") []

/-- `x?.Dispose()` -/
def carefullyReleasing : Sketch :=
  call (ofKind .conditionalAccessExpression
    [(name "x").inField .condition, token "?",
     ofKind .memberBindingExpression [token ".", (name "Dispose").inField .name]]) []

/-- `x=new C();` -/
def renewing : Sketch := assign (name "x") (create "C")

/-- The file `class C{void M(){C x=new C();x.Dispose();x=new C();x?.Dispose();F();x=new C();x=new C();}}`. -/
def renewed : Document :=
  document "C.cs" [classOf "C" [method [] void "M" []
    [declare "C" "x" (create "C"), statement releasing, renewing, statement carefullyReleasing,
     statement (call (name "F") []), renewing, renewing]]]

/-- The file `class C{void M(){C x=new C();x=x.Dispose();}}`. -/
def renewedByItself : Document :=
  document "C.cs" [classOf "C" [method [] void "M" [] [declare "C" "x" (create "C"), assign (name "x") releasing]]]

/-- A straight line of a file with a statement that assigns to the local, by its position, and the assignment. -/
structure Overwritten (document : Document) (region block declaration d n : Node) (k : Nat) : Prop where
  place : (Compilation.ofDocuments [document]).HasPlace region
  line : IsStraightLine "x" region block declaration d
  assigns : n.assignsName "x" = true
  position : ∃ q, block.children[k]? = some q ∧ q.expression? = some n

/-- What can be found out about the assignments of a straight line by trying. -/
private theorem exists_overwritten (document : Document) (k : Nat) (test : Node → Node → Node → Bool)
    (h : ((Compilation.ofDocuments [document]).places.any fun region => region.children.any fun block =>
      block.children.any fun declaration =>
        match straightVariable? "x" region block declaration, block.children[k]?.bind (·.expression?) with
        | some d, some n => n.assignsName "x" && test block d n
        | _, _ => false) = true) :
    ∃ region block declaration d n, Overwritten document region block declaration d n k ∧ test block d n = true := by
  obtain ⟨region, hregion, h⟩ := List.any_eq_true.1 h
  obtain ⟨block, hblock, h⟩ := List.any_eq_true.1 h
  obtain ⟨declaration, hdeclaration, h⟩ := List.any_eq_true.1 h
  split at h
  · next d n hd hn =>
    rw [Bool.and_eq_true] at h
    exact ⟨region, block, declaration, d, n, ⟨Compilation.mem_places_iff.1 hregion,
      .of_straightVariable? hblock hdeclaration hd, h.1, Option.bind_eq_some_iff.1 hn⟩, h.2⟩
  · cases h

end Sample

/-- The theorem at `x?.Dispose();F();x=new C();x=new C();`: the local is released before the first of the two
assignments, and before the second no dispose call counts. -/
theorem disposedBefore_iff_renewed :
    (∃ region block declaration d n, Sample.Overwritten Sample.renewed region block declaration d n 6 ∧
      (Compilation.ofDocuments [Sample.renewed]).model.disposedBefore (.localVar d) n = true) ∧
    ∃ region block declaration d n, Sample.Overwritten Sample.renewed region block declaration d n 7 ∧
      ¬ ∃ i < 7, (∃ p, block.children[i]? = some p ∧ p.isRelease "x" = true) ∧
        ∀ j, i < j → j < 7 → ∀ r, block.children[j]? = some r → r.isOverwrite "x" = false := by
  constructor
  · obtain ⟨region, block, declaration, d, n, ho, htest⟩ := Sample.exists_overwritten Sample.renewed 6
      (fun block _ _ => block.children[4]?.any (·.isRelease "x") &&
        block.children[5]?.all fun r => !r.isOverwrite "x") (by decide +kernel)
    obtain ⟨q, hq, hn⟩ := ho.position
    rw [Bool.and_eq_true] at htest
    refine ⟨region, block, declaration, d, n, ho, (ho.line.disposedBefore_iff ho.place hq hn ho.assigns).2
      (.inl ⟨4, by decide, (Option.any_eq_true _ _).1 htest.1, ?_⟩)⟩
    intro j hij hjk r hr
    obtain rfl : j = 5 := by omega
    have hover := htest.2
    rw [hr] at hover
    simpa using hover
  · obtain ⟨region, block, declaration, d, n, ho, htest⟩ := Sample.exists_overwritten Sample.renewed 7
      (fun _ d n => !(Compilation.ofDocuments [Sample.renewed]).model.disposedBefore (.localVar d) n)
      (by decide +kernel)
    obtain ⟨q, hq, hn⟩ := ho.position
    refine ⟨region, block, declaration, d, n, ho, ?_⟩
    intro hrelease
    rw [(ho.line.disposedBefore_iff ho.place hq hn ho.assigns).2 (.inl hrelease)] at htest
    cases htest

/-- In `C x=new C();x=x.Dispose();` the local is taken to be released before the assignment, though no statement is a
dispose call. -/
theorem disposedBefore_renewedByItself :
    ∃ region block declaration d n, Sample.Overwritten Sample.renewedByItself region block declaration d n 2 ∧
      (Compilation.ofDocuments [Sample.renewedByItself]).model.disposedBefore (.localVar d) n = true ∧
      ∀ p ∈ block.children, p.isRelease "x" = false := by
  obtain ⟨region, block, declaration, d, n, ho, htest⟩ := Sample.exists_overwritten Sample.renewedByItself 2
    (fun block d n =>
      (Compilation.ofDocuments [Sample.renewedByItself]).model.disposedBefore (.localVar d) n &&
        block.children.all fun p => !p.isRelease "x") (by decide +kernel)
  simp only [Bool.and_eq_true, List.all_eq_true, Bool.not_eq_true'] at htest
  exact ⟨region, block, declaration, d, n, ho, htest⟩

end IsStraightLine

end Disposal

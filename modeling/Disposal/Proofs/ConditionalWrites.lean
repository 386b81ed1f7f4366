import Disposal.Proofs.Branches
import Disposal.Write

/-!
# Conditional assignments

Whether an assignment writes only if its target is null is told twice: `Write.isConditional` reads the operator between
the two sides, `Order.isConditionalChild` the first token among the children. They agree just where the operator stands
among the children as a token. Where it stands in a node of its own, the right side is taken to run whenever the
assignment does.

* `Order.isCertain_iff_beside`: one step of a way down apart from the others;
* `Order.executedBefore_of_conditional_write`: when the right side is known to run before something outside.
-/

namespace Disposal

namespace Order

/-! ### One step of a way -/

/-- Nothing on the way from `l` down to `a` may be left out, or left before `a` runs, except at the step below `n`. -/
def IsCertainBeside (n l a : Node) : Prop :=
  ∀ p ∈ l.preorder, ∀ k ∈ p.children, a ∈ k.preorder → p ≠ n →
    isConditionalChild p k = false ∧ leavesBefore a p k = false

theorem isCertain_iff_beside {n c l a : Node} (hn : n ∈ l.preorder) (hc : c ∈ n.children) (ha : a ∈ c.preorder) :
    IsCertain l a ↔ IsCertainBeside n l a ∧ isConditionalChild n c = false ∧ leavesBefore a n c = false := by
  constructor
  · intro h
    exact ⟨fun p hp k hk hak _ => h p hp k hk hak, h n hn c hc ha⟩
  · rintro ⟨hbeside, hstep⟩ p hp k hk hak
    by_cases hpn : p = n
    · subst hpn
      obtain rfl := Node.eq_of_mem_preorder hk hc hak ha
      exact hstep
    · exact hbeside p hp k hk hak hpn

/-! ### Assignments -/

/-- No jump leaves an assignment. -/
private theorem leavesBefore_assignment {n c a : Node} (hk : n.kind? = some .assignmentExpression) :
    leavesBefore a n c = false := by
  rw [leavesBefore, Node.isAny_eq_of_kind? hk, Node.is_eq_of_kind? hk, Node.is_eq_of_kind? hk]
  rfl

private theorem isConditionalChild_assignment {n c : Node} (hk : n.kind? = some .assignmentExpression) :
    isConditionalChild n c = true ↔ n.operatorToken = "??=" ∧ isPart c n.lastNamed? = true := by
  simp only [isConditionalChild, hk, Bool.and_eq_true, beq_iff_eq]

/-- For an assignment that writes only if its target is null, the two readings of its operator agree just where the
operator is a token among the children and the right side comes last. Something in the right side is known to run
before something outside the assignment just where they do not agree and everything else on the way is certain. -/
theorem executedBefore_of_conditional_write {doc : Nat} {t : Tree} {w : Write} {s : Node.Assignment} {a b : Node}
    (ha : a ∈ (Node.root doc t).preorder) (hb : b ∈ (Node.root doc t).preorder) (hw : w.isConditional = true)
    (hs : w.node.assignment? = some s) (has : a ∈ s.right.preorder) (hbn : b ∉ w.node.preorder) :
    (isConditionalChild w.node s.right = w.isConditional ↔
      w.node.operatorToken = "??=" ∧ isPart s.right w.node.lastNamed? = true) ∧
    (executedBefore a b = always ↔
      isConditionalChild w.node s.right ≠ w.isConditional ∧
        ∃ top ∈ (Node.root doc t).preorder, ∃ l ∈ top.children, ∃ r ∈ top.children, l ≠ r ∧
          w.node ∈ l.preorder ∧ b ∈ r.preorder ∧ RunsFirst top l r ∧ ShareRegion a b ∧ IsCertainBeside w.node l a) := by
  obtain ⟨hk, -, hright⟩ := Node.kind_of_assignment? hs
  have han := Node.mem_preorder_of_child hright has
  have hn := Node.mem_root_of_mem_preorder rfl ha han
  rw [hw]
  refine ⟨isConditionalChild_assignment hk, ?_⟩
  rw [Ne, Bool.not_eq_true]
  constructor
  · intro ho
    obtain ⟨top, htop, l, hl, r, hr, hlr, hal, hbr⟩ := exists_fork_of_always ha hb ho
    obtain ⟨hrun, hshare, hcertain⟩ := (executedBefore_eq_always_iff hl hr hlr hal hbr).1 ho
    have hnl := Node.mem_preorder_of_parting hn htop hl hr hal hbr han hbn
    obtain ⟨hbeside, hchild, -⟩ := (isCertain_iff_beside hnl hright has).1 hcertain
    exact ⟨hchild, top, htop, l, hl, r, hr, hlr, hnl, hbr, ofChildren_eq_always_iff.1 hrun, hshare, hbeside⟩
  · rintro ⟨hchild, top, -, l, hl, r, hr, hlr, hnl, hbr, hrun, hshare, hbeside⟩
    have hal := Node.mem_preorder_trans hnl han
    have hcertain := (isCertain_iff_beside hnl hright has).2 ⟨hbeside, hchild, leavesBefore_assignment hk⟩
    exact (executedBefore_eq_always_iff hl hr hlr hal hbr).2 ⟨ofChildren_eq_always_iff.2 hrun, hshare, hcertain⟩

namespace Sample

open Sketch

/-- `x??=F();` -/
def filling : Sketch :=
  statement (ofKind .assignmentExpression
    [(name "x").inField .left, ofLabel (.other "assignment_operator") [token "??="],
     (Sketch.call (name "F") []).inField .right])

/-- The file `class C{void M(){x??=F();B();}}`. -/
def filled : Node :=
  .root 0 (document "C.cs"
    [classOf "C" [method [] void "M" [] [filling, statement (Sketch.call (name "B") [])]]]).tree

/-- The call on the right side and the one behind, with the write. -/
private theorem exists_filled :
    ∃ w : Write, ∃ s, w.isConditional = true ∧ w.node.assignment? = some s ∧ ∃ a ∈ filled.preorder,
      ∃ b ∈ filled.preorder, a ∈ s.right.preorder ∧ b ∉ w.node.preorder ∧ ShareRegion a b ∧
        executedBefore a b = always := by
  have hany : (filled.preorder.any fun n =>
      match n.assignment? with
      | some s =>
        (Write.mk .assign n (some s.right)).isConditional &&
          (s.right.preorder.filter (·.is .invocationExpression)).any fun a =>
            (filled.preorder.filter (·.is .invocationExpression)).any fun b =>
              !n.contains b && executedBefore a b == always
      | none => false) = true := by
    decide +kernel
  obtain ⟨n, hn, h⟩ := List.any_eq_true.1 hany
  split at h
  case h_2 => cases h
  case h_1 s hs =>
    simp only [Bool.and_eq_true, List.any_eq_true, Bool.not_eq_true', beq_iff_eq] at h
    obtain ⟨hw, a, ha, b, hb, hbn, ho⟩ := h
    have has := (List.mem_filter.1 ha).1
    have hbr := (List.mem_filter.1 hb).1
    have har := Node.mem_preorder_trans hn (Node.mem_preorder_of_child (Node.kind_of_assignment? hs).2.2 has)
    obtain ⟨top, -, l, hl, r, hr, hlr, hal, hbr'⟩ := exists_fork_of_always har hbr ho
    have hshare := ((executedBefore_eq_always_iff hl hr hlr hal hbr').1 ho).2.1
    exact ⟨⟨.assign, n, some s.right⟩, s, hw, hs, a, har, b, hbr, has, not_mem_preorder_of_contains hbn, hshare, ho⟩

end Sample

/-- In `x??=F();B();` the call on the right side is taken always to run before the one behind. -/
theorem executedBefore_conditional_write_eq_always :
    ∃ w : Write, ∃ s, w.isConditional = true ∧ w.node.assignment? = some s ∧ ∃ a ∈ Sample.filled.preorder,
      ∃ b ∈ Sample.filled.preorder, a ∈ s.right.preorder ∧ b ∉ w.node.preorder ∧ ShareRegion a b ∧
        executedBefore a b = always :=
  Sample.exists_filled

/-- The theorem at `x??=F();B();`: the operator is not among the tokens. -/
theorem executedBefore_of_conditional_write_filled :
    ∃ w : Write, ∃ s, w.isConditional = true ∧ w.node.assignment? = some s ∧ ∃ a ∈ Sample.filled.preorder,
      ∃ b ∈ Sample.filled.preorder, a ∈ s.right.preorder ∧ b ∉ w.node.preorder ∧
        isConditionalChild w.node s.right ≠ w.isConditional ∧
        ¬ (w.node.operatorToken = "??=" ∧ isPart s.right w.node.lastNamed? = true) := by
  obtain ⟨w, s, hw, hs, a, ha, b, hb, has, hbn, -, ho⟩ := Sample.exists_filled
  obtain ⟨hagree, horder⟩ := executedBefore_of_conditional_write ha hb hw hs has hbn
  have hne := (horder.1 ho).1
  exact ⟨w, s, hw, hs, a, ha, b, hb, has, hbn, hne, fun h => hne (hagree.2 h)⟩

end Order

end Disposal

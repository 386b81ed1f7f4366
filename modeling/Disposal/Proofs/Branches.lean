import Disposal.Proofs.Ordering

/-!
# Branches

Code that some executions of a construct leave out does not always run before what stands outside the construct, and of
two branches that exclude each other neither is known to run before the other.

* `Order.executedBefore_ne_always_of_conditional`: what a step of the way up leaves to chance, at any depth below;
* `Order.executedBefore_of_branches`: both together.
-/

namespace Disposal

namespace Order

/-! ### Outside a construct -/

section

variable {root n c a b : Node} (hroot : root.ancestors = []) (ha : a ∈ root.preorder) (hb : b ∈ root.preorder)
  (hc : c ∈ n.children) (hac : a ∈ c.preorder)

include hroot ha hb hc hac

/-- With the answer `always`, a construct around `a` but not `b` neither leaves `a` to chance nor is left before it
runs. -/
theorem step_of_executedBefore_eq_always (hbn : b ∉ n.preorder) (ho : executedBefore a b = always) :
    isConditionalChild n c = false ∧ leavesBefore a n c = false := by
  obtain ⟨top, htop, l, hl, r, hr, hlr, hal, hbr⟩ := exists_fork_of_always ha hb ho
  have hcertain := ((executedBefore_eq_always_iff hl hr hlr hal hbr).1 ho).2.2
  have han := Node.mem_preorder_of_child hc hac
  have hn := Node.mem_root_of_mem_preorder hroot ha han
  have hnl := Node.mem_preorder_of_parting hn htop hl hr hal hbr han hbn
  exact hcertain n hnl c hc hac

/-- What lies below a child that may be left out does not always run before what is outside. -/
theorem executedBefore_ne_always_of_conditional (hbn : b ∉ n.preorder) (h : isConditionalChild n c = true) :
    executedBefore a b ≠ always := by
  intro ho
  rw [(step_of_executedBefore_eq_always hroot ha hb hc hac hbn ho).1] at h
  cases h

omit hroot ha hb in
/-- Inside the construct it is enough that the child comes before no other one. -/
private theorem executedBefore_ne_always_of_children (hbn : b ∈ n.preorder) (hbc : b ∉ c.preorder)
    (h : ∀ d ∈ n.children, d ≠ c → ofChildren n c d ≠ always) : executedBefore a b ≠ always := by
  intro ho
  rcases Node.mem_preorder_iff.1 hbn with rfl | ⟨d, hd, hbd⟩
  · -- a construct is not ordered against what is below it
    exact (not_mem_preorder_of_always ho).2 (Node.mem_preorder_of_child hc hac)
  · have hdc : d ≠ c := by
      rintro rfl
      exact hbc hbd
    have hfork := (executedBefore_eq_always_iff hc hd hdc.symm hac hbd).1 ho
    exact h d hd hdc hfork.1

end

/-! ### Code that may be left out -/

/-- The value that a `switch` looks at. -/
def governing? (n : Node) : Option Node := n.field .value <|> n.firstNamed?

/-- The node `a` lies in code that some executions of a construct leave out, and `b` outside. -/
inductive Skippable (a b : Node) : Prop where
  /-- Of `if`, `?:` and `while`, what is not the condition. -/
  | choice {n c : Node} (hk : n.isAny [.ifStatement, .conditionalExpression, .whileStatement] = true)
      (hc : c ∈ n.children) (hcond : isPart c (condition? n) = false) (ha : a ∈ c.preorder) (hb : b ∉ n.preorder)
  /-- Of `for`, what is not an initializer. -/
  | counting {n c : Node} (hk : n.kind? = some .forStatement) (hc : c ∈ n.children)
      (hpart : forPart n c ≠ .initializer) (ha : a ∈ c.preorder) (hb : b ∉ n.preorder)
  /-- The body of `foreach`. -/
  | round {n c : Node} (hk : n.isAny [.forEachStatement, .foreachStatement] = true) (hc : c ∈ n.children)
      (hbody : isPart c (loopBody? n) = true) (ha : a ∈ c.preorder) (hb : b ∉ n.preorder)
  /-- A `catch` clause of a `try` statement, or what is in it. -/
  | handler {n c : Node} (hk : n.kind? = some .tryStatement) (hc : c ∈ n.children) (hcatch : c.is .catchClause = true)
      (ha : a ∈ c.preorder) (hb : b ∉ c.preorder)
  /-- A section of a `switch` statement, or what is in it. -/
  | case {n c : Node} (hk : n.kind? = some .switchBody) (hc : c ∈ n.children) (ha : a ∈ c.preorder)
      (hb : b ∉ c.preorder)
  /-- An arm of a `switch` expression, or what is in it, against the rest of the expression. -/
  | arm {n c : Node} (hk : n.kind? = some .switchExpression) (hc : c ∈ n.children)
      (hvalue : isPart c (governing? n) = false) (ha : a ∈ c.preorder) (hb : b ∈ n.preorder) (hbc : b ∉ c.preorder)
  /-- What is in a clause, section or arm. -/
  | clause {n c : Node} (hk : n.isAny [.catchClause, .switchSection, .switchExpressionArm] = true)
      (hc : c ∈ n.children) (ha : a ∈ c.preorder) (hb : b ∉ n.preorder)
  /-- The last operand of an operator that may do without it. -/
  | operand {n c : Node} (hk : n.kind? = some .binaryExpression) (hop : n.operatorToken ∈ ["&&", "||", "??"])
      (hc : c ∈ n.children) (hlast : isPart c n.lastNamed? = true) (ha : a ∈ c.preorder) (hb : b ∉ n.preorder)
  /-- Of a conditional access, what is not the receiver. -/
  | access {n c : Node} (hk : n.kind? = some .conditionalAccessExpression) (hc : c ∈ n.children)
      (hfirst : isPart c n.firstNamed? = false) (ha : a ∈ c.preorder) (hb : b ∉ n.preorder)

/-- The nodes `a` and `b` lie in two branches of one construct, only one of which runs. -/
inductive Exclusive (a b : Node) : Prop where
  /-- The branches of `if` and `?:`. -/
  | choice {n l r : Node} (hk : n.isAny [.ifStatement, .conditionalExpression] = true) (hl : l ∈ n.children)
      (hr : r ∈ n.children) (hlr : l ≠ r) (hlc : isPart l (condition? n) = false)
      (hrc : isPart r (condition? n) = false) (ha : a ∈ l.preorder) (hb : b ∈ r.preorder)
  /-- The sections of a `switch` statement. -/
  | cases {n l r : Node} (hk : n.kind? = some .switchBody) (hl : l ∈ n.children) (hr : r ∈ n.children) (hlr : l ≠ r)
      (ha : a ∈ l.preorder) (hb : b ∈ r.preorder)
  /-- The arms of a `switch` expression. -/
  | arms {n l r : Node} (hk : n.kind? = some .switchExpression) (hl : l ∈ n.children) (hr : r ∈ n.children)
      (hlr : l ≠ r) (hlv : isPart l (governing? n) = false) (hrv : isPart r (governing? n) = false)
      (ha : a ∈ l.preorder) (hb : b ∈ r.preorder)
  /-- The `catch` clauses of a `try` statement, and its block. -/
  | handlers {n l r : Node} (hk : n.kind? = some .tryStatement) (hl : l ∈ n.children) (hr : r ∈ n.children)
      (hlr : l ≠ r) (hlk : l.isAny [.block, .catchClause] = true) (hrk : r.isAny [.block, .catchClause] = true)
      (ha : a ∈ l.preorder) (hb : b ∈ r.preorder)

section

variable {root a b : Node} (hroot : root.ancestors = []) (ha : a ∈ root.preorder) (hb : b ∈ root.preorder)

include hroot ha hb in
private theorem Skippable.executedBefore_ne_always (h : Skippable a b) : executedBefore a b ≠ always := by
  cases h with
  | choice hk hc hcond hac hbn =>
    obtain ⟨k, hk, hn⟩ := Node.isAny_iff.1 hk
    apply executedBefore_ne_always_of_conditional hroot ha hb hc hac hbn
    simp only [List.mem_cons, List.not_mem_nil, or_false] at hk
    rcases hk with rfl | rfl | rfl <;> simp [isConditionalChild, hn, hcond]
  | counting hk hc hpart hac hbn =>
    apply executedBefore_ne_always_of_conditional hroot ha hb hc hac hbn
    simpa [isConditionalChild, hk] using hpart
  | round hk hc hbody hac hbn =>
    obtain ⟨k, hk, hn⟩ := Node.isAny_iff.1 hk
    apply executedBefore_ne_always_of_conditional hroot ha hb hc hac hbn
    simp only [List.mem_cons, List.not_mem_nil, or_false] at hk
    rcases hk with rfl | rfl <;> simp [isConditionalChild, hn, hbody]
  | @handler n c hk hc hcatch hac hbc =>
    by_cases hbn : b ∈ n.preorder
    · apply executedBefore_ne_always_of_children hc hac hbn hbc
      intro d _ _
      simp only [ofChildren, hk]
      split <;> simp
    · apply executedBefore_ne_always_of_conditional hroot ha hb hc hac hbn
      simp [isConditionalChild, hk, hcatch]
  | @case n c hk hc hac hbc =>
    by_cases hbn : b ∈ n.preorder
    · apply executedBefore_ne_always_of_children hc hac hbn hbc
      intro d _ _
      simp [ofChildren, hk]
    · apply executedBefore_ne_always_of_conditional hroot ha hb hc hac hbn
      simp [isConditionalChild, hk]
  | @arm n c hk hc hvalue hac hbn hbc =>
    apply executedBefore_ne_always_of_children hc hac hbn hbc
    intro d _ _ ho
    simp only [ofChildren, hk] at ho
    rw [headFirst_eq_always_iff] at ho
    rw [governing?, ho] at hvalue
    cases hvalue
  | clause hk hc hac hbn =>
    obtain ⟨k, hk, hn⟩ := Node.isAny_iff.1 hk
    apply executedBefore_ne_always_of_conditional hroot ha hb hc hac hbn
    simp only [List.mem_cons, List.not_mem_nil, or_false] at hk
    rcases hk with rfl | rfl | rfl <;> simp [isConditionalChild, hn]
  | operand hk hop hc hlast hac hbn =>
    apply executedBefore_ne_always_of_conditional hroot ha hb hc hac hbn
    simp only [isConditionalChild, hk, hlast, Bool.and_true]
    exact List.contains_iff_mem.2 hop
  | access hk hc hfirst hac hbn =>
    apply executedBefore_ne_always_of_conditional hroot ha hb hc hac hbn
    simp [isConditionalChild, hk, hfirst]

private theorem headFirst_eq_sometimes {l r : Node} {head? : Option Node} (hl : isPart l head? = false)
    (hr : isPart r head? = false) : headFirst l r head? = sometimes := by
  simp [headFirst, hl, hr]

theorem Exclusive.symm (h : Exclusive a b) : Exclusive b a := by
  cases h with
  | choice hk hl hr hlr hlc hrc ha hb => exact .choice hk hr hl hlr.symm hrc hlc hb ha
  | cases hk hl hr hlr ha hb => exact .cases hk hr hl hlr.symm hb ha
  | arms hk hl hr hlr hlv hrv ha hb => exact .arms hk hr hl hlr.symm hrv hlv hb ha
  | handlers hk hl hr hlr hlk hrk ha hb => exact .handlers hk hr hl hlr.symm hrk hlk hb ha

theorem Exclusive.executedBefore_eq_sometimes (h : Exclusive a b) : executedBefore a b = sometimes := by
  cases h with
  | choice hk hl hr hlr hlc hrc ha hb =>
    obtain ⟨k, hk, hn⟩ := Node.isAny_iff.1 hk
    apply Order.executedBefore_eq_sometimes hl hr hlr ha hb
    simp only [List.mem_cons, List.not_mem_nil, or_false] at hk
    rcases hk with rfl | rfl <;> simp only [ofChildren, hn] <;> exact headFirst_eq_sometimes hlc hrc
  | cases hk hl hr hlr ha hb =>
    apply Order.executedBefore_eq_sometimes hl hr hlr ha hb
    simp only [ofChildren, hk]
  | arms hk hl hr hlr hlv hrv ha hb =>
    apply Order.executedBefore_eq_sometimes hl hr hlr ha hb
    simp only [ofChildren, hk]
    exact headFirst_eq_sometimes hlv hrv
  | @handlers n l r hk hl hr hlr hlk hrk ha hb =>
    apply Order.executedBefore_eq_sometimes hl hr hlr ha hb
    obtain ⟨k, hk', hln⟩ := Node.isAny_iff.1 hlk
    simp only [List.mem_cons, List.not_mem_nil, or_false] at hk'
    have hfinally : ¬ (l.is .finallyClause && r.is .block) = true := by
      rcases hk' with rfl | rfl <;> simp [Node.is_eq_of_kind? hln]
    simp only [ofChildren, hk]
    rw [if_neg hfinally]

end

/-- Code that may be left out does not always run before what is outside, and the order of branches that exclude each
other stays open. -/
theorem executedBefore_of_branches {doc : Nat} {t : Tree} {a b : Node} (ha : a ∈ (Node.root doc t).preorder)
    (hb : b ∈ (Node.root doc t).preorder) :
    (Skippable a b → executedBefore a b ≠ always) ∧
      (Exclusive a b → executedBefore a b = sometimes ∧ executedBefore b a = sometimes) := by
  constructor
  · intro h
    exact h.executedBefore_ne_always rfl ha hb
  · intro h
    exact ⟨h.executedBefore_eq_sometimes, h.symm.executedBefore_eq_sometimes⟩

namespace Sample

open Sketch

/-- `if(p)A();else B();` -/
def branching : Sketch :=
  ofKind .ifStatement
    [token "if", token "(", (name "p").inField .condition, token ")",
     (statement (Sketch.call (name "A") [])).inField .consequence, (token "else").spaced,
     (statement (Sketch.call (name "B") [])).inField .alternative]

/-- The file `class C{void M(){if(p)A();else B();D();}}`. -/
def branched : Node :=
  .root 0 (document "C.cs"
    [classOf "C" [method [] void "M" [] [branching, statement (Sketch.call (name "D") [])]]]).tree

/-- `x=k switch{_=>F()};` -/
def selecting : Sketch :=
  let arm := ofKind .switchExpressionArm [leaf (.other "discard") "_", token "=>", Sketch.call (name "F") []]
  assign (name "x")
    (ofKind .switchExpression ([(name "k").spaced, token "switch"] ++ between "\x7b" "\x7d" [arm]))

/-- The file `class C{void M(){x=k switch{_=>F()};B();}}`. -/
def selected : Node :=
  .root 0 (document "C.cs"
    [classOf "C" [method [] void "M" [] [selecting, statement (Sketch.call (name "B") [])]]]).tree

end Sample

private theorem ne_of_beq_eq_false {l r : Node} (h : (l == r) = false) : l ≠ r := by
  rintro rfl
  rw [Node.beq_refl] at h
  cases h

theorem not_mem_preorder_of_contains {n x : Node} (h : n.contains x = false) : x ∉ n.preorder := by
  intro hx
  rw [Node.contains_of_mem_preorder hx] at h
  cases h

/-- The theorem at `if(p)A();else B();D();`: the two calls of the choice exclude each other, and the first may be left
out before the third. -/
theorem executedBefore_of_branches_choice :
    ∃ a ∈ Sample.branched.preorder, ∃ b ∈ Sample.branched.preorder, ∃ d ∈ Sample.branched.preorder,
      (Skippable a d ∧ executedBefore a d ≠ always) ∧
        Exclusive a b ∧ executedBefore a b = sometimes ∧ executedBefore b a = sometimes := by
  have hany : ((Sample.branched.preorder.filter (·.is .ifStatement)).any fun n =>
      n.children.any fun l => n.children.any fun r =>
        !(l == r) && !isPart l (condition? n) && !isPart r (condition? n) &&
          l.preorder.any (·.is .invocationExpression) && r.preorder.any (·.is .invocationExpression) &&
          (Sample.branched.preorder.any fun d => d.is .invocationExpression && !n.contains d)) = true := by
    decide +kernel
  obtain ⟨n, hn, h⟩ := List.any_eq_true.1 hany
  obtain ⟨l, hl, h⟩ := List.any_eq_true.1 h
  obtain ⟨r, hr, h⟩ := List.any_eq_true.1 h
  simp only [Bool.and_eq_true, Bool.not_eq_true', List.any_eq_true] at h
  obtain ⟨⟨⟨⟨⟨hlr, hlc⟩, hrc⟩, a, ha, -⟩, b, hb, -⟩, d, hd, -, hnd⟩ := h
  obtain ⟨hn, hk⟩ := List.mem_filter.1 hn
  have hk' := Node.is_iff.1 hk
  have har := Node.mem_preorder_trans hn (Node.mem_preorder_of_child hl ha)
  have hbr := Node.mem_preorder_trans hn (Node.mem_preorder_of_child hr hb)
  have hskip : Skippable a d := by
    refine .choice ?_ hl hlc ha (not_mem_preorder_of_contains hnd)
    rw [Node.isAny_eq_of_kind? hk']
    rfl
  have hex : Exclusive a b := by
    refine .choice ?_ hl hr (ne_of_beq_eq_false hlr) hlc hrc ha hb
    rw [Node.isAny_eq_of_kind? hk']
    rfl
  exact ⟨a, har, b, hbr, d, hd, ⟨hskip, (executedBefore_of_branches har hd).1 hskip⟩, hex,
    (executedBefore_of_branches har hbr).2 hex⟩

/-- In `x=k switch{_=>F()};B();` the arm itself always runs before the statement behind. -/
theorem executedBefore_arm_eq_always :
    (∀ n ∈ Sample.selected.preorder, n.isNested = true) ∧
    ∃ n ∈ Sample.selected.preorder, n.is .switchExpression = true ∧
      ∃ arm ∈ n.children, arm.is .switchExpressionArm = true ∧ isPart arm (governing? n) = false ∧
        ∃ b ∈ Sample.selected.preorder, b ∉ n.preorder ∧ executedBefore arm b = always := by
  have hnested : Sample.selected.preorder.all (·.isNested) = true := by decide +kernel
  have hany : ((Sample.selected.preorder.filter (·.is .switchExpression)).any fun n =>
      n.children.any fun arm => arm.is .switchExpressionArm && !isPart arm (governing? n) &&
        (Sample.selected.preorder.filter (·.is .expressionStatement)).any fun b =>
          !n.contains b && executedBefore arm b == always) = true := by
    decide +kernel
  refine ⟨List.all_eq_true.1 hnested, ?_⟩
  obtain ⟨n, hn, h⟩ := List.any_eq_true.1 hany
  obtain ⟨arm, harm, h⟩ := List.any_eq_true.1 h
  simp only [Bool.and_eq_true, Bool.not_eq_true', List.any_eq_true, beq_iff_eq] at h
  obtain ⟨⟨hk, hvalue⟩, b, hb, hnb, ho⟩ := h
  obtain ⟨hn, hnk⟩ := List.mem_filter.1 hn
  exact ⟨n, hn, hnk, arm, harm, hk, hvalue, b, (List.mem_filter.1 hb).1, not_mem_preorder_of_contains hnb, ho⟩

end Order

end Disposal

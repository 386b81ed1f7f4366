import Disposal.Order
import Disposal.Proofs.Nodes

/-!
# Structured bodies

The statements and clauses of a body form a tree of their own inside the syntax tree: `Node.parts` lists those that
stand directly below a node, and `Node.Holds` those below it at any depth. A body is *structured* when it is built
from the statements of `Node.statementKinds` in the way the grammar prescribes (`Node.IsStructured`).

* `Node.eq_of_beq`: below one node, places are told apart by their numbers;
* `Node.IsStructured.holds_of_mem_preorder`: every statement of a structured body is reached through statements;
* `Node.exists_fork`: where the ways to two statements part.
-/

namespace Disposal.Node

/-! ### Statements and clauses -/

/-- The statements that a structured body is built from. -/
def statementKinds : List Kind :=
  [.expressionStatement, .localDeclarationStatement, .block, .ifStatement, .whileStatement, .doStatement,
   .forStatement, .forEachStatement, .foreachStatement, .switchStatement, .usingStatement, .lockStatement,
   .fixedStatement, .tryStatement, .breakStatement, .continueStatement, .returnStatement, .throwStatement]

/-- The parts of `switch` and `try` that hold statements. -/
def clauseKinds : List Kind := [.switchBody, .switchSection, .catchClause, .finallyClause]

/-- What a structured body does not contain: jumps to labels, iterators, and functions of its own. -/
def strayKinds : List Kind :=
  [.gotoStatement, .yieldStatement, .lambdaExpression, .anonymousMethodExpression, .localFunctionStatement]

/-- The statements that leave the construct they stand in. -/
def jumpKinds : List Kind := [.breakStatement, .continueStatement, .returnStatement, .throwStatement]

def isStatement (n : Node) : Bool := n.isAny statementKinds

/-- Whether control passes through the node: statements and clauses. -/
def isFlow (n : Node) : Bool := n.isAny (statementKinds ++ clauseKinds)

/-- The statements and clauses directly below a node. -/
def parts (n : Node) : List Node := n.children.filter isFlow

/-- Whether a node has exactly one statement or clause below it, and that one satisfies `p`. -/
def hasOnly (n : Node) (p : Node → Bool) : Bool :=
  match n.parts with
  | [s] => p s
  | _ => false

/-- Whether the statements and clauses below a node are those that the grammar puts there. -/
def isShaped (n : Node) : Bool :=
  match n.kind? with
  | some .block | some .switchSection => n.parts.all isStatement
  | some .ifStatement =>
    n.parts.all isStatement && (n.parts.length == 1 || n.parts.length == 2) &&
      (Order.condition? n).all (!·.isFlow)
  | some .whileStatement => n.hasOnly isStatement && (Order.condition? n).all (!·.isFlow)
  | some .doStatement | some .usingStatement | some .lockStatement | some .fixedStatement => n.hasOnly isStatement
  | some .forStatement | some .forEachStatement | some .foreachStatement =>
    n.hasOnly fun s => s.isStatement && Order.isPart s (Order.loopBody? n)
  | some .switchStatement => n.hasOnly (·.is .switchBody)
  | some .switchBody => n.parts.all (·.is .switchSection)
  | some .tryStatement =>
    match n.parts with
    | body :: clauses =>
      body.is .block &&
        match clauses.dropWhile (·.is .catchClause) with
        | [] => true
        | [last] => last.is .finallyClause
        | _ => false
    | [] => false
  | some .catchClause | some .finallyClause => n.hasOnly (·.is .block)
  | _ => n.parts.isEmpty

/-- Whether the children of a node follow each other within it, and the node is not empty if control passes
through it. -/
def isLaidOut (n : Node) : Bool :=
  (n.children.all fun c => n.start ≤ c.start && c.start ≤ c.stop && c.stop ≤ n.stop) &&
    decide (n.children.Pairwise fun c d => c.stop ≤ d.start) && (!n.isFlow || n.start < n.stop)

/-- Whether no jump leaves a node: there is none below it. -/
def isCalm (n : Node) : Bool := n.preorder.all fun m => !m.isAny jumpKinds

/-- A node below which there are only statements of `statementKinds`, put together as the grammar prescribes, without
jumps out of `finally`. -/
structure IsStructured (n : Node) : Prop where
  tame : ∀ m ∈ n.preorder, m.isAny strayKinds = false
  shaped : ∀ m ∈ n.preorder, m.isShaped = true
  laidOut : ∀ m ∈ n.preorder, m.isLaidOut = true
  calm : ∀ m ∈ n.preorder, m.is .finallyClause = true → m.isCalm = true

/-! ### Parts -/

theorem isRegion_of_isFlow {n : Node} (h : n.isFlow = true) : n.isRegion = false := by
  obtain ⟨k, hk, hn⟩ := isAny_iff.1 h
  rw [isRegion, isAny_eq_of_kind? hn]
  clear hn
  revert k
  decide

theorem isLambda_of_isFlow {n : Node} (h : n.isFlow = true) : n.isLambda = false := by
  obtain ⟨k, hk, hn⟩ := isAny_iff.1 h
  rw [isLambda, isAny_eq_of_kind? hn]
  clear hn
  revert k
  decide

theorem hasOnly_iff {n : Node} {p : Node → Bool} : n.hasOnly p = true ↔ ∃ s, n.parts = [s] ∧ p s = true := by
  unfold hasOnly
  split
  · next s hs =>
    constructor
    · intro h; exact ⟨s, hs, h⟩
    · rintro ⟨s', hs', h⟩
      rw [hs] at hs'
      cases hs'
      exact h
  · next hs =>
    constructor
    · intro h; cases h
    · rintro ⟨s, h, -⟩; exact absurd h (hs s)

theorem mem_children_of_mem_parts {n c : Node} (h : c ∈ n.parts) : c ∈ n.children := (List.mem_filter.1 h).1

theorem isFlow_of_mem_parts {n c : Node} (h : c ∈ n.parts) : c.isFlow = true := (List.mem_filter.1 h).2

/-! ### Statements at any depth -/

/-- The second node is the first or lies below it, reached through statements and clauses only. -/
inductive Holds : Node → Node → Prop
  | self (n : Node) : Holds n n
  | part {n p x : Node} (hp : p ∈ n.parts) (h : Holds p x) : Holds n x

theorem Holds.trans {n m x : Node} (h : Holds n m) (h' : Holds m x) : Holds n x := by
  induction h with
  | self => exact h'
  | part hp _ ih => exact .part hp (ih h')

theorem Holds.of_mem_parts {n p : Node} (h : p ∈ n.parts) : Holds n p := .part h (.self p)

theorem Holds.mem_preorder {n x : Node} (h : Holds n x) : x ∈ n.preorder := by
  induction h with
  | self n => exact mem_preorder_self n
  | part hp _ ih => exact mem_preorder_of_child (mem_children_of_mem_parts hp) ih

theorem Holds.isFlow {n x : Node} (h : Holds n x) (hn : n.isFlow = true) : x.isFlow = true := by
  induction h with
  | self => exact hn
  | part hp _ ih => exact ih (isFlow_of_mem_parts hp)

/-- The place of a node ends in that of every node above it. -/
private theorem Holds.exists_path {n x : Node} (h : Holds n x) : ∃ l, x.id.path = l ++ n.id.path :=
  exists_path_of_mem_preorder h.mem_preorder

/-- A node lies no higher than the nodes that hold it. -/
theorem Holds.length_le {n x : Node} (h : Holds n x) : n.id.path.length ≤ x.id.path.length := by
  obtain ⟨l, hl⟩ := h.exists_path
  rw [hl, List.length_append]
  omega

/-- What a part of a node holds lies lower than the node. -/
private theorem Holds.length_lt {n p x : Node} (h : Holds p x) (hp : p ∈ n.parts) :
    n.id.path.length < x.id.path.length := by
  obtain ⟨i, hi⟩ := path_of_mem_children (mem_children_of_mem_parts hp)
  have := h.length_le
  rw [hi, List.length_cons] at this
  omega

theorem Holds.beq_eq_false {n p x : Node} (h : Holds p x) (hp : p ∈ n.parts) : (x == n) = false :=
  beq_eq_false_of_length_ne (Nat.ne_of_gt (h.length_lt hp))

/-- A node at the height of a node that holds it is that node. -/
theorem Holds.eq_of_length {n x : Node} (h : Holds n x) (hl : x.id.path.length = n.id.path.length) : x = n := by
  cases h with
  | self => rfl
  | part hp h =>
    have := h.length_lt hp
    omega

/-- Different parts of a node have no place in common. -/
theorem ne_of_holds_of_holds {n p q x y : Node} (hp : p ∈ n.parts) (hq : q ∈ n.parts) (hne : p ≠ q)
    (hx : Holds p x) (hy : Holds q y) : x.id ≠ y.id := by
  intro h
  obtain ⟨l, hl⟩ := hx.exists_path
  obtain ⟨l', hl'⟩ := hy.exists_path
  have hpath : l ++ p.id.path = l' ++ q.id.path := by rw [← hl, ← hl', h]
  exact hne (eq_of_append_path (mem_children_of_mem_parts hp) (mem_children_of_mem_parts hq) hpath)

/-- Below one node, places are told apart by their numbers. -/
theorem eq_of_beq {n x y : Node} (hx : Holds n x) (hy : Holds n y) (h : (x == y) = true) : x = y := by
  rw [beq_iff] at h
  have hlen : x.id.path.length = y.id.path.length := by rw [h]
  induction hx with
  | self n => exact (hy.eq_of_length hlen.symm).symm
  | @part n p x hp hx ih =>
    cases hy with
    | self => exact (Holds.part hp hx).eq_of_length hlen
    | @part _ q _ hq hy =>
      by_cases hpq : p = q
      · subst hpq
        exact ih hy h hlen
      · exact absurd h (ne_of_holds_of_holds hp hq hpq hx hy)

/-- The ancestors of a node go through every node that holds it. -/
theorem Holds.exists_ancestors {n x : Node} (h : Holds n x) :
    ∃ l, x :: x.ancestors = l ++ n :: n.ancestors ∧ ∀ m ∈ l, Holds n m ∧ m ≠ n := by
  induction h with
  | self => exact ⟨[], rfl, by simp⟩
  | @part n p x hp _ ih =>
    obtain ⟨l, hl, hm⟩ := ih
    have hlow : ∀ m, Holds p m → m ≠ n := by
      rintro m hpm rfl
      exact Nat.lt_irrefl _ (hpm.length_lt hp)
    refine ⟨l ++ [p], ?_, ?_⟩
    · rw [hl, ancestors_of_mem_children (mem_children_of_mem_parts hp), List.append_assoc]
      rfl
    · intro m hmem
      rcases List.mem_append.1 hmem with hmem | hmem
      · exact ⟨.part hp (hm m hmem).1, hlow m (hm m hmem).1⟩
      · obtain rfl := List.mem_singleton.1 hmem
        exact ⟨.of_mem_parts hp, hlow m (.self m)⟩

/-! ### Structured bodies -/

theorem IsStructured.of_mem_children {n c : Node} (h : n.IsStructured) (hc : c ∈ n.children) : c.IsStructured where
  tame m hm := h.tame m (mem_preorder_of_child hc hm)
  shaped m hm := h.shaped m (mem_preorder_of_child hc hm)
  laidOut m hm := h.laidOut m (mem_preorder_of_child hc hm)
  calm m hm := h.calm m (mem_preorder_of_child hc hm)

theorem IsStructured.of_mem_parts {n p : Node} (h : n.IsStructured) (hp : p ∈ n.parts) : p.IsStructured :=
  h.of_mem_children (mem_children_of_mem_parts hp)

theorem IsStructured.of_holds {n x : Node} (h : n.IsStructured) (hx : Holds n x) : x.IsStructured := by
  induction hx with
  | self => exact h
  | part hp _ ih => exact ih (h.of_mem_parts hp)

theorem IsStructured.isShaped {n : Node} (h : n.IsStructured) : n.isShaped = true :=
  h.shaped n (mem_preorder_self n)

/-- Nodes that are neither statements nor clauses have no statements below them. -/
theorem IsStructured.isFlow_of_mem_parts {n p : Node} (h : n.IsStructured) (hp : p ∈ n.parts) :
    n.isFlow = true := by
  have hs := h.isShaped
  have hne : n.parts.isEmpty = false := by
    cases hl : n.parts with
    | nil => rw [hl] at hp; cases hp
    | cons => rfl
  unfold Node.isShaped at hs
  -- in every other case the kind of `n` is named
  split at hs <;> first
    | (rw [hne] at hs; cases hs)
    | (next hk => rw [isFlow, isAny_eq_of_kind? hk]; rfl)

theorem Holds.isFlow_of_mem_parts {n m p : Node} (h : Holds n m) (hn : n.IsStructured) (hp : p ∈ m.parts) :
    n.isFlow = true := by
  cases h with
  | self => exact hn.isFlow_of_mem_parts hp
  | part hq => exact hn.isFlow_of_mem_parts hq

/-- Expressions, declarations and jumps have no statements below them. -/
theorem IsStructured.parts_eq_nil {n : Node} {k : Kind} (h : n.IsStructured) (hn : n.kind? = some k)
    (hk : k ∈ .expressionStatement :: .localDeclarationStatement :: jumpKinds) : n.parts = [] := by
  have hs := h.isShaped
  simp only [jumpKinds, List.mem_cons, List.not_mem_nil, or_false] at hk
  rcases hk with rfl | rfl | rfl | rfl | rfl | rfl <;>
  · rw [Node.isShaped, hn] at hs
    exact List.isEmpty_iff.1 hs

/-- Every statement of a structured body is reached through statements. -/
theorem IsStructured.holds_of_mem_preorder {n x : Node} (h : n.IsStructured) (hx : x ∈ n.preorder)
    (hf : x.isFlow = true) : Holds n x := by
  revert h
  refine preorder_induction (motive := fun n => n.IsStructured → Holds n x) (fun _ => .self x) ?_ n hx
  intro n c hc _ ih hn
  have hcx : Holds c x := ih (hn.of_mem_children hc)
  have hcf : c.isFlow = true := by
    cases hcx with
    | self => exact hf
    | part hp => exact (hn.of_mem_children hc).isFlow_of_mem_parts hp
  exact .part (List.mem_filter.2 ⟨hc, hcf⟩) hcx

/-! ### Layout -/

theorem IsStructured.start_lt_stop {n : Node} (h : n.IsStructured) (hf : n.isFlow = true) : n.start < n.stop := by
  have hl := h.laidOut n (mem_preorder_self n)
  simp only [isLaidOut, hf, Bool.and_eq_true, Bool.not_true, Bool.false_or, decide_eq_true_eq] at hl
  exact hl.2

theorem IsStructured.within {n c : Node} (h : n.IsStructured) (hc : c ∈ n.children) :
    n.start ≤ c.start ∧ c.stop ≤ n.stop := by
  have hl := h.laidOut n (mem_preorder_self n)
  simp only [isLaidOut, Bool.and_eq_true, List.all_eq_true, decide_eq_true_eq] at hl
  have := hl.1.1 c hc
  omega

theorem IsStructured.within_of_holds {n x : Node} (h : n.IsStructured) (hx : Holds n x) :
    n.start ≤ x.start ∧ x.stop ≤ n.stop := by
  induction hx with
  | self => exact ⟨Nat.le_refl _, Nat.le_refl _⟩
  | part hp _ ih =>
    have h₁ := h.within (mem_children_of_mem_parts hp)
    have h₂ := ih (h.of_mem_parts hp)
    omega

/-- The parts of a node stand one after the other. -/
theorem IsStructured.pairwise_parts {n : Node} (h : n.IsStructured) :
    n.parts.Pairwise fun c d => c.stop ≤ d.start := by
  have hl := h.laidOut n (mem_preorder_self n)
  simp only [isLaidOut, Bool.and_eq_true, decide_eq_true_eq] at hl
  exact hl.1.2.filter _

theorem IsStructured.nodup_parts {n : Node} (h : n.IsStructured) : n.parts.Nodup := by
  refine h.pairwise_parts.imp_of_mem ?_
  rintro c d hc - hcd rfl
  have := (h.of_mem_parts hc).start_lt_stop (Node.isFlow_of_mem_parts hc)
  omega

/-- The parts of a node in the order in which they stand. -/
theorem IsStructured.exists_append {n p q : Node} (h : n.IsStructured) (hp : p ∈ n.parts) (hq : q ∈ n.parts)
    (hpq : p ≠ q) (hle : p.start ≤ q.start) :
    ∃ xs ys, n.parts = xs ++ p :: ys ∧ (∀ s ∈ xs ++ [p], s ∈ n.parts ∧ s ≠ q) ∧ ∀ s ∈ ys, s ∈ n.parts ∧ s ≠ p := by
  obtain ⟨xs, ys, hxy⟩ := List.append_of_mem hp
  have hpw := h.pairwise_parts
  have hnd := h.nodup_parts
  rw [hxy] at hpw hnd
  have hd := List.nodup_append.1 hnd
  refine ⟨xs, ys, hxy, ?_, ?_⟩
  · intro s hs
    rcases List.mem_append.1 hs with hs | hs
    · refine ⟨by rw [hxy]; exact List.mem_append_left _ hs, ?_⟩
      rintro rfl
      have h₁ := (List.pairwise_append.1 hpw).2.2 s hs p List.mem_cons_self
      have h₂ := (h.of_mem_parts hq).start_lt_stop (Node.isFlow_of_mem_parts hq)
      omega
    · rw [List.mem_singleton.1 hs]
      exact ⟨hp, hpq⟩
  · intro s hs
    refine ⟨by rw [hxy]; exact List.mem_append_right _ (List.mem_cons_of_mem _ hs), ?_⟩
    rintro rfl
    exact (List.nodup_cons.1 hd.2.1).1 hs

/-! ### The parts of `try` -/

/-- A `try` statement has a block, then `catch` clauses, then at most one `finally` clause. -/
private theorem IsStructured.exists_parts_of_try {n : Node} (h : n.IsStructured) (hn : n.kind? = some .tryStatement) :
    ∃ b cs fs, n.parts = b :: (cs ++ fs) ∧ b.kind? = some .block ∧ (∀ c ∈ cs, c.kind? = some .catchClause) ∧
      (fs = [] ∨ ∃ f, fs = [f] ∧ f.kind? = some .finallyClause) := by
  have hs := h.isShaped
  simp only [Node.isShaped, hn] at hs
  split at hs
  · next b clauses hp =>
    rw [Bool.and_eq_true, is_iff] at hs
    refine ⟨b, clauses.takeWhile (·.is .catchClause), clauses.dropWhile (·.is .catchClause), ?_, hs.1, ?_, ?_⟩
    · rw [hp, List.takeWhile_append_dropWhile]
    · intro c hc
      exact is_iff.1 (List.all_eq_true.1 List.all_takeWhile c hc)
    · have hlast := hs.2
      split at hlast
      · next hd => exact Or.inl hd
      · next last hd => exact Or.inr ⟨last, hd, is_iff.1 hlast⟩
      · cases hlast
  · cases hs

/-- The block of a `try` statement is its only one. -/
theorem IsStructured.eq_of_block {n b c : Node} (h : n.IsStructured) (hn : n.kind? = some .tryStatement)
    (hb : b ∈ n.parts) (hbk : b.kind? = some .block) (hc : c ∈ n.parts) (hck : c.kind? = some .block) : b = c := by
  obtain ⟨d, cs, fs, hp, -, hcs, hfs⟩ := h.exists_parts_of_try hn
  have only : ∀ m ∈ n.parts, m.kind? = some .block → m = d := by
    intro m hm hmk
    rw [hp, List.mem_cons, List.mem_append] at hm
    rcases hm with hm | hm | hm
    · exact hm
    · rw [hcs m hm] at hmk
      cases hmk
    · rcases hfs with rfl | ⟨f, rfl, hf⟩
      · cases hm
      · rw [List.mem_singleton.1 hm, hf] at hmk
        cases hmk
  rw [only b hb hbk, only c hc hck]

/-- The `finally` clause of a `try` statement is its only one. -/
theorem IsStructured.eq_of_finally {n f g : Node} (h : n.IsStructured) (hn : n.kind? = some .tryStatement)
    (hf : f ∈ n.parts) (hfk : f.kind? = some .finallyClause) (hg : g ∈ n.parts)
    (hgk : g.kind? = some .finallyClause) : f = g := by
  obtain ⟨d, cs, fs, hp, hd, hcs, hfs⟩ := h.exists_parts_of_try hn
  have last : ∀ m ∈ n.parts, m.kind? = some .finallyClause → m ∈ fs := by
    intro m hm hmk
    rw [hp, List.mem_cons, List.mem_append] at hm
    rcases hm with rfl | hm | hm
    · rw [hd] at hmk
      cases hmk
    · rw [hcs m hm] at hmk
      cases hmk
    · exact hm
  have hf' := last f hf hfk
  have hg' := last g hg hgk
  rcases hfs with rfl | ⟨f', rfl, -⟩
  · cases hf'
  · rw [List.mem_singleton.1 hf', List.mem_singleton.1 hg']

/-- A part of a `try` statement is its block, a `catch` clause or its `finally` clause. -/
theorem IsStructured.kind_of_try {n c : Node} (h : n.IsStructured) (hn : n.kind? = some .tryStatement)
    (hc : c ∈ n.parts) :
    c.kind? = some .block ∨ c.kind? = some .catchClause ∨ c.kind? = some .finallyClause := by
  obtain ⟨d, cs, fs, hp, hd, hcs, hfs⟩ := h.exists_parts_of_try hn
  rw [hp, List.mem_cons, List.mem_append] at hc
  rcases hc with rfl | hc | hc
  · exact Or.inl hd
  · exact Or.inr (Or.inl (hcs c hc))
  · rcases hfs with rfl | ⟨f, rfl, hf⟩
    · cases hc
    · rw [List.mem_singleton.1 hc]
      exact Or.inr (Or.inr hf)

/-! ### Forks -/

/-- Where the ways to two statements part, if neither holds the other. -/
theorem exists_fork {n a b : Node} (ha : Holds n a) (hb : Holds n b) (hab : ¬ Holds a b) (hba : ¬ Holds b a) :
    ∃ top l r, Holds n top ∧ l ∈ top.parts ∧ r ∈ top.parts ∧ l ≠ r ∧ Holds l a ∧ Holds r b := by
  induction ha with
  | self => exact absurd hb hab
  | @part n l a hl ha ih =>
    cases hb with
    | self => exact absurd (Holds.part hl ha) hba
    | @part _ r _ hr hb =>
      by_cases hlr : l = r
      · subst hlr
        obtain ⟨top, l', r', ht, h⟩ := ih hb hab hba
        exact ⟨top, l', r', .part hl ht, h⟩
      · exact ⟨n, l, r, .self n, hl, hr, hlr, ha, hb⟩

end Disposal.Node

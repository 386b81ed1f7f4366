import Disposal.Proofs.Forks
import Disposal.Proofs.Reach
import Disposal.Proofs.Sketch

/-!
# The answer `always` as an order

`Order.executedBefore` answers `always` for two nodes in both orders only where they stand in two initializers of one
`for` loop, which are told by their place against the semicolons and not against each other. Along the source the
answer composes: what always runs before `b` always runs before what `b` always runs before.

* `Order.ofChildren_eq_always_iff`: the rules by which one child of a node always runs before another;
* `Order.executedBefore_always_both_iff`: the answer in both orders;
* `Order.executedBefore_trans`: composition.
-/

namespace Disposal

/-- Whether a node covers a stretch of source, and its children follow each other within it. -/
def Node.isNested (n : Node) : Bool :=
  n.start ≤ n.stop && (n.children.all fun c => n.start ≤ c.start && c.start ≤ c.stop && c.stop ≤ n.stop) &&
    decide (n.children.Pairwise fun c d => c.stop ≤ d.start)

namespace Order

/-! ### Children of one node -/

/-- How the children of a node are put in order. -/
inductive Arrangement where
  /-- One part runs before the others. -/
  | headed (head? : Option Node)
  /-- The body runs before the condition. -/
  | rounds
  /-- The parts of a `for` loop. -/
  | counting
  /-- The body runs last. -/
  | holding
  /-- Nothing is known. -/
  | branching
  /-- One after the other. -/
  | sequence

def arrangement (n : Node) : Arrangement :=
  match n.kind? with
  | some .ifStatement | some .conditionalExpression | some .whileStatement => .headed (condition? n)
  | some .forEachStatement | some .foreachStatement => .headed (n.field .right)
  | some .switchStatement | some .switchExpression => .headed (n.field .value <|> n.firstNamed?)
  | some .doStatement => .rounds
  | some .forStatement => .counting
  | some .usingStatement | some .lockStatement | some .fixedStatement => .holding
  | some .tryStatement | some .switchBody => .branching
  | _ => .sequence

/-- The child `l` of `top` always runs before the child `r`. -/
def RunsFirst (top l r : Node) : Prop :=
  match arrangement top with
  | .headed head? => isPart l head? = true
  | .rounds => isPart l (loopBody? top) = true ∧ isPart r (top.field .condition) = true
  | .counting => forPart top l = .initializer ∨ (forPart top l = .condition ∧ forPart top r = .body)
  | .holding =>
    isPart r (loopBody? top) = true ∨ (isPart l (loopBody? top) = false ∧ l.start < r.start)
  | .branching => False
  | .sequence => l.start < r.start

theorem headFirst_eq_always_iff {a b : Node} {head? : Option Node} :
    headFirst a b head? = always ↔ isPart a head? = true := by
  unfold headFirst
  split
  · simp_all
  · split <;> simp_all

theorem byPlace_eq_always_iff {a b : Node} : byPlace a b = always ↔ a.start < b.start := by
  unfold byPlace
  split <;> simp_all

theorem ofChildren_eq_always_iff {top l r : Node} : ofChildren top l r = always ↔ RunsFirst top l r := by
  unfold ofChildren RunsFirst arrangement
  split <;> rename_i hk
  case h_1 | h_2 | h_6 | h_7 | h_12 | h_13 => simp only [hk, headFirst_eq_always_iff]
  case h_3 | h_4 => simp [hk]
  case h_5 => cases forPart top l <;> cases forPart top r <;> simp [hk]
  case h_8 =>
    simp only [hk]
    split <;> simp
  case h_9 | h_10 | h_11 =>
    cases hr : isPart r (loopBody? top) <;> cases hl : isPart l (loopBody? top) <;>
      simp [hk, hr, hl, byPlace_eq_always_iff]
  case h_14 => simp [hk]
  case h_15 =>
    rw [byPlace_eq_always_iff]
    split <;> simp_all

section

variable {top l k r : Node} (hl : l ∈ top.children) (hr : r ∈ top.children) (hlr : l ≠ r)

include hl hr hlr in
/-- Only one child is a given part. -/
private theorem isPart_eq_false {part? : Option Node} (h : isPart l part? = true) : isPart r part? = false := by
  rw [Bool.eq_false_iff]
  intro h'
  obtain ⟨p, hp, hpl⟩ := isPart_iff.1 h
  obtain ⟨q, hq, hqr⟩ := isPart_iff.1 h'
  rw [hp] at hq
  cases hq
  exact hlr (Node.eq_of_mem_children hl hr (hpl.symm.trans hqr))

include hl hr hlr in
/-- Only the initializers of a `for` loop are each first. -/
private theorem RunsFirst.initializers (h₁ : RunsFirst top l r) (h₂ : RunsFirst top r l) :
    arrangement top = .counting ∧ forPart top l = .initializer ∧ forPart top r = .initializer := by
  unfold RunsFirst at h₁ h₂
  cases ha : arrangement top with
  | headed head? =>
    simp only [ha] at h₁ h₂
    rw [isPart_eq_false hl hr hlr h₁] at h₂
    cases h₂
  | rounds =>
    simp only [ha] at h₁ h₂
    rw [isPart_eq_false hl hr hlr h₁.1] at h₂
    cases h₂.1
  | counting =>
    simp only [ha] at h₁ h₂
    rcases h₁ with h₁ | ⟨h₁, h₁'⟩ <;> rcases h₂ with h₂ | ⟨h₂, h₂'⟩ <;> simp_all
  | holding =>
    simp only [ha] at h₁ h₂
    rcases h₁ with h₁ | ⟨h₁, hlt⟩ <;> rcases h₂ with h₂ | ⟨h₂, hlt'⟩
    · rw [isPart_eq_false hl hr hlr h₂] at h₁
      cases h₁
    · rw [h₁] at h₂
      cases h₂
    · rw [h₁] at h₂
      cases h₂
    · omega
  | branching =>
    simp only [ha] at h₁
  | sequence =>
    simp only [ha] at h₁ h₂
    omega

include hl in
theorem RunsFirst.trans (hk : k ∈ top.children) (hlk : l ≠ k) (h₁ : RunsFirst top l k) (h₂ : RunsFirst top k r) :
    RunsFirst top l r := by
  unfold RunsFirst at h₁ h₂ ⊢
  cases ha : arrangement top with
  | headed head? =>
    simp only [ha] at h₁ ⊢
    exact h₁
  | rounds =>
    simp only [ha] at h₁ h₂
    rw [isPart_eq_false hl hk hlk h₁.1] at h₂
    cases h₂.1
  | counting =>
    simp only [ha] at h₁ h₂ ⊢
    rcases h₁ with h₁ | ⟨h₁, h₁'⟩
    · exact .inl h₁
    · simp [h₁'] at h₂
  | holding =>
    simp only [ha] at h₁ h₂ ⊢
    rcases h₂ with h₂ | ⟨h₂, hlt'⟩
    · exact .inl h₂
    · rcases h₁ with h₁ | ⟨h₁, hlt⟩
      · rw [h₁] at h₂
        cases h₂
      · exact .inr ⟨h₁, by omega⟩
  | branching =>
    simp only [ha] at h₁
  | sequence =>
    simp only [ha] at h₁ h₂ ⊢
    omega

end

/-! ### Both orders -/

private theorem arrangement_eq_counting_iff {n : Node} : arrangement n = .counting ↔ n.kind? = some .forStatement := by
  constructor
  · intro h
    unfold arrangement at h
    split at h
    case h_9 hk => exact hk
    all_goals cases h
  · intro h
    simp only [arrangement, h]

private theorem runsFirst_of_initializer {loop l r : Node} (hk : loop.kind? = some .forStatement)
    (hl : forPart loop l = .initializer) : RunsFirst loop l r := by
  unfold RunsFirst
  rw [arrangement_eq_counting_iff.2 hk]
  exact .inl hl

/-- Two nodes each always run before the other just where they stand in two initializers of one `for` loop. -/
theorem executedBefore_always_both_iff {n a b : Node} (ha : a ∈ n.preorder) (hb : b ∈ n.preorder) :
    executedBefore a b = always ∧ executedBefore b a = always ↔
      ∃ loop ∈ n.preorder, loop.kind? = some .forStatement ∧
        ∃ l ∈ loop.children, ∃ r ∈ loop.children, l ≠ r ∧ a ∈ l.preorder ∧ b ∈ r.preorder ∧
          forPart loop l = .initializer ∧ forPart loop r = .initializer ∧
          ShareRegion a b ∧ IsCertain l a ∧ IsCertain r b := by
  constructor
  · rintro ⟨hab, hba⟩
    obtain ⟨top, htop, l, hl, r, hr, hlr, hla, hrb⟩ := exists_fork_of_always ha hb hab
    obtain ⟨hl₁, hshare, hcertain⟩ := (executedBefore_eq_always_iff hl hr hlr hla hrb).1 hab
    obtain ⟨hr₁, -, hcertain'⟩ := (executedBefore_eq_always_iff hr hl hlr.symm hrb hla).1 hba
    obtain ⟨hk, hl₂, hr₂⟩ :=
      RunsFirst.initializers hl hr hlr (ofChildren_eq_always_iff.1 hl₁) (ofChildren_eq_always_iff.1 hr₁)
    rw [arrangement_eq_counting_iff] at hk
    exact ⟨top, htop, hk, l, hl, r, hr, hlr, hla, hrb, hl₂, hr₂, hshare, hcertain, hcertain'⟩
  · rintro ⟨loop, -, hk, l, hl, r, hr, hlr, hla, hrb, hl₁, hr₁, hshare, hcertain, hcertain'⟩
    have hl₂ := ofChildren_eq_always_iff.2 (runsFirst_of_initializer hk hl₁ (r := r))
    have hr₂ := ofChildren_eq_always_iff.2 (runsFirst_of_initializer hk hr₁ (r := l))
    obtain ⟨region, hra, hrb', hgoto⟩ := hshare
    constructor
    · exact (executedBefore_eq_always_iff hl hr hlr hla hrb).2 ⟨hl₂, ⟨region, hra, hrb', hgoto⟩, hcertain⟩
    · exact (executedBefore_eq_always_iff hr hl hlr.symm hrb hla).2 ⟨hr₂, ⟨region, hrb', hra, hgoto⟩, hcertain'⟩

namespace Sample

open Sketch

/-- `for(A(),B();;){}` -/
def counting : Sketch :=
  ofKind .forStatement
    [token "for", token "(", (Sketch.call (name "A") []).inField (.other "initializer"),
     (token ",").inField (.other "initializer"), (Sketch.call (name "B") []).inField (.other "initializer"),
     token ";", token ";", token ")", Sketch.block []]

/-- The file `class C{void M(){for(A(),B();;){}}}`. -/
def counted : Node := .root 0 (document "C.cs" [classOf "C" [method [] void "M" [] [counting]]]).tree

private theorem exists_both_counted :
    ∃ a ∈ counted.preorder, ∃ b ∈ counted.preorder, executedBefore a b = always ∧ executedBefore b a = always := by
  have hany : ((counted.preorder.filter (·.is .invocationExpression)).any fun a =>
      (counted.preorder.filter (·.is .invocationExpression)).any fun b =>
        executedBefore a b == always && executedBefore b a == always) = true := by
    decide +kernel
  obtain ⟨a, ha, h⟩ := List.any_eq_true.1 hany
  obtain ⟨b, hb, h⟩ := List.any_eq_true.1 h
  rw [Bool.and_eq_true, beq_iff_eq, beq_iff_eq] at h
  exact ⟨a, (List.mem_filter.1 ha).1, b, (List.mem_filter.1 hb).1, h⟩

end Sample

/-- In `for(A(),B();;){}`, all spans of which are nested and in order, each of the two calls always runs before the
other. -/
theorem executedBefore_always_both_counted :
    (∀ n ∈ Sample.counted.preorder, n.isNested = true) ∧
    ∃ a ∈ Sample.counted.preorder, ∃ b ∈ Sample.counted.preorder,
      executedBefore a b = always ∧ executedBefore b a = always := by
  have hnested : (Sample.counted.preorder.all (·.isNested)) = true := by decide +kernel
  exact ⟨List.all_eq_true.1 hnested, Sample.exists_both_counted⟩

/-- The two calls stand in two initializers. -/
theorem executedBefore_always_both_initializers :
    ∃ a ∈ Sample.counted.preorder, ∃ b ∈ Sample.counted.preorder,
      ∃ loop ∈ Sample.counted.preorder, loop.kind? = some .forStatement ∧
        ∃ l ∈ loop.children, ∃ r ∈ loop.children, l ≠ r ∧ a ∈ l.preorder ∧ b ∈ r.preorder ∧
          forPart loop l = .initializer ∧ forPart loop r = .initializer := by
  obtain ⟨a, ha, b, hb, h⟩ := Sample.exists_both_counted
  obtain ⟨loop, hloop, hk, l, hl, r, hr, hlr, hal, hbr, hl', hr', -⟩ := (executedBefore_always_both_iff ha hb).1 h
  exact ⟨a, ha, b, hb, loop, hloop, hk, l, hl, r, hr, hlr, hal, hbr, hl', hr'⟩

/-! ### Composition -/

/-- The tree of a region as the parser lays it out, without comments and preprocessor lines: spans are nested and in
order, tokens have nothing below them, and every `foreach` has a body besides its collection. -/
structure IsTidy (region : Node) : Prop where
  nested : ∀ n ∈ region.preorder, n.isNested = true
  tokens : ∀ n ∈ region.preorder, n.isNamed = false → n.children = []
  plain : ∀ n ∈ region.preorder, n.isTrivia = false
  bodies : ∀ n ∈ region.preorder, n.isAny [.forEachStatement, .foreachStatement] = true →
    (n.field .body).any (fun body => !isPart body (n.field .right)) = true

theorem IsTidy.of_mem_preorder {m n : Node} (h : IsTidy m) (hn : n ∈ m.preorder) : IsTidy n where
  nested x hx := h.nested x (Node.mem_preorder_trans hn hx)
  tokens x hx := h.tokens x (Node.mem_preorder_trans hn hx)
  plain x hx := h.plain x (Node.mem_preorder_trans hn hx)
  bodies x hx := h.bodies x (Node.mem_preorder_trans hn hx)

/-- The child that leads down to a named node is one of the named children. -/
private theorem IsTidy.mem_named {m c x : Node} (h : IsTidy m) (hc : c ∈ m.children) (hx : x ∈ c.preorder)
    (hname : x.isNamed = true) : c ∈ m.named := by
  have hcm : c ∈ m.preorder := Node.mem_preorder_of_mem_children hc
  have hnamed : c.isNamed = true := by
    rw [← Bool.not_eq_false]
    intro hf
    rcases Node.mem_preorder_iff.1 hx with rfl | ⟨d, hd, -⟩
    · rw [hname] at hf
      cases hf
    · rw [h.tokens c hcm hf] at hd
      cases hd
  refine List.mem_filter.2 ⟨hc, ?_⟩
  rw [hnamed, h.plain c hcm]
  rfl

theorem start_le_of_mem_preorder {m x : Node} (h : ∀ n ∈ m.preorder, n.isNested = true) (hx : x ∈ m.preorder) :
    m.start ≤ x.start ∧ x.start ≤ m.stop := by
  refine Node.preorder_induction (motive := fun n => (∀ k ∈ n.preorder, k.isNested = true) →
    n.start ≤ x.start ∧ x.start ≤ n.stop) ?_ ?_ m hx h
  · intro h
    have hself := h x (Node.mem_preorder_self x)
    simp only [Node.isNested, Bool.and_eq_true, decide_eq_true_eq] at hself
    omega
  · intro n c hc _ ih h
    have hn := h n (Node.mem_preorder_self n)
    simp only [Node.isNested, Bool.and_eq_true, List.all_eq_true, decide_eq_true_eq] at hn
    have hspan := hn.1.2 c hc
    have hstart := ih fun k hk => h k (Node.mem_preorder_of_child hc hk)
    omega

private theorem stop_le_start_of_rank_lt {top l r : Node} (h : top.isNested = true) (hl : l ∈ top.children)
    (hr : r ∈ top.children) (hlt : l.rank < r.rank) : l.stop ≤ r.start := by
  simp only [Node.isNested, Bool.and_eq_true, decide_eq_true_eq] at h
  obtain ⟨xs, ys, hxy⟩ := List.append_of_mem hl
  have hspans := h.2
  have hranks := top.pairwise_rank_children
  rw [hxy] at hr hspans hranks
  rw [List.pairwise_append] at hspans hranks
  rcases List.mem_append.1 hr with hr | hr
  · have := hranks.2.2 r hr l List.mem_cons_self
    omega
  · rcases List.mem_cons.1 hr with rfl | hr
    · omega
    · exact (List.pairwise_cons.1 hspans.2.1).1 r hr

/-- What lies below an earlier child starts no later. -/
private theorem start_le_of_children {top l r a b : Node} (h : ∀ n ∈ top.preorder, n.isNested = true)
    (hl : l ∈ top.children) (hr : r ∈ top.children) (hlt : l.rank < r.rank) (ha : a ∈ l.preorder)
    (hb : b ∈ r.preorder) :
    a.start ≤ b.start := by
  have below : ∀ {c x : Node}, c ∈ top.children → x ∈ c.preorder → c.start ≤ x.start ∧ x.start ≤ c.stop := by
    intro c x hc hx
    exact start_le_of_mem_preorder (fun n hn => h n (Node.mem_preorder_of_child hc hn)) hx
  have hgap := stop_le_start_of_rank_lt (h top (Node.mem_preorder_self top)) hl hr hlt
  have hla := below hl ha
  have hrb := below hr hb
  omega

/-! ### Steps of the way to an earlier child -/

/-- A jump ahead of a node is ahead of all nodes that start later. -/
private theorem jumpAhead_mono {scope a b : Node} {isJump : Node → Bool} (h : a.start ≤ b.start)
    (hj : jumpAhead scope a isJump = true) : jumpAhead scope b isJump = true := by
  simp only [jumpAhead, List.any_eq_true, Bool.and_eq_true, decide_eq_true_eq] at hj ⊢
  obtain ⟨m, hm, ⟨⟨hstart, hlambda⟩, hjump⟩, hstop⟩ := hj
  refine ⟨m, Node.mem_walk_mono ?_ hm, ⟨⟨by omega, hlambda⟩, hjump⟩, by omega⟩
  simp only [Bool.and_eq_true, decide_eq_true_eq]
  rintro k ⟨hk, hk'⟩
  exact ⟨by omega, hk'⟩

private theorem leavesBefore_mono {p k a b : Node} (h : a.start ≤ b.start) (hl : leavesBefore a p k = true) :
    leavesBefore b p k = true := by
  unfold leavesBefore at hl ⊢
  split at hl
  · next hp =>
    rw [if_pos hp]
    exact jumpAhead_mono h hl
  · next hp =>
    rw [if_neg hp]
    split at hl
    · next ht =>
      rw [if_pos ht]
      exact jumpAhead_mono h hl
    · cases hl

/-- What leaves a construct ahead of one child leaves it ahead of those that come after that one. -/
theorem RunsFirst.leavesBefore {top l r a b : Node} (hrun : RunsFirst top l r) (h : a.start ≤ b.start)
    (hl : leavesBefore a top l = true) : leavesBefore b top r = true := by
  unfold Order.leavesBefore at hl ⊢
  split at hl
  · next hp =>
    rw [if_pos hp]
    exact jumpAhead_mono h hl
  · split at hl
    · next ht =>
      rw [Bool.and_eq_true, Bool.and_eq_true, Node.is_iff] at ht
      simp only [RunsFirst, arrangement, ht.1.1] at hrun
    · cases hl

private theorem isPart_lastNamed_eq_false {top l r : Node} (hl : l ∈ top.named) (hr : r ∈ top.named)
    (hlt : l.rank < r.rank) : isPart l top.lastNamed? = false := by
  rw [Bool.eq_false_iff]
  intro h
  obtain ⟨last, hlast, hid⟩ := isPart_iff.1 h
  obtain rfl := Node.eq_of_mem_children (Node.mem_children_of_lastNamed? hlast) (Node.mem_children_of_named hl) hid
  obtain ⟨xs, hxs⟩ := List.getLast?_eq_some_iff.1 hlast
  have hranks := top.pairwise_rank_named
  rw [hxs] at hr hranks
  rcases List.mem_append.1 hr with hr | hr
  · have := (List.pairwise_append.1 hranks).2.2 r hr last List.mem_cons_self
    omega
  · rw [List.mem_singleton.1 hr] at hlt
    omega

private theorem isPart_firstNamed_eq_false {top l r : Node} (hl : l ∈ top.named) (hr : r ∈ top.named)
    (hlt : l.rank < r.rank) : isPart r top.firstNamed? = false := by
  rw [Bool.eq_false_iff]
  intro h
  obtain ⟨first, hfirst, hid⟩ := isPart_iff.1 h
  obtain rfl := Node.eq_of_mem_children (Node.mem_children_of_firstNamed? hfirst) (Node.mem_children_of_named hr) hid
  cases hfl : first == l with
  | false =>
    have := Node.rank_lt_of_firstNamed? hfirst hl hfl
    omega
  | true =>
    have := Node.eq_of_mem_children (Node.mem_children_of_named hr) (Node.mem_children_of_named hl) (Node.beq_iff.1 hfl)
    rw [this] at hlt
    omega

/-- What always runs before a part that is not left to chance is not left to chance. -/
private theorem RunsFirst.isConditionalChild_eq_false {top l r : Node} (htop : IsTidy top) (hl : l ∈ top.named)
    (hr : r ∈ top.named) (hlt : l.rank < r.rank) (hrun : RunsFirst top l r)
    (h : isConditionalChild top r = false) : isConditionalChild top l = false := by
  have hlast := isPart_lastNamed_eq_false hl hr hlt
  have hfirst := isPart_firstNamed_eq_false hl hr hlt
  unfold isConditionalChild at h ⊢
  split <;> rename_i hk <;> simp only [hk] at h
  case h_1 | h_2 | h_3 =>
    simp only [RunsFirst, arrangement, hk] at hrun
    rw [hrun]
    rfl
  case h_4 | h_5 => rw [hlast, Bool.and_false]
  case h_6 =>
    rw [hfirst] at h
    cases h
  case h_7 =>
    simp only [bne_eq_false_iff_eq] at h ⊢
    simp only [RunsFirst, arrangement, hk, h] at hrun
    simpa using hrun
  case h_8 | h_9 =>
    simp only [RunsFirst, arrangement, hk] at hrun
    have hbody := htop.bodies top (Node.mem_preorder_self top) (by rw [Node.isAny_eq_of_kind? hk]; rfl)
    obtain ⟨body, hbody, hright⟩ := (Option.any_eq_true _ _).1 hbody
    rw [Bool.eq_false_iff]
    intro hpart
    obtain ⟨body', hbody', hid⟩ := isPart_iff.1 hpart
    rw [loopBody?, hbody] at hbody'
    cases hbody'
    obtain rfl := Node.eq_of_mem_children (Node.mem_children_of_field hbody) (Node.mem_children_of_named hl) hid
    rw [hrun] at hright
    cases hright
  case h_10 => simp only [RunsFirst, arrangement, hk] at hrun
  case h_11 | h_12 | h_13 | h_14 => cases h
  case h_15 => rfl

/-- The way from a node up to a child `k` is certain when it is as far as `top`, and there joins a certain way. -/
private theorem IsCertain.of_below {k top l r a b : Node} (htidy : IsTidy top) (htop : top ∈ k.preorder)
    (hl : l ∈ top.children) (hr : r ∈ top.children) (ha : a ∈ l.preorder) (hb : b ∈ r.preorder)
    (hnamed : a.isNamed = true) (hnamed' : b.isNamed = true) (hlt : l.rank < r.rank) (hrun : RunsFirst top l r)
    (hla : IsCertain l a) (hkb : IsCertain k b) : IsCertain k a := by
  have hstart := start_le_of_children htidy.nested hl hr hlt ha hb
  have hat : a ∈ top.preorder := Node.mem_preorder_of_child hl ha
  have hbt : b ∈ top.preorder := Node.mem_preorder_of_child hr hb
  intro p hp q hq haq
  by_cases hpt : p = top
  · subst hpt
    obtain rfl := Node.eq_of_mem_preorder hq hl haq ha
    obtain ⟨hcond, hleave⟩ := hkb p hp r hr hb
    constructor
    · exact hrun.isConditionalChild_eq_false htidy (htidy.mem_named hl ha hnamed) (htidy.mem_named hr hb hnamed') hlt
        hcond
    · rw [Bool.eq_false_iff]
      intro h
      rw [hrun.leavesBefore hstart h] at hleave
      cases hleave
  · rcases Node.mem_preorder_or hp htop (Node.mem_preorder_of_child hq haq) hat with hmem | hmem
    · -- a step below `top` is one below `l`
      obtain ⟨c, hc, hpc⟩ := (Node.mem_preorder_iff.1 hmem).resolve_left hpt
      have hac := Node.mem_preorder_trans hpc (Node.mem_preorder_of_child hq haq)
      obtain rfl := Node.eq_of_mem_preorder hc hl hac ha
      exact hla p hpc q hq haq
    · -- a step above `top` is one that the way from `b` takes as well
      obtain ⟨d, hd, htd⟩ := (Node.mem_preorder_iff.1 hmem).resolve_left (Ne.symm hpt)
      obtain rfl := Node.eq_of_mem_preorder hd hq (Node.mem_preorder_trans htd hat) haq
      obtain ⟨hcond, hleave⟩ := hkb p hp d hd (Node.mem_preorder_trans htd hbt)
      refine ⟨hcond, ?_⟩
      rw [Bool.eq_false_iff]
      intro h
      rw [leavesBefore_mono hstart h] at hleave
      cases hleave

/-- The ways to two nodes of one region part in that region. -/
theorem mem_preorder_of_region? {root top l r a b region : Node} (hroot : root.ancestors = [])
    (htop : top ∈ root.preorder) (hl : l ∈ top.children) (hr : r ∈ top.children) (hlr : l ≠ r) (ha : a ∈ l.preorder)
    (hb : b ∈ r.preorder) (hra : a.region? = some region) (hrb : b.region? = some region) :
    top ∈ region.preorder := by
  obtain ⟨-, hup, -⟩ := region?_of_fork hl hr hlr ha hb hra hrb (Node.beq_refl region)
  have hmem := List.mem_of_find?_eq_some hup
  rw [Node.ancestors_of_mem_children hl] at hmem
  rcases List.mem_cons.1 hmem with rfl | hmem
  · exact Node.mem_preorder_self _
  · exact Node.mem_preorder_of_root hroot htop hmem

/-- Along the source, what always runs before `b` always runs before what `b` always runs before. -/
theorem executedBefore_trans {doc : Nat} {t : Tree} {a b c : Node} (ha : a ∈ (Node.root doc t).preorder)
    (hb : b ∈ (Node.root doc t).preorder) (hc : c ∈ (Node.root doc t).preorder) (hnamed : a.isNamed = true)
    (hnamed' : b.isNamed = true) (hab : a.number < b.number) (hbc : b.number < c.number)
    (htidy : ∀ region, a.region? = some region → IsTidy region) (h₁ : executedBefore a b = always)
    (h₂ : executedBefore b c = always) : executedBefore a c = always := by
  obtain ⟨top, htop, l, hl, r, hr, hlr, hal, hbr⟩ := exists_fork_of_always ha hb h₁
  obtain ⟨top', htop', l', hl', r', hr', hlr', hbl', hcr'⟩ := exists_fork_of_always hb hc h₂
  obtain ⟨hrun, ⟨region, hra, hrb, hgoto⟩, hcertain⟩ := (executedBefore_eq_always_iff hl hr hlr hal hbr).1 h₁
  obtain ⟨hrun', ⟨_, hrb', hrc, -⟩, hcertain'⟩ := (executedBefore_eq_always_iff hl' hr' hlr' hbl' hcr').1 h₂
  rw [hrb] at hrb'
  cases hrb'
  have hshare : ShareRegion a c := ⟨region, hra, hrc, hgoto⟩
  rw [ofChildren_eq_always_iff] at hrun hrun'
  have hlt := Node.rank_lt_of_number_lt hl hr hlr hal hbr hab
  have hlt' := Node.rank_lt_of_number_lt hl' hr' hlr' hbl' hcr' hbc
  by_cases htt : top = top'
  · -- the ways to all three part at one node
    subst htt
    obtain rfl := Node.eq_of_mem_preorder hr hl' hbr hbl'
    have hne : l ≠ r' := by
      rintro rfl
      omega
    have hrun'' := ofChildren_eq_always_iff.2 (hrun.trans hl hr hlr hrun')
    exact (executedBefore_eq_always_iff hl hr' hne hal hcr').2 ⟨hrun'', hshare, hcertain⟩
  · rcases Node.mem_preorder_or htop htop' (Node.mem_preorder_of_child hr hbr) (Node.mem_preorder_of_child hl' hbl')
      with hmem | hmem
    · -- `a` and `b` lie below the child that runs before `c`
      obtain ⟨d, hd, htd⟩ := (Node.mem_preorder_iff.1 hmem).resolve_left htt
      have hbd := Node.mem_preorder_trans htd (Node.mem_preorder_of_child hr hbr)
      obtain rfl := Node.eq_of_mem_preorder hd hl' hbd hbl'
      have had := Node.mem_preorder_trans htd (Node.mem_preorder_of_child hl hal)
      have hregion := mem_preorder_of_region? rfl htop hl hr hlr hal hbr hra hrb
      have htop := (htidy region hra).of_mem_preorder hregion
      have hway := IsCertain.of_below htop htd hl hr hal hbr hnamed hnamed' hlt hrun hcertain hcertain'
      have hrun'' := ofChildren_eq_always_iff.2 hrun'
      exact (executedBefore_eq_always_iff hl' hr' hlr' had hcr').2 ⟨hrun'', hshare, hway⟩
    · -- `b` and `c` lie below the child that `a` runs before
      obtain ⟨d, hd, htd⟩ := (Node.mem_preorder_iff.1 hmem).resolve_left (Ne.symm htt)
      have hbd := Node.mem_preorder_trans htd (Node.mem_preorder_of_child hl' hbl')
      obtain rfl := Node.eq_of_mem_preorder hd hr hbd hbr
      have hcd := Node.mem_preorder_trans htd (Node.mem_preorder_of_child hr' hcr')
      have hrun'' := ofChildren_eq_always_iff.2 hrun
      exact (executedBefore_eq_always_iff hl hr hlr hal hcd).2 ⟨hrun'', hshare, hcertain⟩

namespace Sample

open Sketch

/-- The file `class C{void M(){{A();B();}D();}}`. -/
def chained : Node :=
  let run (f : String) : Sketch := statement (Sketch.call (name f) [])
  .root 0 (document "C.cs" [classOf "C" [method [] void "M" []
    [ofKind .block (between "\x7b" "\x7d" [run "A", run "B"]), run "D"]]]).tree

private theorem isTidy_chained : IsTidy chained := by
  have hnested : chained.preorder.all (·.isNested) = true := by decide +kernel
  have htokens : chained.preorder.all (fun n => n.isNamed || n.children.isEmpty) = true := by decide +kernel
  have hplain : chained.preorder.all (fun n => !n.isTrivia) = true := by decide +kernel
  have hbodies : chained.preorder.all (fun n => !n.isAny [.forEachStatement, .foreachStatement]) = true := by
    decide +kernel
  rw [List.all_eq_true] at hnested htokens hplain hbodies
  constructor
  · exact hnested
  · intro n hn hnamed
    simpa [hnamed] using htokens n hn
  · intro n hn
    simpa using hplain n hn
  · intro n hn hk
    have hno := hbodies n hn
    rw [hk] at hno
    cases hno

end Sample

/-- The theorem at the three calls of `{A();B();}D();`. -/
theorem executedBefore_trans_chained :
    ∃ a ∈ Sample.chained.preorder, ∃ b ∈ Sample.chained.preorder, ∃ c ∈ Sample.chained.preorder,
      a.number < b.number ∧ b.number < c.number ∧ executedBefore a b = always ∧ executedBefore b c = always ∧
        executedBefore a c = always := by
  have hany : ((Sample.chained.preorder.filter (·.is .invocationExpression)).any fun a =>
      (Sample.chained.preorder.filter (·.is .invocationExpression)).any fun b =>
        (Sample.chained.preorder.filter (·.is .invocationExpression)).any fun c =>
          a.isNamed && b.isNamed && decide (a.number < b.number) && decide (b.number < c.number) &&
            executedBefore a b == always && executedBefore b c == always) = true := by
    decide +kernel
  obtain ⟨a, ha, h⟩ := List.any_eq_true.1 hany
  obtain ⟨b, hb, h⟩ := List.any_eq_true.1 h
  obtain ⟨c, hc, h⟩ := List.any_eq_true.1 h
  have ha := (List.mem_filter.1 ha).1
  have hb := (List.mem_filter.1 hb).1
  have hc := (List.mem_filter.1 hc).1
  simp only [Bool.and_eq_true, decide_eq_true_eq, beq_iff_eq] at h
  obtain ⟨⟨⟨⟨⟨hnamed, hnamed'⟩, hab⟩, hbc⟩, h₁⟩, h₂⟩ := h
  have htidy : ∀ region, a.region? = some region → IsTidy region := by
    intro region hregion
    have hup := List.mem_cons_of_mem a (List.mem_of_find?_eq_some hregion)
    exact Sample.isTidy_chained.of_mem_preorder (Node.mem_root_of_mem_ancestors rfl ha hup)
  exact ⟨a, ha, b, hb, c, hc, hab, hbc, h₁, h₂,
    executedBefore_trans ha hb hc hnamed hnamed' hab hbc htidy h₁ h₂⟩

end Order

end Disposal

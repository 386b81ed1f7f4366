import Disposal.Proofs.Execution

/-!
# Statements that are reached

A statement that is neither conditional nor skipped by a jump ahead of it has run whenever control leaves the construct
around it at its end. What `Order` looks at on the way up is compared with executions one construct at a time.

* `Order.leavesBefore_of_jump`, `Order.leavesBefore_of_throw`: jumps that lead past a statement are seen;
* `Reaches.step`: from a part of a construct to the construct;
* `reaches_of_clear`: the whole way up.
-/

namespace Disposal

open Node (Holds)

/-! ### Conditional parts -/

namespace Order

theorem isPart_iff {n : Node} {part? : Option Node} :
    isPart n part? = true ↔ ∃ part, part? = some part ∧ part.id = n.id := by
  unfold isPart
  split
  · next part =>
    rw [Node.beq_iff]
    simp
  · simp

private theorem mem_children_of_condition? {n c : Node} (h : condition? n = some c) : c ∈ n.children :=
  Node.mem_children_of_orElse (fun _ hd => Node.mem_children_of_firstNamed? hd) h

/-- A statement is not the condition of the construct it stands in. -/
theorem not_isPart_condition {n c : Node} (h : (condition? n).all (!·.isFlow) = true) (hc : c ∈ n.parts) :
    isPart c (condition? n) = false := by
  rw [Bool.eq_false_iff]
  intro hp
  obtain ⟨d, hd, hdc⟩ := isPart_iff.1 hp
  have hmem := mem_children_of_condition? hd
  obtain rfl := Node.eq_of_mem_children hmem (Node.mem_children_of_mem_parts hc) hdc
  rw [hd] at h
  have hf := Node.isFlow_of_mem_parts hc
  simp [hf] at h

/-- The parts that a choice leaves to chance run on some executions only. -/
private theorem isConditionalChild_of_choice {n c : Node} (hn : n.IsStructured)
    (hk : n.isAny [.ifStatement, .switchBody] = true) (hc : c ∈ n.parts) : isConditionalChild n c = true := by
  have hs := hn.isShaped
  obtain ⟨k, hk, hnk⟩ := Node.isAny_iff.1 hk
  simp only [List.mem_cons, List.not_mem_nil, or_false] at hk
  rcases hk with rfl | rfl
  · simp only [Node.isShaped, hnk, Bool.and_eq_true] at hs
    simp only [isConditionalChild, hnk, not_isPart_condition hs.2 hc, Bool.not_false]
  · simp only [isConditionalChild, hnk]

/-- The body of a loop that may do without any round runs on some executions only. -/
private theorem isConditionalChild_of_skippable {n c : Node} (hn : n.IsStructured) (hk : n.isAny skippableLoops = true)
    (hc : c ∈ n.parts) : isConditionalChild n c = true := by
  have hs := hn.isShaped
  have body : (n.hasOnly fun s => s.isStatement && isPart s (loopBody? n)) = true →
      isPart c (loopBody? n) = true := by
    intro h
    obtain ⟨s, hps, hb⟩ := Node.hasOnly_iff.1 h
    rw [hps, List.mem_singleton] at hc
    subst hc
    exact (Bool.and_eq_true_iff.1 hb).2
  obtain ⟨k, hk, hnk⟩ := Node.isAny_iff.1 hk
  simp only [skippableLoops, List.mem_cons, List.not_mem_nil, or_false] at hk
  rcases hk with rfl | rfl | rfl | rfl
  · simp only [Node.isShaped, hnk, Bool.and_eq_true] at hs
    simp only [isConditionalChild, hnk, not_isPart_condition hs.2 hc, Bool.not_false]
  · simp only [Node.isShaped, hnk] at hs
    simp only [isConditionalChild, hnk, forPart, body hs]
    rfl
  · simp only [Node.isShaped, hnk] at hs
    simp only [isConditionalChild, hnk, body hs]
  · simp only [Node.isShaped, hnk] at hs
    simp only [isConditionalChild, hnk, body hs]

/-! ### Jumps ahead of a statement -/

/-- What lies below a node is listed by a walk that enters all nodes on the way. -/
private theorem mem_walk_of_holds {n x : Node} {enter : Node → Bool} (h : Holds n x)
    (he : ∀ m, Holds n m → Holds m x → enter m = true) : x ∈ n.walk enter := by
  induction h with
  | self n => exact Node.mem_walk_iff.2 (Or.inl rfl)
  | @part n p x hp h ih =>
    have hn := he n (.self n) (.part hp h)
    have hx := ih fun m hm hmx => he m (.part hp hm) hmx
    exact Node.mem_walk_iff.2 (Or.inr ⟨hn, p, Node.mem_children_of_mem_parts hp, hx⟩)

/-- A jump that stands in `scope` ahead of a statement is found. -/
private theorem jumpAhead_of_holds {scope x a : Node} {isJump : Node → Bool} (hs : scope.IsStructured)
    (hf : scope.isFlow = true) (hx : Holds scope x) (hj : isJump x = true) (hxa : x.stop ≤ a.start) :
    jumpAhead scope a isJump = true := by
  have hlt := (hs.of_holds hx).start_lt_stop (hx.isFlow hf)
  have enter : ∀ m, Holds scope m → Holds m x →
      (decide (m.start < a.start) && !(m.isLambda && !(m == scope))) = true := by
    intro m hm hmx
    have := (hs.of_holds hm).within_of_holds hmx
    have hmf := Node.isLambda_of_isFlow (hm.isFlow hf)
    simp only [hmf, Bool.false_and, Bool.not_false, Bool.and_true, decide_eq_true_eq]
    omega
  simp only [jumpAhead, List.any_eq_true]
  refine ⟨x, mem_walk_of_holds hx enter, ?_⟩
  rw [enter x hx (.self x), hj, Bool.true_and, Bool.true_and, decide_eq_true_eq]
  exact hxa

/-- The search upwards for the end of a jump passes over all nodes that do not end it. -/
private theorem find?_ancestors_of_exposed {ks : List Kind} {n x : Node} (h : Exposed ks n x) (hf : n.isFlow = true) :
    (x.ancestors.takeWhile fun a => !a.isRegion).find? (·.isAny ks) =
      (n.ancestors.takeWhile fun a => !a.isRegion).find? (·.isAny ks) := by
  induction h with
  | self => rfl
  | @part n p x hn hp _ ih =>
    rw [ih (Node.isFlow_of_mem_parts hp), Node.ancestors_of_mem_children (Node.mem_children_of_mem_parts hp)]
    simp [Node.isRegion_of_isFlow hf, hn]

/-- A `break` or `continue` leads out of the nearest construct around it where it ends. -/
private theorem jumpTarget?_of_exposed {n p x : Node} {j : Jump} (hj : j = .breaking ∨ j = .continuing)
    (hn : n.isAny j.targets = true) (hr : n.isRegion = false) (hp : p ∈ n.parts) (hx : x.kind? = some j.kind)
    (h : Exposed j.targets p x) : jumpTarget? x = some n := by
  have hpred : (fun a : Node => a.isAny loops || (!x.is .continueStatement && a.is .switchStatement)) =
      fun a : Node => a.isAny j.targets := by
    funext a
    rcases hj with rfl | rfl
    · rw [Node.is_eq_of_kind? hx, Jump.targets, Node.isAny_append, Node.isAny_singleton]
      rfl
    · rw [Node.is_eq_of_kind? hx, Jump.targets]
      simp [Jump.kind]
  unfold jumpTarget?
  rw [hpred, find?_ancestors_of_exposed h (Node.isFlow_of_mem_parts hp),
    Node.ancestors_of_mem_children (Node.mem_children_of_mem_parts hp)]
  simp [hr, hn]

/-- A `break` or `continue` ahead of a statement is seen at the loop or `switch` that it leaves. -/
theorem leavesBefore_of_jump {n p c x a : Node} {j : Jump} (hs : n.IsStructured) (hj : j = .breaking ∨ j = .continuing)
    (hn : n.isAny j.targets = true) (hp : p ∈ n.parts) (hx : x.kind? = some j.kind) (h : Exposed j.targets p x)
    (hxa : x.stop ≤ a.start) : leavesBefore a n c = true := by
  have hf : n.isFlow = true := hs.isFlow_of_mem_parts hp
  have ht := jumpTarget?_of_exposed hj hn (Node.isRegion_of_isFlow hf) hp hx h
  have hk : (n.isAny loops || n.is .switchStatement) = true := by
    rcases hj with rfl | rfl
    · rwa [Jump.targets, Node.isAny_append, Node.isAny_singleton] at hn
    · rw [Jump.targets] at hn
      rw [hn, Bool.true_or]
  have hjump : (x.isAny [.breakStatement, .continueStatement] && isPart n (jumpTarget? x)) = true := by
    rw [ht, Node.isAny_eq_of_kind? hx, Bool.and_eq_true, isPart_iff]
    refine ⟨?_, n, rfl, rfl⟩
    rcases hj with rfl | rfl <;> rfl
  unfold leavesBefore
  rw [if_pos hk]
  exact jumpAhead_of_holds hs hf (.part hp h.holds) hjump hxa

/-- A `throw` ahead of a statement is seen at the `try` block that catches it. -/
theorem leavesBefore_of_throw {n b c x a : Node} (hs : n.IsStructured) (hn : n.kind? = some .tryStatement)
    (hb : b ∈ n.parts) (hbk : b.kind? = some .block) (hc : c ∈ n.parts) (hck : c.kind? = some .catchClause)
    (hx : x.kind? = some .throwStatement) (h : Holds b x) (hxa : x.stop ≤ a.start) : leavesBefore a n b = true := by
  have hcatch : hasCatch n = true := by
    rw [hasCatch, List.any_eq_true]
    exact ⟨c, Node.mem_named_of_kind? (by decide) hck (Node.mem_children_of_mem_parts hc), Node.is_iff.2 hck⟩
  have hjump : x.isAny [.throwStatement, .throwExpression] = true := by
    rw [Node.isAny_eq_of_kind? hx]
    rfl
  unfold leavesBefore
  rw [if_neg (by rw [Node.isAny_eq_of_kind? hn, Node.is_eq_of_kind? hn]; decide),
    if_pos (by rw [Node.is_iff.2 hn, Node.is_iff.2 hbk, hcatch]; rfl)]
  exact jumpAhead_of_holds (hs.of_mem_parts hb) (Node.isFlow_of_mem_parts hb) h hjump hxa

end Order

/-! ### Statements that have run when a construct comes to its end -/

/-- A run of `n` with this ending may leave out `a`: it is cut off, or a jump ahead of `a` leads out of `n`. -/
def Skips (n a : Node) : Ending → Prop
  | .done => False
  | .cut => True
  | .left j => ∃ x, x.kind? = some j.kind ∧ Exposed j.targets n x ∧ x.stop ≤ a.start

/-- The same for what the parts of `n` do. -/
def SkipsInside (n a : Node) : Ending → Prop
  | .done => False
  | .cut => True
  | .left j => ∃ s ∈ n.parts, ∃ x, x.kind? = some j.kind ∧ Exposed j.targets s x ∧ x.stop ≤ a.start

/-- Every run of `n` runs `a`, unless it is cut off or jumps out of `n` ahead of `a`. -/
def Reaches (n a : Node) : Prop := ∀ t e, Runs (.statement n) t e → a ∈ t ∨ Skips n a e

theorem Skips.inside {n p a : Node} {e : Ending} (h : Skips p a e) (hp : p ∈ n.parts) : SkipsInside n a e := by
  cases e with
  | done => exact h
  | cut => trivial
  | left j => exact ⟨p, hp, h⟩

/-- What jumps out of a part jumps out of the whole, unless the jump ends there. -/
private theorem SkipsInside.skips {n a : Node} {e : Ending} (h : SkipsInside n a e)
    (hn : ∀ j, e = .left j → n.isAny j.targets = false) : Skips n a e := by
  cases e with
  | done => exact h
  | cut => trivial
  | left j =>
    obtain ⟨s, hs, x, hx, hsx, hxa⟩ := h
    exact ⟨x, hx, .part (hn j rfl) hs hsx, hxa⟩

/-- A statement that runs on every execution of a part does so on every execution of the sequence of parts. -/
theorem Reaches.sequence {n c a : Node} (hn : n.IsStructured) (hc : c ∈ n.parts) (hca : Holds c a)
    (h : Reaches c a) {t : List Node} {e : Ending} (hr : Runs (.sequence n.parts) t e) :
    a ∈ t ∨ SkipsInside n a e := by
  obtain ⟨xs, ys, hxy⟩ := List.append_of_mem hc
  have hpw := hn.pairwise_parts
  rw [hxy] at hr hpw
  rcases hr.sequence_append with ⟨hxs, he⟩ | ⟨t₁, t₂, rfl, -, hr⟩
  · -- control does not get to `c`
    right
    cases e with
    | done => exact absurd rfl he
    | cut => trivial
    | left j =>
      obtain ⟨s, hs, x, hx, hsx⟩ := hxs.exists_jump rfl
      have hsp : s ∈ n.parts := by
        rw [hxy]
        exact List.mem_append_left _ hs
      have h₁ := (hn.of_mem_parts hsp).within_of_holds hsx.holds
      have h₂ := (hn.of_mem_parts hc).within_of_holds hca
      have h₃ := (List.pairwise_append.1 hpw).2.2 s hs c List.mem_cons_self
      exact ⟨s, hsp, x, hx, hsx, by omega⟩
  · rcases hr.sequence_cons with ⟨hr, -⟩ | ⟨u₁, u₂, rfl, hr, -⟩
    · rcases h _ _ hr with ha | hsk
      · exact Or.inl (List.mem_append_right _ ha)
      · exact Or.inr (hsk.inside hc)
    · rcases h _ _ hr with ha | hsk
      · exact Or.inl (List.mem_append_right _ (List.mem_append_left _ ha))
      · exact absurd hsk id

/-- The same for the block and the `catch` clauses of a `try` statement, if the statement stands in the block. -/
theorem Reaches.attempt {n c a : Node} (hn : n.IsStructured) (hk : n.kind? = some .tryStatement) (hc : c ∈ n.parts)
    (hck : c.kind? = some .block) (h : Reaches c a) (hskip : Order.leavesBefore a n c = false) {t : List Node}
    {e : Ending} (hr : Runs (.attempt n) t e) : a ∈ t ∨ SkipsInside n a e := by
  cases hr with
  | cut => exact Or.inr trivial
  | passed hb hbk hr =>
    obtain rfl := hn.eq_of_block hk hb hbk hc hck
    rcases h _ _ hr with ha | hsk
    · exact Or.inl ha
    · exact Or.inr (hsk.inside hc)
  | caught hb hbk hr hd hdk _ =>
    obtain rfl := hn.eq_of_block hk hb hbk hc hck
    rcases h _ _ hr with ha | ⟨x, hx, hcx, hxa⟩
    · exact Or.inl (List.mem_append_left _ ha)
    · -- the throw would have been seen
      rw [Order.leavesBefore_of_throw hn hk hc hck hd hdk hx hcx.holds hxa] at hskip
      cases hskip

/-- A statement that is neither conditional in a part of `n` nor skipped by a jump there is reached in `n` if it is
reached in the part. -/
theorem Reaches.step {n c a : Node} (hn : n.IsStructured) (hc : c ∈ n.parts) (hca : Holds c a) (h : Reaches c a)
    (hcond : Order.isConditionalChild n c = false) (hskip : Order.leavesBefore a n c = false) : Reaches n a := by
  -- a jump that ends at `n` would have been seen
  have seen : ∀ j, j = .breaking ∨ j = .continuing → n.isAny j.targets = true → ¬ SkipsInside n a (.left j) := by
    rintro j hj hnj ⟨s, hs, x, hx, hsx, hxa⟩
    rw [Order.leavesBefore_of_jump hn hj hnj hs hx hsx hxa] at hskip
    cases hskip
  have goesOn : n.isAny Order.loops = true → ∀ {e : Ending}, e.goesOn = true → ¬ SkipsInside n a e := by
    intro hl e hg
    cases e with
    | done => exact id
    | cut => cases hg
    | left j =>
      cases j with
      | continuing => exact seen _ (Or.inr rfl) hl
      | breaking | returning | throwing => cases hg
  have leaf : ∀ k, n.kind? = some k → k ∉ .expressionStatement :: .localDeclarationStatement :: Node.jumpKinds := by
    intro k hk hmem
    rw [hn.parts_eq_nil hk hmem] at hc
    cases hc
  intro t e hr
  cases hr with
  | cut => exact Or.inr trivial
  | expression hk => exact absurd (by decide) (leaf _ hk)
  | declaration hk => exact absurd (by decide) (leaf _ hk)
  | jump j hk => exact absurd (by cases j <;> decide) (leaf _ hk)
  | plain hk hr =>
    rcases h.sequence hn hc hca hr with ha | hsk
    · exact Or.inl ha
    · exact Or.inr (hsk.skips fun j _ => j.isAny_targets_of_plain hk)
  | choice hk =>
    rw [Order.isConditionalChild_of_choice hn hk hc] at hcond
    cases hcond
  | noElse hk =>
    rw [Order.isConditionalChild_of_choice hn (by rw [Node.isAny_eq_of_kind? hk]; rfl) hc] at hcond
    cases hcond
  | noSection hk =>
    rw [Order.isConditionalChild_of_choice hn (by rw [Node.isAny_eq_of_kind? hk]; rfl) hc] at hcond
    cases hcond
  | noRound hk =>
    rw [Order.isConditionalChild_of_skippable hn hk hc] at hcond
    cases hcond
  | @switch _ _ e hk hr =>
    have hb : n.isAny Jump.breaking.targets = true := by rw [Node.isAny_eq_of_kind? hk]; rfl
    rcases h.sequence hn hc hca hr with ha | hsk
    · exact Or.inl ha
    · right
      by_cases he : e = .left .breaking
      · subst he
        exact absurd hsk (seen _ (Or.inl rfl) hb)
      · have ho : e.outside = e := by
          unfold Ending.outside
          split
          · exact absurd rfl he
          · rfl
        rw [ho]
        refine hsk.skips ?_
        rintro j rfl
        rw [Node.isAny_eq_of_kind? hk]
        cases j with
        | breaking => exact absurd rfl he
        | continuing | returning | throwing => rfl
  | lastRound hk hr hg =>
    have hl : n.isAny Order.loops = true := by rw [Node.isAny_eq_of_kind? hk]; rfl
    rcases h.sequence hn hc hca hr with ha | hsk
    · exact Or.inl ha
    · exact absurd hsk (goesOn hl hg)
  | round hl hr hg _ =>
    rcases h.sequence hn hc hca hr with ha | hsk
    · exact Or.inl (List.mem_append_left _ ha)
    · exact absurd hsk (goesOn hl hg)
  | @leave _ _ e hl hr hg =>
    rcases h.sequence hn hc hca hr with ha | hsk
    · exact Or.inl ha
    · right
      cases e with
      | done => cases hg
      | cut => trivial
      | left j =>
        cases j with
        | breaking => exact absurd hsk (seen _ (Or.inl rfl) (by rw [Jump.targets, Node.isAny_append, hl]; rfl))
        | continuing => cases hg
        | returning | throwing =>
          refine hsk.skips ?_
          rintro j ⟨⟩
          obtain ⟨k, -, hk⟩ := Node.isAny_iff.1 hl
          rw [Node.isAny_eq_of_kind? hk]
          rfl
  | unguarded hk hf hr =>
    rcases hn.kind_of_try hk hc with hck | hck | hck
    · rcases h.attempt hn hk hc hck hskip hr with ha | hsk
      · exact Or.inl ha
      · exact Or.inr (hsk.skips fun j _ => j.isAny_targets_of_try hk)
    · rw [Order.isConditionalChild, hk, Node.is_iff.2 hck] at hcond
      cases hcond
    · exact absurd hck (hf c hc)
  | cutOff => exact Or.inr trivial
  | @guarded _ f _ _ e e' hk hr he hf hfk hr' =>
    rcases hn.kind_of_try hk hc with hck | hck | hck
    · rcases h.attempt hn hk hc hck hskip hr with ha | hsk
      · exact Or.inl (List.mem_append_left _ ha)
      · right
        cases e' with
        | done => exact hsk.skips fun j _ => j.isAny_targets_of_try hk
        | cut => trivial
        | left j => exact absurd rfl (hr'.ne_left_of_finally (hn.of_mem_parts hf) hfk j)
    · rw [Order.isConditionalChild, hk, Node.is_iff.2 hck] at hcond
      cases hcond
    · obtain rfl := hn.eq_of_finally hk hf hfk hc hck
      rcases h _ _ hr' with ha | hsk
      · exact Or.inl (List.mem_append_right _ ha)
      · right
        cases e' with
        | done => exact absurd hsk id
        | cut => trivial
        | left j => exact absurd rfl (hr'.ne_left_of_finally (hn.of_mem_parts hf) hfk j)

theorem Reaches.self {a : Node} (ha : a.kind? = some .expressionStatement) : Reaches a a := by
  intro t e hr
  cases hr with
  | cut => exact Or.inr trivial
  | expression => exact Or.inl (List.mem_singleton_self a)
  | declaration hk | noElse hk | noSection hk | switch hk | lastRound hk | unguarded hk | cutOff hk | guarded hk =>
    rw [ha] at hk
    cases hk
  | jump j hk =>
    rw [ha] at hk
    cases j <;> cases hk
  | plain hk | choice hk | noRound hk | round hk | leave hk =>
    rw [Node.isAny_eq_of_kind? ha] at hk
    cases hk

/-- The way up from a statement that is neither conditional nor skipped below `stop`. -/
theorem reaches_of_clear {n a stop : Node} (hn : n.IsStructured) (hf : n.isFlow = true) (h : Holds n a)
    (ha : a.kind? = some .expressionStatement) (hstop : ∀ m, Holds n m → (m == stop) = false)
    (hcond : Order.isConditional a stop = false) (hskip : Order.isSkipped a stop = false) :
    Order.conditionalOn stop n n.ancestors = false ∧ Order.skippedOn a stop n n.ancestors = false ∧ Reaches n a := by
  induction h with
  | self => exact ⟨hcond, hskip, .self ha⟩
  | @part n p a hp h ih =>
    obtain ⟨hc, hs, hr⟩ := ih (hn.of_mem_parts hp) (Node.isFlow_of_mem_parts hp) ha
      (fun m hm => hstop m (.part hp hm)) hcond hskip
    rw [Node.ancestors_of_mem_children (Node.mem_children_of_mem_parts hp)] at hc hs
    have hne := hstop n (.self n)
    simp only [Order.conditionalOn, hne, Bool.false_eq_true, if_false, Bool.or_eq_false_iff] at hc
    simp only [Order.skippedOn, hne, Node.isRegion_of_isFlow hf, Bool.or_false, Bool.false_eq_true, if_false,
      Bool.or_eq_false_iff] at hs
    exact ⟨hc.2, hs.2, hr.step hn hp h hc.1 hs.1⟩

end Disposal

import Disposal.Proofs.Forks
import Disposal.Proofs.Reach

/-!
# Soundness of the order of execution

`Order.executedBefore` against executions: in a structured body, an answer `always` means that every occurrence of the
second statement in every execution is preceded by an occurrence of the first, and an answer `never` that the first
does not occur before the second in any execution.

* `Order.fork?_eq`: the fork that is computed is where the ways to the two statements part;
* `preceded_of_holds`, `notBefore_of_holds`: what holds at the fork holds of the whole body;
* `Order.executedBefore_sound`: both halves together.
-/

namespace Disposal

open Node (Holds)

/-! ### Where the ways to two statements part -/

namespace Order

/-- The ways to what two parts of a node hold part at that node. -/
theorem fork?_eq {top l r a b : Node} (hl : l ∈ top.parts) (hr : r ∈ top.parts) (hlr : l ≠ r) (ha : Holds l a)
    (hb : Holds r b) : fork? a b = some ⟨top, l, r⟩ :=
  fork?_of_children (Node.mem_children_of_mem_parts hl) (Node.mem_children_of_mem_parts hr) hlr ha.mem_preorder
    hb.mem_preorder

/-- The constructs that have several statements or clauses side by side. -/
private theorem kind_of_two_parts {top l r : Node} (h : top.IsStructured) (hl : l ∈ top.parts) (hr : r ∈ top.parts)
    (hlr : l ≠ r) :
    top.isAny [.block, .switchSection] = true ∨ top.isAny [.ifStatement, .switchBody] = true ∨
      top.kind? = some .tryStatement := by
  have hs := h.isShaped
  have only : ∀ {p : Node → Bool}, top.hasOnly p = true → False := by
    intro p hp
    obtain ⟨s, hps, -⟩ := Node.hasOnly_iff.1 hp
    rw [hps, List.mem_singleton] at hl hr
    exact hlr (hl.trans hr.symm)
  unfold Node.isShaped at hs
  split at hs
  case h_1 hk | h_2 hk => exact Or.inl (by rw [Node.isAny_eq_of_kind? hk]; rfl)
  case h_3 hk | h_13 hk => exact Or.inr (Or.inl (by rw [Node.isAny_eq_of_kind? hk]; rfl))
  case h_14 hk => exact Or.inr (Or.inr hk)
  case h_4 => exact (only (Bool.and_eq_true_iff.1 hs).1).elim
  case h_17 =>
    rw [List.isEmpty_iff.1 hs] at hl
    cases hl
  all_goals exact (only hs).elim

/-- One part always runs before another only where statements follow each other. -/
private theorem lt_of_ofChildren_always {top l r : Node} (h : top.IsStructured) (hl : l ∈ top.parts)
    (hr : r ∈ top.parts) (hlr : l ≠ r) (ho : ofChildren top l r = .always) :
    top.isAny [.block, .switchSection] = true ∧ l.start < r.start := by
  rcases kind_of_two_parts h hl hr hlr with hk | hk | hk
  · refine ⟨hk, ?_⟩
    obtain ⟨k, hk, hn⟩ := Node.isAny_iff.1 hk
    simp only [List.mem_cons, List.not_mem_nil, or_false] at hk
    rcases hk with rfl | rfl <;>
    · simp only [ofChildren, hn, byPlace] at ho
      split at ho
      · assumption
      · cases ho
  · obtain ⟨k, hk, hn⟩ := Node.isAny_iff.1 hk
    simp only [List.mem_cons, List.not_mem_nil, or_false] at hk
    rcases hk with rfl | rfl
    · have hs := h.isShaped
      simp only [Node.isShaped, hn, Bool.and_eq_true] at hs
      simp [ofChildren, hn, headFirst, not_isPart_condition hs.2 hl, not_isPart_condition hs.2 hr] at ho
    · simp [ofChildren, hn] at ho
  · simp only [ofChildren, hk] at ho
    split at ho <;> cases ho

/-- One part never runs before another only where it stands behind it, or in `finally` behind the `try` block. -/
private theorem le_of_ofChildren_never {top l r : Node} (h : top.IsStructured) (hl : l ∈ top.parts) (hr : r ∈ top.parts)
    (hlr : l ≠ r) (ho : ofChildren top l r = .never) :
    (top.isAny [.block, .switchSection] = true ∧ r.start ≤ l.start) ∨
      (top.kind? = some .tryStatement ∧ l.kind? = some .finallyClause ∧ r.kind? = some .block) := by
  rcases kind_of_two_parts h hl hr hlr with hk | hk | hk
  · refine Or.inl ⟨hk, ?_⟩
    obtain ⟨k, hk, hn⟩ := Node.isAny_iff.1 hk
    simp only [List.mem_cons, List.not_mem_nil, or_false] at hk
    rcases hk with rfl | rfl <;>
    · simp only [ofChildren, hn, byPlace] at ho
      split at ho
      · cases ho
      · omega
  · obtain ⟨k, hk, hn⟩ := Node.isAny_iff.1 hk
    simp only [List.mem_cons, List.not_mem_nil, or_false] at hk
    rcases hk with rfl | rfl
    · have hs := h.isShaped
      simp only [Node.isShaped, hn, Bool.and_eq_true] at hs
      simp [ofChildren, hn, headFirst, not_isPart_condition hs.2 hl, not_isPart_condition hs.2 hr] at ho
    · simp [ofChildren, hn] at ho
  · simp only [ofChildren, hk] at ho
    split at ho
    · next hf =>
      rw [Bool.and_eq_true, Node.is_iff, Node.is_iff] at hf
      exact Or.inr ⟨hk, hf⟩
    · cases ho

end Order

/-! ### Every occurrence is preceded -/

/-- Every occurrence of `b` in a trace is preceded by an occurrence of `a`. -/
def Preceded (a b : Node) (t : List Node) : Prop := ∀ t₁ t₂, t = t₁ ++ b :: t₂ → a ∈ t₁

private theorem Preceded.of_not_mem {a b : Node} {t : List Node} (h : b ∉ t) : Preceded a b t := by
  rintro t₁ t₂ rfl
  exact absurd (by simp) h

theorem Preceded.append {a b : Node} {t t' : List Node} (h : Preceded a b t) (h' : Preceded a b t') :
    Preceded a b (t ++ t') := by
  intro t₁ t₂ ht
  rcases List.append_eq_append_iff.1 ht with ⟨u, rfl, hu⟩ | ⟨u, hu, ht'⟩
  · exact List.mem_append_right _ (h' u t₂ hu)
  · cases u with
    | nil =>
      rw [List.append_nil] at hu
      subst hu
      have := h' [] t₂ ht'.symm
      cases this
    | cons x u =>
      obtain ⟨rfl, -⟩ := List.cons.inj ht'
      exact h t₁ u hu

/-- Once `a` has run, every occurrence of `b` is preceded. -/
theorem Preceded.of_mem {a b : Node} {t : List Node} (ha : a ∈ t) (hb : b ∉ t) (t' : List Node) :
    Preceded a b (t ++ t') := by
  intro t₁ t₂ ht
  rcases List.append_eq_append_iff.1 ht with ⟨u, rfl, -⟩ | ⟨u, rfl, ht'⟩
  · exact List.mem_append_left _ ha
  · cases u with
    | nil => simpa using ha
    | cons x u =>
      obtain ⟨rfl, -⟩ := List.cons.inj ht'
      exact absurd (by simp) hb

/-- Where statements follow each other, what is reached in an earlier one has run before a later one. -/
private theorem Reaches.preceded {top l r a b : Node} (h : top.IsStructured) (hl : l ∈ top.parts) (hr : r ∈ top.parts)
    (hlr : l.start < r.start) (ha : Reaches l a) (hb : Holds r b) {t : List Node} {e : Ending}
    (hrun : Runs (.sequence top.parts) t e) : Preceded a b t := by
  have hne : l ≠ r := by
    rintro rfl
    omega
  obtain ⟨xs, ys, hxy, hxs, -⟩ := h.exists_append hl hr hne (Nat.le_of_lt hlr)
  have hsplit : top.parts = (xs ++ [l]) ++ ys := by rw [hxy, List.append_assoc]; rfl
  rw [hsplit] at hrun
  rcases hrun.sequence_append with ⟨hrun, -⟩ | ⟨t₁, t₂, rfl, hrun, -⟩
  · exact .of_not_mem ((Runs.Beside.of_sequence hrun hxs).not_mem hr hb)
  · have hnot := (Runs.Beside.of_sequence hrun hxs).not_mem hr hb
    -- all of the first half has come to its end, and with it `l`
    have hmem : a ∈ t₁ := by
      rcases hrun.sequence_append with ⟨-, he⟩ | ⟨u₁, u₂, rfl, -, hu⟩
      · exact absurd rfl he
      · rcases hu.sequence_cons with ⟨-, he⟩ | ⟨v₁, v₂, rfl, hv, -⟩
        · exact absurd rfl he
        · rcases ha _ _ hv with hav | hsk
          · exact List.mem_append_right _ (List.mem_append_left _ hav)
          · exact absurd hsk id
    exact .of_mem hmem hnot t₂

/-- A statement that has run before another in all executions of a construct has done so around it. -/
theorem preceded_of_holds {n top r a b : Node} (hn : n.IsStructured) (h : Holds n top) (hr : r ∈ top.parts)
    (hb : Holds r b) (hp : ∀ t e, Runs (.statement top) t e → Preceded a b t) :
    ∀ t e, Runs (.statement n) t e → Preceded a b t := by
  induction h with
  | self => exact hp
  | @part n p top hpn h ih =>
    intro t e hrun
    have hpb : Holds p b := h.trans (.part hr hb)
    refine hrun.induction_trace (.of_not_mem List.not_mem_nil) Preceded.append ?_ ?_
    · intro s hs t e hrun
      by_cases hsp : s = p
      · subst hsp
        exact ih (hn.of_mem_parts hs) hr hp t e hrun
      · exact .of_not_mem ((Runs.Beside.of_statement hrun hs hsp).not_mem hpn hpb)
    · rintro m ⟨⟩ hk
      rw [hn.parts_eq_nil hk (by simp)] at hpn
      cases hpn

/-! ### No occurrence before another -/

/-- No occurrence of `a` in a trace is followed by an occurrence of `b`. -/
def NotBefore (a b : Node) (t : List Node) : Prop := t.Pairwise fun x y => ¬ (x = a ∧ y = b)

private theorem NotBefore.of_not_mem {a b : Node} {t : List Node} (h : a ∉ t) : NotBefore a b t := by
  refine List.Pairwise.imp_of_mem ?_ (List.pairwise_of_forall fun _ _ => trivial)
  rintro x y hx - - ⟨rfl, -⟩
  exact h hx

private theorem NotBefore.of_not_mem_right {a b : Node} {t : List Node} (h : b ∉ t) : NotBefore a b t := by
  refine List.Pairwise.imp_of_mem ?_ (List.pairwise_of_forall fun _ _ => trivial)
  rintro x y - hy - ⟨-, rfl⟩
  exact h hy

theorem NotBefore.append {a b : Node} {t t' : List Node} (h : NotBefore a b t) (h' : NotBefore a b t')
    (hab : a ∉ t ∨ b ∉ t') : NotBefore a b (t ++ t') := by
  refine List.pairwise_append.2 ⟨h, h', ?_⟩
  rintro x hx y hy ⟨rfl, rfl⟩
  rcases hab with ha | hb
  · exact ha hx
  · exact hb hy

/-- Where statements follow each other, a later one does not run before an earlier one. -/
theorem NotBefore.of_sequence {top l r a b : Node} (h : top.IsStructured) (hl : l ∈ top.parts) (hr : r ∈ top.parts)
    (hne : l ≠ r) (hle : r.start ≤ l.start) (ha : Holds l a) (hb : Holds r b) {t : List Node} {e : Ending}
    (hrun : Runs (.sequence top.parts) t e) : NotBefore a b t := by
  obtain ⟨xs, ys, hxy, hxs, hys⟩ := h.exists_append hr hl (Ne.symm hne) hle
  have hsplit : top.parts = (xs ++ [r]) ++ ys := by rw [hxy, List.append_assoc]; rfl
  rw [hsplit] at hrun
  rcases hrun.sequence_append with ⟨hrun, -⟩ | ⟨t₁, t₂, rfl, hrun, hrun'⟩
  · exact .of_not_mem ((Runs.Beside.of_sequence hrun hxs).not_mem hl ha)
  · have ha₁ : a ∉ t₁ := (Runs.Beside.of_sequence hrun hxs).not_mem hl ha
    have hb₂ : b ∉ t₂ := (Runs.Beside.of_sequence hrun' hys).not_mem hr hb
    exact (NotBefore.of_not_mem ha₁).append (.of_not_mem_right hb₂) (Or.inl ha₁)

/-- What stands in `finally` does not run before what stands in the `try` block. -/
theorem NotBefore.of_try {top l r a b : Node} (h : top.IsStructured) (hk : top.kind? = some .tryStatement)
    (hl : l ∈ top.parts) (hlk : l.kind? = some .finallyClause) (hr : r ∈ top.parts) (hne : l ≠ r)
    (ha : Holds l a) (hb : Holds r b) {t : List Node} {e : Ending} (hrun : Runs (.statement top) t e) :
    NotBefore a b t := by
  have first : ∀ {t : List Node} {e : Ending}, Runs (.attempt top) t e → a ∉ t := by
    intro t e hrun
    exact (Runs.beside_attempt hrun hlk).not_mem hl ha
  cases hrun with
  | cut => exact List.Pairwise.nil
  | expression hk' | declaration hk' | noElse hk' | noSection hk' | switch hk' | lastRound hk' =>
    rw [hk] at hk'
    cases hk'
  | jump j hk' =>
    rw [hk] at hk'
    cases j <;> cases hk'
  | plain hk' | choice hk' | noRound hk' | round hk' | leave hk' =>
    rw [Node.isAny_eq_of_kind? hk] at hk'
    cases hk'
  | unguarded _ hf => exact absurd hlk (hf l hl)
  | cutOff _ hrun => exact .of_not_mem (first hrun)
  | guarded _ hrun _ hf hfk hrun' =>
    obtain rfl := h.eq_of_finally hk hf hfk hl hlk
    have hb₂ := (Runs.Beside.of_statement hrun' hl hne).not_mem hr hb
    exact (NotBefore.of_not_mem (first hrun)).append (.of_not_mem_right hb₂) (Or.inr hb₂)

/-- A statement that has not run before another in a construct has not done so around it, where no loop brings the
construct about again. -/
theorem notBefore_of_holds {n top l r a b : Node} (hn : n.IsStructured) (hf : n.isFlow = true) (h : Holds n top)
    (hl : l ∈ top.parts) (ha : Holds l a) (hr : r ∈ top.parts) (hb : Holds r b) (hloop : Order.inLoop top = false)
    (hp : ∀ t e, Runs (.statement top) t e → NotBefore a b t) :
    Order.inLoop n = false ∧ ∀ t e, Runs (.statement n) t e → NotBefore a b t := by
  induction h with
  | self => exact ⟨hloop, hp⟩
  | @part n p top hpn h ih =>
    obtain ⟨hpl, ih⟩ := ih (hn.of_mem_parts hpn) (Node.isFlow_of_mem_parts hpn) hl hr hloop hp
    simp only [Order.inLoop, Node.ancestors_of_mem_children (Node.mem_children_of_mem_parts hpn),
      List.takeWhile_cons, Node.isRegion_of_isFlow hf, Bool.not_false, if_true, List.any_cons,
      Bool.or_eq_false_iff] at hpl
    refine ⟨hpl.2, ?_⟩
    intro t e hrun
    obtain ⟨t₁, t₂, t₃, e', rfl, hrun', h₁, h₃⟩ := hrun.once hn hpl.1 hpn
    have hpa : Holds p a := h.trans (.part hl ha)
    have hpb : Holds p b := h.trans (.part hr hb)
    have ha₁ := h₁.not_mem hpn hpa
    have hb₃ := h₃.not_mem hpn hpb
    exact ((NotBefore.of_not_mem ha₁).append (ih t₂ e' hrun') (Or.inl ha₁)).append (.of_not_mem_right hb₃) (Or.inr hb₃)

/-! ### Soundness -/

namespace Order

/-- A definite answer comes from where the ways to the two statements part. -/
private theorem exists_within {a b : Node} (h : executedBefore a b ≠ .sometimes) (hab : (a == b) = false) :
    ∃ region, executedBefore a b = within region a b := by
  unfold executedBefore at h ⊢
  rw [hab, if_neg (by simp)] at h ⊢
  split at h
  · exact absurd rfl h
  · next hc =>
    rw [if_neg hc]
    split at h
    · next ra rb _ _ =>
      split at h
      · next hr => exact ⟨ra, if_pos hr⟩
      · exact absurd rfl h
    · exact absurd rfl h

private theorem within_always {region a b top l r : Node} (hf : fork? a b = some ⟨top, l, r⟩)
    (h : within region a b = .always) :
    ofChildren top l r = .always ∧ isConditional a top = false ∧ isSkipped a top = false := by
  simp only [within, hf] at h
  split at h
  · next ho =>
    split at h
    · cases h
    · next hc =>
      simp only [Bool.or_eq_true, not_or, Bool.not_eq_true] at hc
      exact ⟨ho, hc.1.1, hc.1.2⟩
  · split at h <;> cases h
  · cases h

private theorem within_never {region a b top l r : Node} (hf : fork? a b = some ⟨top, l, r⟩)
    (h : within region a b = .never) : ofChildren top l r = .never ∧ inLoop top = false := by
  simp only [within, hf] at h
  split at h
  · split at h <;> cases h
  · next ho =>
    split at h
    · cases h
    · next hl => exact ⟨ho, by simpa using hl⟩
  · cases h

/-- In a structured body, `always` and `never` are true of every execution: with `always`, every occurrence of `b` is
preceded by one of `a`; with `never`, no occurrence of `a` is followed by one of `b`. -/
theorem executedBefore_sound {body a b : Node} (hbody : body.IsStructured) (ha : a ∈ body.preorder)
    (hb : b ∈ body.preorder) (hae : a.is .expressionStatement = true) (hbe : b.is .expressionStatement = true)
    (hab : a ≠ b) {t : List Node} {e : Ending} (hrun : Runs (.statement body) t e) :
    (executedBefore a b = .always → Preceded a b t) ∧ (executedBefore a b = .never → NotBefore a b t) := by
  rw [Node.is_iff] at hae hbe
  have flow : ∀ {x : Node}, x.kind? = some .expressionStatement → x.isFlow = true := by
    intro x hx
    rw [Node.isFlow, Node.isAny_eq_of_kind? hx]
    rfl
  have ha' := hbody.holds_of_mem_preorder ha (flow hae)
  have hb' := hbody.holds_of_mem_preorder hb (flow hbe)
  have leaf : ∀ {x y : Node}, Holds body x → x.kind? = some .expressionStatement → Holds x y → x = y := by
    intro x y hx hxk hxy
    cases hxy with
    | self => rfl
    | part hp =>
      rw [(hbody.of_holds hx).parts_eq_nil hxk (by simp)] at hp
      cases hp
  obtain ⟨top, l, r, htop, hl, hr, hlr, hla, hrb⟩ := Node.exists_fork ha' hb'
    (fun h => hab (leaf ha' hae h)) (fun h => hab (leaf hb' hbe h).symm)
  have hst := hbody.of_holds htop
  have hne : (a == b) = false := by
    rw [Bool.eq_false_iff]
    exact fun h => hab (Node.eq_of_beq ha' hb' h)
  constructor
  · intro ho
    obtain ⟨region, hw⟩ := exists_within (by rw [ho]; simp) hne
    obtain ⟨hc, hcond, hskip⟩ := within_always (fork?_eq hl hr hlr hla hrb) (hw ▸ ho)
    obtain ⟨hk, hlt⟩ := lt_of_ofChildren_always hst hl hr hlr hc
    have hreach : Reaches l a :=
      (reaches_of_clear (hst.of_mem_parts hl) (Node.isFlow_of_mem_parts hl) hla hae
        (fun m hm => hm.beq_eq_false hl) hcond hskip).2.2
    refine preceded_of_holds hbody htop hr hrb ?_ t e hrun
    intro t e hrun
    exact hreach.preceded hst hl hr hlt hrb (hrun.sequence_of_plain hk)
  · intro ho
    obtain ⟨region, hw⟩ := exists_within (by rw [ho]; simp) hne
    obtain ⟨hc, hloop⟩ := within_never (fork?_eq hl hr hlr hla hrb) (hw ▸ ho)
    refine (notBefore_of_holds hbody (htop.isFlow_of_mem_parts hbody hl) htop hl hla hr hrb hloop ?_).2 t e hrun
    intro t e hrun
    rcases le_of_ofChildren_never hst hl hr hlr hc with ⟨hk, hle⟩ | ⟨hk, hlk, -⟩
    · exact .of_sequence hst hl hr hlr hle hla hrb (hrun.sequence_of_plain hk)
    · exact .of_try hst hk hl hlk hr hlr hla hrb hrun

namespace Sample

/-- A tree without text, not in any field. -/
def tree (label : Label) (start stop : Nat) (children : List Tree) : Tree :=
  .node ⟨label, none, start, stop, ""⟩ children

/-- A call statement of four bytes. -/
def call (start : Nat) : Tree :=
  tree (.kind .expressionStatement) start (start + 4)
    [tree (.kind .invocationExpression) start (start + 3) [], tree (.token ";") (start + 3) (start + 4) []]

def leaving : Tree :=
  tree (.kind .ifStatement) 8 19
    [tree (.token "if") 8 10 [], tree (.token "(") 10 11 [],
     .node ⟨.kind .identifier, some .condition, 11, 12, ""⟩ [], tree (.token ")") 12 13 [],
     tree (.kind .breakStatement) 13 19 []]

def inner : Tree :=
  tree (.kind .block) 3 20 [tree (.token "\x7b") 3 4 [], call 4, leaving, tree (.token "\x7d") 19 20 []]

def loop : Tree :=
  tree (.kind .doStatement) 1 29
    [tree (.token "do") 1 3 [], inner, tree (.token "while") 20 25 [], tree (.token "(") 25 26 [],
     tree (.kind .identifier) 26 27 [], tree (.token ")") 27 28 [], tree (.token ";") 28 29 []]

/-- The body `{do{A();if(c)break;}while(d);B();}`. -/
def block : Tree :=
  tree (.kind .block) 0 34 [tree (.token "\x7b") 0 1 [], loop, call 29, tree (.token "\x7d") 33 34 []]

def body : Node := (Node.root 0 (tree (.kind .methodDeclaration) 0 34 [block])).child 0 block

def round : Node := (body.child 1 loop).child 1 inner

/-- The statement `A();`. -/
def first : Node := round.child 1 (call 4)

/-- The statement `B();`. -/
def second : Node := body.child 2 (call 29)

theorem runs : Runs (.statement body) [first, second] .done := by
  have hround : Runs (.statement round) [first] (.left .breaking) :=
    .plain rfl (.next (.expression rfl) (.stop (.choice rfl (.head _) (.jump .breaking rfl)) (by simp)))
  have hrounds : Runs (.sequence (body.child 1 loop).parts) [first] (.left .breaking) := .stop hround (by simp)
  exact .plain rfl (.next (Runs.leave rfl hrounds rfl) (.next (.expression rfl) .nil))

private theorem isStructured : body.IsStructured where
  tame := by decide
  shaped := by decide
  laidOut := by decide
  calm := by decide

end Sample

/-- The theorem at `{do{A();if(c)break;}while(d);B();}`, run through one round that breaks off. -/
theorem executedBefore_sound_break :
    (executedBefore Sample.first Sample.second = .always ∧
      Preceded Sample.first Sample.second [Sample.first, Sample.second]) ∧
    (executedBefore Sample.second Sample.first = .never ∧
      NotBefore Sample.second Sample.first [Sample.first, Sample.second]) := by
  have hne : Sample.first ≠ Sample.second := by
    intro h
    exact absurd (congrArg Node.start h) (by decide)
  have hf : Sample.first ∈ Sample.body.preorder := by
    apply Holds.mem_preorder
    exact .part (p := Sample.body.child 1 Sample.loop) (.head _)
      (.part (p := Sample.round) (.head _) (.part (.head _) (.self _)))
  have hs : Sample.second ∈ Sample.body.preorder := by
    apply Holds.mem_preorder
    exact .part (.tail _ (.head _)) (.self _)
  have ha : executedBefore Sample.first Sample.second = .always := by decide
  have hn : executedBefore Sample.second Sample.first = .never := by decide
  constructor
  · exact ⟨ha, (executedBefore_sound Sample.isStructured hf hs rfl rfl hne Sample.runs).1 ha⟩
  · exact ⟨hn, (executedBefore_sound Sample.isStructured hs hf rfl rfl hne.symm Sample.runs).2 hn⟩

end Order

end Disposal

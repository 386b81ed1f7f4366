import Disposal.Proofs.Structure

/-!
# Executions

What a structured body can do when it runs. An execution is told by its *trace*, the expression statements it runs in
their order, and by its *ending*. Conditions, numbers of rounds and sections of `switch` are chosen freely; only
`throw` throws, a throw in a `try` block is caught by any of its `catch` clauses or by none, and `finally` always runs.
An execution may be cut off at any point, so that the traces are those of all finite prefixes and executions that
never end are covered by their prefixes.

* `Runs.exists_holds`: a trace stays within what is run;
* `Runs.exists_jump`: what ends in a jump holds that jump;
* `Runs.induction_trace`: a property of traces that is kept by joining traces passes from the parts to the whole;
* `Runs.once`: outside loops, a part runs at most once.
-/

namespace Disposal

/-- A way to leave a construct before its end. -/
inductive Jump where
  | breaking
  | continuing
  | returning
  | throwing
  deriving DecidableEq, Repr

namespace Jump

/-- The statement that jumps in this way. -/
def kind : Jump → Kind
  | breaking => .breakStatement
  | continuing => .continueStatement
  | returning => .returnStatement
  | throwing => .throwStatement

/-- The constructs at whose edge the jump ends. -/
def targets : Jump → List Kind
  | breaking => Order.loops ++ [.switchStatement]
  | continuing => Order.loops
  | returning | throwing => []

end Jump

/-- How an execution ends: at the end of what is run, cut off, or by a jump out of it. -/
inductive Ending where
  | done
  | cut
  | left (j : Jump)
  deriving DecidableEq, Repr

namespace Ending

/-- Whether a loop goes on after a round that ends like this. -/
def goesOn : Ending → Bool
  | done | left .continuing => true
  | _ => false

/-- The ending of a loop or `switch` by what ends inside it. -/
def outside : Ending → Ending
  | left .breaking => done
  | e => e

/-- The ending of a `try` statement whose `finally` ends like this, after `e`. -/
def following (last e : Ending) : Ending :=
  match last with
  | done => e
  | _ => last

end Ending

/-- What is run: a statement or clause, several in a row, or a `try` statement without its `finally`. -/
inductive Task where
  | statement (n : Node)
  | sequence (ns : List Node)
  | attempt (n : Node)

namespace Task

/-- The nodes that a task runs one by one. -/
def inner : Task → List Node
  | statement n | attempt n => n.parts
  | sequence ns => ns

/-- The nodes that a task may run. -/
def members : Task → List Node
  | statement n => [n]
  | sequence ns => ns
  | attempt n => n.parts

end Task

/-- The constructs that run what stands in them once and in order. -/
def plainKinds : List Kind :=
  [.block, .switchSection, .catchClause, .finallyClause, .usingStatement, .lockStatement, .fixedStatement]

/-- The loops that may do without any round. -/
def skippableLoops : List Kind := [.whileStatement, .forStatement, .forEachStatement, .foreachStatement]

/-- No jump ends at a construct that runs what stands in it once. -/
theorem Jump.isAny_targets_of_plain (j : Jump) {n : Node} (h : n.isAny plainKinds = true) :
    n.isAny j.targets = false := by
  obtain ⟨k, hk, hn⟩ := Node.isAny_iff.1 h
  rw [Node.isAny_eq_of_kind? hn]
  clear hn
  revert k
  cases j <;> decide

theorem Jump.isAny_targets_of_try (j : Jump) {n : Node} (h : n.kind? = some .tryStatement) :
    n.isAny j.targets = false := by
  rw [Node.isAny_eq_of_kind? h]
  cases j <;> rfl

/-- A task can run with this trace and this ending. -/
inductive Runs : Task → List Node → Ending → Prop
  | cut (w : Task) : Runs w [] .cut
  | nil : Runs (.sequence []) [] .done
  | next {s : Node} {ss t t' : List Node} {e : Ending} (h : Runs (.statement s) t .done)
      (h' : Runs (.sequence ss) t' e) : Runs (.sequence (s :: ss)) (t ++ t') e
  | stop {s : Node} {ss t : List Node} {e : Ending} (h : Runs (.statement s) t e) (he : e ≠ .done) :
      Runs (.sequence (s :: ss)) t e
  -- statements without parts
  | expression {n : Node} (hn : n.kind? = some .expressionStatement) : Runs (.statement n) [n] .done
  | declaration {n : Node} (hn : n.kind? = some .localDeclarationStatement) : Runs (.statement n) [] .done
  | jump {n : Node} (j : Jump) (hn : n.kind? = some j.kind) : Runs (.statement n) [] (.left j)
  -- blocks and choices
  | plain {n : Node} {t : List Node} {e : Ending} (hn : n.isAny plainKinds = true)
      (h : Runs (.sequence n.parts) t e) : Runs (.statement n) t e
  | choice {n s : Node} {t : List Node} {e : Ending} (hn : n.isAny [.ifStatement, .switchBody] = true)
      (hs : s ∈ n.parts) (h : Runs (.statement s) t e) : Runs (.statement n) t e
  | noElse {n : Node} (hn : n.kind? = some .ifStatement) (hs : n.parts.length = 1) : Runs (.statement n) [] .done
  | noSection {n : Node} (hn : n.kind? = some .switchBody) : Runs (.statement n) [] .done
  | switch {n : Node} {t : List Node} {e : Ending} (hn : n.kind? = some .switchStatement)
      (h : Runs (.sequence n.parts) t e) : Runs (.statement n) t e.outside
  -- loops
  | noRound {n : Node} (hn : n.isAny skippableLoops = true) : Runs (.statement n) [] .done
  | lastRound {n : Node} {t : List Node} {e : Ending} (hn : n.kind? = some .doStatement)
      (h : Runs (.sequence n.parts) t e) (he : e.goesOn = true) : Runs (.statement n) t .done
  | round {n : Node} {t t' : List Node} {e e' : Ending} (hn : n.isAny Order.loops = true)
      (h : Runs (.sequence n.parts) t e) (he : e.goesOn = true) (h' : Runs (.statement n) t' e') :
      Runs (.statement n) (t ++ t') e'
  | leave {n : Node} {t : List Node} {e : Ending} (hn : n.isAny Order.loops = true)
      (h : Runs (.sequence n.parts) t e) (he : e.goesOn = false) : Runs (.statement n) t e.outside
  -- exceptions
  | passed {n b : Node} {t : List Node} {e : Ending} (hb : b ∈ n.parts) (hk : b.kind? = some .block)
      (h : Runs (.statement b) t e) : Runs (.attempt n) t e
  | caught {n b c : Node} {t t' : List Node} {e : Ending} (hb : b ∈ n.parts) (hk : b.kind? = some .block)
      (h : Runs (.statement b) t (.left .throwing)) (hc : c ∈ n.parts) (hck : c.kind? = some .catchClause)
      (h' : Runs (.statement c) t' e) : Runs (.attempt n) (t ++ t') e
  | unguarded {n : Node} {t : List Node} {e : Ending} (hn : n.kind? = some .tryStatement)
      (hf : ∀ f ∈ n.parts, f.kind? ≠ some .finallyClause) (h : Runs (.attempt n) t e) : Runs (.statement n) t e
  | cutOff {n : Node} {t : List Node} (hn : n.kind? = some .tryStatement) (h : Runs (.attempt n) t .cut) :
      Runs (.statement n) t .cut
  | guarded {n f : Node} {t t' : List Node} {e e' : Ending} (hn : n.kind? = some .tryStatement)
      (h : Runs (.attempt n) t e) (he : e ≠ .cut) (hf : f ∈ n.parts) (hk : f.kind? = some .finallyClause)
      (h' : Runs (.statement f) t' e') : Runs (.statement n) (t ++ t') (e'.following e)

/-- The second node is the first or lies below it, with none of some constructs around it on the way. -/
inductive Exposed (ks : List Kind) : Node → Node → Prop
  | self (n : Node) : Exposed ks n n
  | part {n p x : Node} (hn : n.isAny ks = false) (hp : p ∈ n.parts) (h : Exposed ks p x) : Exposed ks n x

theorem Exposed.holds {ks : List Kind} {n x : Node} (h : Exposed ks n x) : n.Holds x := by
  induction h with
  | self n => exact .self n
  | part _ hp _ ih => exact .part hp ih

namespace Runs

open Node (Holds)

/-! ### Where traces and jumps come from -/

/-- A trace stays within what is run. -/
theorem exists_holds {w : Task} {t : List Node} {e : Ending} (h : Runs w t e) {x : Node} (hx : x ∈ t) :
    ∃ s ∈ w.members, Holds s x := by
  -- from the parts of a node to the node
  have up : ∀ {n : Node}, (∃ s ∈ n.parts, Holds s x) → ∃ s ∈ [n], Holds s x := by
    rintro n ⟨s, hs, hsx⟩
    exact ⟨n, List.mem_singleton_self n, .part hs hsx⟩
  have part : ∀ {n s : Node}, s ∈ n.parts → (∃ m ∈ [s], Holds m x) → ∃ m ∈ n.parts, Holds m x := by
    rintro n s hs ⟨m, hm, hmx⟩
    obtain rfl := List.mem_singleton.1 hm
    exact ⟨m, hs, hmx⟩
  induction h with
  | cut | nil | declaration | jump | noElse | noSection | noRound => cases hx
  | @next s ss _ _ _ _ _ ih ih' =>
    rcases List.mem_append.1 hx with hx | hx
    · obtain ⟨m, hm, hmx⟩ := ih hx
      exact ⟨m, by simp [List.mem_singleton.1 hm, Task.members], hmx⟩
    · obtain ⟨m, hm, hmx⟩ := ih' hx
      exact ⟨m, List.mem_cons_of_mem s hm, hmx⟩
  | stop _ _ ih =>
    obtain ⟨m, hm, hmx⟩ := ih hx
    exact ⟨m, by simp [List.mem_singleton.1 hm, Task.members], hmx⟩
  | @expression n =>
    obtain rfl := List.mem_singleton.1 hx
    exact ⟨x, List.mem_singleton_self x, .self x⟩
  | plain _ _ ih | switch _ _ ih | lastRound _ _ _ ih | leave _ _ _ ih => exact up (ih hx)
  | choice _ hs _ ih => exact up (part hs (ih hx))
  | round _ _ _ _ ih ih' =>
    rcases List.mem_append.1 hx with hx | hx
    · exact up (ih hx)
    · exact ih' hx
  | passed hb _ _ ih => exact part hb (ih hx)
  | caught hb _ _ hc _ _ ih ih' =>
    rcases List.mem_append.1 hx with hx | hx
    · exact part hb (ih hx)
    · exact part hc (ih' hx)
  | unguarded _ _ _ ih | cutOff _ _ ih => exact up (ih hx)
  | guarded _ _ _ hf _ _ ih ih' =>
    rcases List.mem_append.1 hx with hx | hx
    · exact up (ih hx)
    · exact up (part hf (ih' hx))

/-- What ends in a jump holds that jump, with nothing around it where the jump would have ended. -/
theorem exists_jump {w : Task} {t : List Node} {e : Ending} (h : Runs w t e) {j : Jump} (he : e = .left j) :
    ∃ s ∈ w.members, ∃ x, x.kind? = some j.kind ∧ Exposed j.targets s x := by
  -- from the parts of a node to the node, if the jump does not end there
  have up : ∀ {n : Node}, n.isAny j.targets = false →
      (∃ s ∈ n.parts, ∃ x, x.kind? = some j.kind ∧ Exposed j.targets s x) →
      ∃ s ∈ [n], ∃ x, x.kind? = some j.kind ∧ Exposed j.targets s x := by
    rintro n hn ⟨s, hs, x, hx, hsx⟩
    exact ⟨n, List.mem_singleton_self n, x, hx, .part hn hs hsx⟩
  have part : ∀ {n s : Node}, s ∈ n.parts →
      (∃ m ∈ [s], ∃ x, x.kind? = some j.kind ∧ Exposed j.targets m x) →
      ∃ m ∈ n.parts, ∃ x, x.kind? = some j.kind ∧ Exposed j.targets m x := by
    rintro n s hs ⟨m, hm, h⟩
    obtain rfl := List.mem_singleton.1 hm
    exact ⟨m, hs, h⟩
  induction h with
  | cut | nil | expression | declaration | noElse | noSection | noRound | lastRound | cutOff => cases he
  | @next s _ _ _ _ _ _ _ ih' =>
    obtain ⟨m, hm, h⟩ := ih' he
    exact ⟨m, List.mem_cons_of_mem s hm, h⟩
  | stop _ _ ih =>
    obtain ⟨m, hm, h⟩ := ih he
    exact ⟨m, by simp [List.mem_singleton.1 hm, Task.members], h⟩
  | @jump n _ hn =>
    cases he
    exact ⟨n, List.mem_singleton_self n, n, hn, .self n⟩
  | plain hn _ ih => exact up (j.isAny_targets_of_plain hn) (ih he)
  | choice hn hs _ ih =>
    obtain ⟨k, hk, hnk⟩ := Node.isAny_iff.1 hn
    refine up ?_ (part hs (ih he))
    rw [Node.isAny_eq_of_kind? hnk]
    revert k
    cases j <;> simp [Jump.targets, Order.loops]
  | @switch _ _ e hn _ ih =>
    -- a `break` would have ended here
    cases e with
    | done | cut => cases he
    | left j' =>
      cases j' with
      | breaking => cases he
      | continuing | returning | throwing =>
        cases he
        exact up (by rw [Node.isAny_eq_of_kind? hn]; rfl) (ih rfl)
  | round _ _ _ _ _ ih' => exact ih' he
  | @leave _ _ e hn _ hg ih =>
    -- neither `break` nor `continue` leaves a loop
    obtain ⟨k, -, hnk⟩ := Node.isAny_iff.1 hn
    cases e with
    | done | cut => cases he
    | left j' =>
      cases j' with
      | breaking => cases he
      | continuing => cases hg
      | returning | throwing =>
        cases he
        exact up (by rw [Node.isAny_eq_of_kind? hnk]; rfl) (ih rfl)
  | passed hb _ _ ih => exact part hb (ih he)
  | caught _ _ _ hc _ _ _ ih' => exact part hc (ih' he)
  | unguarded hn _ _ ih => exact up (j.isAny_targets_of_try hn) (ih he)
  | @guarded _ _ _ _ e e' hn _ _ hf _ _ ih ih' =>
    cases e' with
    | done => exact up (j.isAny_targets_of_try hn) (ih he)
    | cut => cases he
    | left j' =>
      cases he
      exact up (Jump.isAny_targets_of_try _ hn) (part hf (ih' rfl))

/-- Nothing that a `finally` clause does jumps out of it. -/
theorem ne_left_of_finally {f : Node} {t : List Node} {e : Ending} (hr : Runs (.statement f) t e)
    (h : f.IsStructured) (hf : f.kind? = some .finallyClause) (j : Jump) : e ≠ .left j := by
  intro he
  obtain ⟨s, hs, x, hx, hsx⟩ := hr.exists_jump he
  obtain rfl := List.mem_singleton.1 hs
  have hcalm := h.calm s (Node.mem_preorder_self s) (Node.is_iff.2 hf)
  have := List.all_eq_true.1 hcalm x hsx.holds.mem_preorder
  rw [Node.isAny_eq_of_kind? hx] at this
  cases j <;> cases this

/-! ### Sequences -/

/-- A sequence ends with the first statement that does not come to its end. -/
theorem sequence_cons {s : Node} {ss t : List Node} {e : Ending} (h : Runs (.sequence (s :: ss)) t e) :
    (Runs (.statement s) t e ∧ e ≠ .done) ∨
      ∃ t₁ t₂, t = t₁ ++ t₂ ∧ Runs (.statement s) t₁ .done ∧ Runs (.sequence ss) t₂ e := by
  cases h with
  | cut => exact Or.inl ⟨.cut _, by simp⟩
  | next h h' => exact Or.inr ⟨_, _, rfl, h, h'⟩
  | stop h he => exact Or.inl ⟨h, he⟩

/-- A sequence in two halves ends in the first half, or runs through it and goes on with the second. -/
theorem sequence_append {xs ys t : List Node} {e : Ending} (h : Runs (.sequence (xs ++ ys)) t e) :
    (Runs (.sequence xs) t e ∧ e ≠ .done) ∨
      ∃ t₁ t₂, t = t₁ ++ t₂ ∧ Runs (.sequence xs) t₁ .done ∧ Runs (.sequence ys) t₂ e := by
  induction xs generalizing t with
  | nil => exact Or.inr ⟨[], t, rfl, .nil, h⟩
  | cons x xs ih =>
    rcases sequence_cons h with ⟨hx, he⟩ | ⟨t₁, t₂, rfl, hx, hr⟩
    · exact Or.inl ⟨.stop hx he, he⟩
    · rcases ih hr with ⟨hxs, he⟩ | ⟨u₁, u₂, rfl, hxs, hys⟩
      · exact Or.inl ⟨.next hx hxs, he⟩
      · exact Or.inr ⟨t₁ ++ u₁, u₂, (List.append_assoc ..).symm, .next hx hxs, hys⟩

/-- A block runs its statements in a row. -/
theorem sequence_of_plain {n : Node} {t : List Node} {e : Ending}
    (hn : n.isAny [.block, .switchSection] = true) (h : Runs (.statement n) t e) : Runs (.sequence n.parts) t e := by
  obtain ⟨k, hk, hn⟩ := Node.isAny_iff.1 hn
  simp only [List.mem_cons, List.not_mem_nil, or_false] at hk
  cases h with
  | cut => exact .cut _
  | plain _ h => exact h
  | expression hk' | declaration hk' | noElse hk' | noSection hk' | switch hk' | lastRound hk' | unguarded hk'
  | cutOff hk' | guarded hk' =>
    rw [hn] at hk'
    cases hk'
    simp at hk
  | jump j hk' =>
    rw [hn] at hk'
    cases hk'
    cases j <;> simp [Jump.kind] at hk
  | choice hk' | noRound hk' | round hk' | leave hk' =>
    rw [Node.isAny_eq_of_kind? hn] at hk'
    rcases hk with rfl | rfl <;> cases hk'

/-! ### From the parts to the whole -/

/-- A property of traces that is kept by joining traces passes from the parts of a construct to the construct. -/
theorem induction_trace {C : List Node → Prop} (nil : C []) (append : ∀ {t t'}, C t → C t' → C (t ++ t'))
    {w : Task} {t : List Node} {e : Ending} (h : Runs w t e)
    (hw : ∀ s ∈ w.inner, ∀ t e, Runs (.statement s) t e → C t)
    (hx : ∀ n, w = .statement n → n.kind? ≠ some .expressionStatement) : C t := by
  induction h with
  | cut | nil | declaration | jump | noElse | noSection | noRound => exact nil
  | @expression n hn => exact absurd hn (hx n rfl)
  | next h _ _ ih' =>
    have hs := hw _ List.mem_cons_self _ _ h
    exact append hs (ih' (fun s hs => hw s (List.mem_cons_of_mem _ hs)) (by simp))
  | stop h => exact hw _ List.mem_cons_self _ _ h
  | plain _ _ ih | switch _ _ ih | lastRound _ _ _ ih | leave _ _ _ ih => exact ih hw (by simp)
  | choice _ hs h => exact hw _ hs _ _ h
  | round _ _ _ _ ih ih' => exact append (ih hw (by simp)) (ih' hw hx)
  | passed hb _ h => exact hw _ hb _ _ h
  | caught hb _ h hc _ h' => exact append (hw _ hb _ _ h) (hw _ hc _ _ h')
  | unguarded _ _ _ ih | cutOff _ _ ih => exact ih hw (by simp)
  | guarded _ _ _ hf _ h' ih => exact append (ih hw (by simp)) (hw _ hf _ _ h')

/-- All of a trace comes from parts of `n` other than `p`. -/
def Beside (n p : Node) (t : List Node) : Prop := ∀ x ∈ t, ∃ s ∈ n.parts, s ≠ p ∧ Holds s x

/-- A trace shows one run of the part `p` of `n` at most, and else what other parts do. -/
def Once (n p : Node) (t : List Node) : Prop :=
  ∃ t₁ t₂ t₃ e, t = t₁ ++ t₂ ++ t₃ ∧ Runs (.statement p) t₂ e ∧ Beside n p t₁ ∧ Beside n p t₃

theorem Beside.nil (n p : Node) : Beside n p [] := by
  intro x hx
  cases hx

theorem Beside.append {n p : Node} {t t' : List Node} (h : Beside n p t) (h' : Beside n p t') :
    Beside n p (t ++ t') := by
  intro x hx
  rcases List.mem_append.1 hx with hx | hx
  · exact h x hx
  · exact h' x hx

theorem Beside.of_statement {n p s : Node} {t : List Node} {e : Ending} (h : Runs (.statement s) t e)
    (hs : s ∈ n.parts) (hne : s ≠ p) : Beside n p t := by
  intro x hx
  obtain ⟨m, hm, hmx⟩ := h.exists_holds hx
  obtain rfl := List.mem_singleton.1 hm
  exact ⟨m, hs, hne, hmx⟩

theorem Beside.of_sequence {n p : Node} {ss t : List Node} {e : Ending} (h : Runs (.sequence ss) t e)
    (hs : ∀ s ∈ ss, s ∈ n.parts ∧ s ≠ p) : Beside n p t := by
  intro x hx
  obtain ⟨s, hm, hsx⟩ := h.exists_holds hx
  exact ⟨s, (hs s hm).1, (hs s hm).2, hsx⟩

/-- What one part holds does not occur in what other parts do. -/
theorem Beside.not_mem {n p x : Node} {t : List Node} (h : Beside n p t) (hp : p ∈ n.parts)
    (hx : Holds p x) : x ∉ t := by
  intro hxt
  obtain ⟨s, hs, hsp, hsx⟩ := h x hxt
  exact Node.ne_of_holds_of_holds hs hp hsp hsx hx rfl

theorem Beside.once {n p : Node} {t : List Node} (h : Beside n p t) : Once n p t :=
  ⟨t, [], [], .cut, by simp, .cut _, h, .nil n p⟩

theorem Once.of_run {n p : Node} {t : List Node} {e : Ending} (h : Runs (.statement p) t e) : Once n p t :=
  ⟨[], t, [], e, by simp, h, .nil n p, .nil n p⟩

theorem Once.append {n p : Node} {t t' : List Node} (h : Once n p t) (h' : Beside n p t') : Once n p (t ++ t') := by
  obtain ⟨t₁, t₂, t₃, e, rfl, hr, h₁, h₃⟩ := h
  exact ⟨t₁, t₂, t₃ ++ t', e, by simp, hr, h₁, h₃.append h'⟩

private theorem Beside.append_once {n p : Node} {t t' : List Node} (h : Beside n p t) (h' : Once n p t') :
    Once n p (t ++ t') := by
  obtain ⟨t₁, t₂, t₃, e, rfl, hr, h₁, h₃⟩ := h'
  exact ⟨t ++ t₁, t₂, t₃, e, by simp, hr, h.append h₁, h₃⟩

private theorem once_statement {n p s : Node} {t : List Node} {e : Ending} (h : Runs (.statement s) t e)
    (hs : s ∈ n.parts) : Once n p t := by
  by_cases hsp : s = p
  · subst hsp
    exact .of_run h
  · exact (Beside.of_statement h hs hsp).once

private theorem once_sequence {n p : Node} {t : List Node} {e : Ending} (hn : n.IsStructured) (hp : p ∈ n.parts)
    (h : Runs (.sequence n.parts) t e) : Once n p t := by
  obtain ⟨xs, ys, hxy⟩ := List.append_of_mem hp
  have hnd := hn.nodup_parts
  rw [hxy] at h hnd
  have hd := List.nodup_append.1 hnd
  have hxs : ∀ s ∈ xs, s ∈ n.parts ∧ s ≠ p := by
    intro s hs
    exact ⟨by rw [hxy]; exact List.mem_append_left _ hs, hd.2.2 s hs p List.mem_cons_self⟩
  have hys : ∀ s ∈ ys, s ∈ n.parts ∧ s ≠ p := by
    intro s hs
    refine ⟨by rw [hxy]; exact List.mem_append_right _ (List.mem_cons_of_mem _ hs), ?_⟩
    rintro rfl
    exact (List.nodup_cons.1 hd.2.1).1 hs
  rcases sequence_append h with ⟨h, -⟩ | ⟨t₁, t₂, rfl, h₁, h₂⟩
  · exact (Beside.of_sequence h hxs).once
  · have hb := Beside.of_sequence h₁ hxs
    rcases sequence_cons h₂ with ⟨h, -⟩ | ⟨u₁, u₂, rfl, h, h'⟩
    · exact hb.append_once (.of_run h)
    · exact hb.append_once ((Once.of_run h).append (Beside.of_sequence h' hys))

private theorem once_attempt {n p : Node} {t : List Node} {e : Ending} (h : Runs (.attempt n) t e) : Once n p t := by
  cases h with
  | cut => exact (Beside.nil n p).once
  | passed hb _ h => exact once_statement h hb
  | @caught _ b c _ _ _ hb hk h hc hck h' =>
    -- the block and the clause are different parts
    have hbc : b ≠ c := by
      rintro rfl
      rw [hk] at hck
      cases hck
    by_cases hbp : b = p
    · subst hbp
      exact (Once.of_run h).append (.of_statement h' hc (Ne.symm hbc))
    · exact (Beside.of_statement h hb hbp).append_once (once_statement h' hc)

theorem beside_attempt {n f : Node} {t : List Node} {e : Ending} (h : Runs (.attempt n) t e)
    (hf : f.kind? = some .finallyClause) : Beside n f t := by
  have ne : ∀ {s : Node} {k : Kind}, s.kind? = some k → k ≠ .finallyClause → s ≠ f := by
    rintro s k hs hk rfl
    rw [hf] at hs
    cases hs
    exact hk rfl
  cases h with
  | cut => exact .nil n f
  | passed hb hk h => exact .of_statement h hb (ne hk (by decide))
  | caught hb hk h hc hck h' =>
    exact (Beside.of_statement h hb (ne hk (by decide))).append (.of_statement h' hc (ne hck (by decide)))

/-- Outside loops, a part runs at most once. -/
theorem once {n p : Node} {t : List Node} {e : Ending} (hn : n.IsStructured)
    (hl : n.isAny Order.loops = false) (hp : p ∈ n.parts) (h : Runs (.statement n) t e) : Once n p t := by
  cases h with
  | cut | declaration | jump | noElse | noSection | noRound => exact (Beside.nil n p).once
  | expression hk =>
    rw [hn.parts_eq_nil hk (by simp)] at hp
    cases hp
  | plain _ h | switch _ h => exact once_sequence hn hp h
  | choice _ hs h => exact once_statement h hs
  | round hn' | leave hn' => rw [hl] at hn'; cases hn'
  | lastRound hk => rw [Node.isAny_eq_of_kind? hk] at hl; cases hl
  | unguarded _ _ h | cutOff _ h => exact once_attempt h
  | @guarded _ f _ _ _ _ _ h _ hf hk h' =>
    by_cases hfp : f = p
    · subst hfp
      exact (beside_attempt h hk).append_once (.of_run h')
    · exact (once_attempt h).append (.of_statement h' hf hfp)

end Runs

end Disposal

import Disposal.Proofs.Execution
import Disposal.Proofs.Guards
import Disposal.Proofs.Places

/-!
# Executions with `disposing` false

What the body of `Dispose(bool disposing)` can do when a finalizer calls it, that is with `false`. An execution is told
by its trace, the nodes it enters, and its ending. The parameter is false throughout, atoms of conditions have any
value each time, an exception may come up anywhere, and a statement that is not spelled out by `Finalizes` may enter
all that lies below it and end in any way. Labels to jump to and functions of the body's own are not covered.

* `Finalizes.ne_done_of_exits`: a statement that exits does not come to its end;
* `Finalizes.exists_run_bodied`, `Finalizes.exists_run_if`, `Finalizes.exists_run_try`: what a construct runs of each of
  its parts, and that all else it does lies outside of the part;
* `Finalizes.outside_of_tells`: the branch that a guard rules out is not run.
-/

namespace Disposal

namespace Node

/-- The constructs that end with the statement they run. -/
def bodiedKinds : List Kind := [.elseClause, .usingStatement, .lockStatement, .catchClause, .finallyClause]

/-- The statements whose executions are spelled out, and those that are not covered. -/
def spelledKinds : List Kind :=
  [.block, .ifStatement, .tryStatement, .returnStatement, .throwStatement, .gotoStatement, .localFunctionStatement] ++
    bodiedKinds

/-- Whether the parts of a statement stand where the grammar puts them: those of `if` in their fields, the body of
`using` and `lock` at the end. -/
def isOrderly (n : Node) : Bool :=
  match n.kind? with
  | some .ifStatement =>
    (n.field .condition).isSome && (n.field .consequence).isSome &&
      ((n.field .alternative).isSome || n.named[2]?.isNone)
  | some .usingStatement | some .lockStatement => (n.field .body).all fun b => n.lastNamed?.any (· == b)
  | _ => true

private theorem field?_of_field {n c : Node} {f : Field} (h : n.field f = some c) : c.field? = some f :=
  LawfulBEq.eq_of_beq (List.find?_some h :)

private theorem ne_of_field {n c d : Node} {f f' : Field} (hc : n.field f = some c) (hd : n.field f' = some d)
    (hf : f ≠ f') : c ≠ d := by
  rintro rfl
  exact hf (Option.some.inj ((field?_of_field hc).symm.trans (field?_of_field hd)))

end Node

/-- The node lies within what a task runs. -/
def Task.Reaches : Task → Node → Prop
  | statement n, x => x ∈ n.preorder
  | sequence ns, x => ∃ s ∈ ns, x ∈ s.preorder
  | attempt n, x => ∃ s ∈ n.named, x ∈ s.preorder

/-- With the parameter false, a task can run with this trace and this ending. -/
inductive Finalizes (name : String) : Task → List Node → Ending → Prop
  | cut (w : Task) : Finalizes name w [] .cut
  | thrown (w : Task) : Finalizes name w [] (.left .throwing)
  | nil : Finalizes name (.sequence []) [] .done
  | next {s : Node} {ss t t' : List Node} {e : Ending} (h : Finalizes name (.statement s) t .done)
      (h' : Finalizes name (.sequence ss) t' e) : Finalizes name (.sequence (s :: ss)) (t ++ t') e
  | stop {s : Node} {ss t : List Node} {e : Ending} (h : Finalizes name (.statement s) t e) (he : e ≠ .done) :
      Finalizes name (.sequence (s :: ss)) t e
  -- statements without branches
  | simple {n : Node} {u : List Node} (hn : n.isAny Node.spelledKinds = false) (hu : ∀ x ∈ u, x ∈ n.preorder)
      (e : Ending) : Finalizes name (.statement n) (n :: u) e
  | leave {n : Node} {u : List Node} {j : Jump} (hn : n.isAny [.returnStatement, .throwStatement] = true)
      (hu : ∀ x ∈ u, x ∈ n.preorder) (hj : n.kind? = some j.kind ∨ j = .throwing) :
      Finalizes name (.statement n) (n :: u) (.left j)
  -- blocks and choices
  | block {n : Node} {t : List Node} {e : Ending} (hn : n.kind? = some .block)
      (h : Finalizes name (.sequence n.named) t e) : Finalizes name (.statement n) (n :: t) e
  | choice {n c s : Node} {u t : List Node} {b : Bool} {e : Ending} (hn : n.kind? = some .ifStatement)
      (hc : n.field .condition = some c) (hu : ∀ x ∈ u, x ∈ c.preorder) (hb : c.ComesTo name b)
      (hs : n.field (if b then .consequence else .alternative) = some s) (h : Finalizes name (.statement s) t e) :
      Finalizes name (.statement n) (n :: (u ++ t)) e
  | noElse {n c : Node} {u : List Node} (hn : n.kind? = some .ifStatement) (hc : n.field .condition = some c)
      (hu : ∀ x ∈ u, x ∈ c.preorder) (hb : c.ComesTo name false) (hs : n.field .alternative = none) :
      Finalizes name (.statement n) (n :: u) .done
  | undecided {n c : Node} {u : List Node} (hn : n.kind? = some .ifStatement) (hc : n.field .condition = some c)
      (hu : ∀ x ∈ u, x ∈ c.preorder) : Finalizes name (.statement n) (n :: u) (.left .throwing)
  -- what stands in front of the body is a resource, a lock or a filter; the release of a resource may throw
  | bodied {n s : Node} {u t : List Node} {e e' : Ending} (hn : n.isAny Node.bodiedKinds = true)
      (hs : n.lastNamed? = some s) (hu : ∀ x ∈ u, ∃ d ∈ n.children, d ≠ s ∧ x ∈ d.preorder)
      (h : Finalizes name (.statement s) t e) (he : e' = e ∨ e' = .left .throwing) :
      Finalizes name (.statement n) (n :: (u ++ t)) e'
  -- exceptions
  | passed {n b : Node} {t : List Node} {e : Ending} (hb : b ∈ n.named) (hk : b.kind? = some .block)
      (h : Finalizes name (.statement b) t e) : Finalizes name (.attempt n) t e
  | caught {n b c : Node} {t t' : List Node} {e : Ending} (hb : b ∈ n.named) (hk : b.kind? = some .block)
      (h : Finalizes name (.statement b) t (.left .throwing)) (hc : c ∈ n.named) (hck : c.kind? = some .catchClause)
      (h' : Finalizes name (.statement c) t' e) : Finalizes name (.attempt n) (t ++ t') e
  | unguarded {n : Node} {t : List Node} {e : Ending} (hn : n.kind? = some .tryStatement)
      (hf : ∀ f ∈ n.named, f.kind? ≠ some .finallyClause) (h : Finalizes name (.attempt n) t e) :
      Finalizes name (.statement n) (n :: t) e
  | cutOff {n : Node} {t : List Node} (hn : n.kind? = some .tryStatement) (h : Finalizes name (.attempt n) t .cut) :
      Finalizes name (.statement n) (n :: t) .cut
  | guarded {n f : Node} {t t' : List Node} {e e' : Ending} (hn : n.kind? = some .tryStatement)
      (h : Finalizes name (.attempt n) t e) (he : e ≠ .cut) (hf : f ∈ n.named) (hk : f.kind? = some .finallyClause)
      (h' : Finalizes name (.statement f) t' e') : Finalizes name (.statement n) (n :: (t ++ t')) (e'.following e)

namespace Finalizes

variable {name : String} {w : Task} {n : Node} {t : List Node} {e : Ending}

/-! ### Where traces lead -/

theorem reaches (h : Finalizes name w t e) {x : Node} (hx : x ∈ t) : w.Reaches x := by
  have named : ∀ {n : Node}, (∃ s ∈ n.named, x ∈ s.preorder) → x ∈ n.preorder := by
    rintro n ⟨s, hs, hxs⟩
    exact Node.mem_preorder_of_child (Node.mem_children_of_named hs) hxs
  induction h with
  | cut | thrown | nil => cases hx
  | next _ _ ih ih' =>
    rcases List.mem_append.1 hx with hx | hx
    · exact ⟨_, List.mem_cons_self, ih hx⟩
    · obtain ⟨s, hs, hxs⟩ := ih' hx
      exact ⟨s, List.mem_cons_of_mem _ hs, hxs⟩
  | stop _ _ ih => exact ⟨_, List.mem_cons_self, ih hx⟩
  | simple _ hu | leave _ hu =>
    rcases List.mem_cons.1 hx with rfl | hx
    · exact Node.mem_preorder_self x
    · exact hu x hx
  | block _ _ ih | unguarded _ _ _ ih | cutOff _ _ ih =>
    rcases List.mem_cons.1 hx with rfl | hx
    · exact Node.mem_preorder_self x
    · exact named (ih hx)
  | choice _ hc hu _ hs _ ih =>
    rcases List.mem_cons.1 hx with rfl | hx
    · exact Node.mem_preorder_self x
    rcases List.mem_append.1 hx with hx | hx
    · exact Node.mem_preorder_of_child (Node.mem_children_of_field hc) (hu x hx)
    · exact Node.mem_preorder_of_child (Node.mem_children_of_field hs) (ih hx)
  | noElse _ hc hu | undecided _ hc hu =>
    rcases List.mem_cons.1 hx with rfl | hx
    · exact Node.mem_preorder_self x
    · exact Node.mem_preorder_of_child (Node.mem_children_of_field hc) (hu x hx)
  | bodied _ hs hu _ _ ih =>
    rcases List.mem_cons.1 hx with rfl | hx
    · exact Node.mem_preorder_self x
    rcases List.mem_append.1 hx with hx | hx
    · obtain ⟨d, hd, -, hxd⟩ := hu x hx
      exact Node.mem_preorder_of_child hd hxd
    · exact Node.mem_preorder_of_child (Node.mem_children_of_lastNamed? hs) (ih hx)
  | passed hb _ _ ih => exact ⟨_, hb, ih hx⟩
  | caught hb _ _ hc _ _ ih ih' =>
    rcases List.mem_append.1 hx with hx | hx
    · exact ⟨_, hb, ih hx⟩
    · exact ⟨_, hc, ih' hx⟩
  | guarded _ _ _ hf _ _ ih ih' =>
    rcases List.mem_cons.1 hx with rfl | hx
    · exact Node.mem_preorder_self x
    rcases List.mem_append.1 hx with hx | hx
    · exact named (ih hx)
    · exact named ⟨_, hf, ih' hx⟩

/-! ### What one construct does -/

theorem of_block (hn : n.kind? = some .block) (h : Finalizes name (.statement n) t e) :
    (t = [] ∧ e ≠ .done) ∨ ∃ t', t = n :: t' ∧ Finalizes name (.sequence n.named) t' e := by
  cases h with
  | cut | thrown => exact Or.inl ⟨rfl, by simp⟩
  | block _ h => exact Or.inr ⟨_, rfl, h⟩
  | simple hn' | leave hn' | bodied hn' =>
    rw [Node.isAny_eq_of_kind? hn] at hn'
    cases hn'
  | choice hn' | noElse hn' | undecided hn' | unguarded hn' | cutOff hn' | guarded hn' =>
    rw [hn] at hn'
    cases hn'

/-- An `if` evaluates its condition, at most, or goes on with the branch that the condition chooses. -/
private theorem of_if (hn : n.kind? = some .ifStatement) (h : Finalizes name (.statement n) t e) :
    (t = [] ∧ e ≠ .done) ∨ ∃ c u, n.field .condition = some c ∧ (∀ x ∈ u, x ∈ c.preorder) ∧
      ((t = n :: u ∧ (e = .done → c.ComesTo name false)) ∨
        ∃ b s t', c.ComesTo name b ∧ n.field (if b then .consequence else .alternative) = some s ∧
          t = n :: (u ++ t') ∧ Finalizes name (.statement s) t' e) := by
  cases h with
  | cut | thrown => exact Or.inl ⟨rfl, by simp⟩
  | choice _ hc hu hb hs h => exact Or.inr ⟨_, _, hc, hu, Or.inr ⟨_, _, _, hb, hs, rfl, h⟩⟩
  | noElse _ hc hu hb hs => exact Or.inr ⟨_, _, hc, hu, Or.inl ⟨rfl, fun _ => hb⟩⟩
  | undecided _ hc hu => exact Or.inr ⟨_, _, hc, hu, Or.inl ⟨rfl, nofun⟩⟩
  | simple hn' | leave hn' | bodied hn' =>
    rw [Node.isAny_eq_of_kind? hn] at hn'
    cases hn'
  | block hn' | unguarded hn' | cutOff hn' | guarded hn' =>
    rw [hn] at hn'
    cases hn'

private theorem of_bodied (hn : n.isAny Node.bodiedKinds = true) (h : Finalizes name (.statement n) t e) :
    t = [] ∨ ∃ s u t' e', n.lastNamed? = some s ∧ (∀ x ∈ u, ∃ d ∈ n.children, d ≠ s ∧ x ∈ d.preorder) ∧
      t = n :: (u ++ t') ∧ Finalizes name (.statement s) t' e' := by
  obtain ⟨k, hk, hnk⟩ := Node.isAny_iff.1 hn
  simp only [Node.bodiedKinds, List.mem_cons, List.not_mem_nil, or_false] at hk
  cases h with
  | cut | thrown => exact Or.inl rfl
  | bodied _ hs hu h => exact Or.inr ⟨_, _, _, _, hs, hu, rfl, h⟩
  | simple hn' | leave hn' =>
    rw [Node.isAny_eq_of_kind? hnk] at hn'
    rcases hk with rfl | rfl | rfl | rfl | rfl <;> cases hn'
  | block hn' | choice hn' | noElse hn' | undecided hn' | unguarded hn' | cutOff hn' | guarded hn' =>
    rw [hnk] at hn'
    cases hn'
    simp at hk

theorem of_try (hn : n.kind? = some .tryStatement) (h : Finalizes name (.statement n) t e) :
    t = [] ∨ ∃ t₁ t₂ e₁, t = n :: (t₁ ++ t₂) ∧ Finalizes name (.attempt n) t₁ e₁ ∧
      (t₂ = [] ∨ ∃ f e₂, f ∈ n.named ∧ f.kind? = some .finallyClause ∧ Finalizes name (.statement f) t₂ e₂) := by
  cases h with
  | cut | thrown => exact Or.inl rfl
  | unguarded _ _ h | cutOff _ h =>
    exact Or.inr ⟨_, [], _, by rw [List.append_nil], h, Or.inl rfl⟩
  | guarded _ h _ hf hk h' => exact Or.inr ⟨_, _, _, rfl, h, Or.inr ⟨_, _, hf, hk, h'⟩⟩
  | simple hn' | leave hn' | bodied hn' =>
    rw [Node.isAny_eq_of_kind? hn] at hn'
    cases hn'
  | block hn' | choice hn' | noElse hn' | undecided hn' =>
    rw [hn] at hn'
    cases hn'

/-! ### Statements that exit -/

private theorem exists_last {ss : List Node} {s : Node} (hs : ss.getLast? = some s)
    (h : Finalizes name (.sequence ss) t .done) : ∃ t', Finalizes name (.statement s) t' .done := by
  induction ss generalizing t with
  | nil => cases hs
  | cons a ss ih =>
    cases h with
    | stop _ he => exact absurd rfl he
    | next ha hss =>
      cases ss with
      | nil =>
        cases hs
        exact ⟨_, ha⟩
      | cons b ss => exact ih (by rwa [List.getLast?_cons_cons] at hs) hss

theorem ne_done_of_exits {n : Node} {t : List Node} {e : Ending} (hx : n.exits = true)
    (h : Finalizes name (.statement n) t e) : e ≠ .done := by
  have hnext : ∀ n c : Node, n.lastStatement? = some c → c ∈ n.children := by
    intro n c hc
    unfold Node.lastStatement? at hc
    split at hc
    · exact Node.mem_children_of_lastNamed? hc
    · cases hc
  rw [Node.exits, Node.follow_eq hnext] at hx
  cases hl : n.lastStatement? with
  | some c =>
    -- a block comes to its end only if its last statement does
    have hsize := Node.sizeOf_of_mem_children (hnext n c hl)
    rw [hl] at hx
    unfold Node.lastStatement? at hl
    split at hl
    · next hb =>
      rcases of_block (Node.is_iff.1 hb) h with ⟨-, he⟩ | ⟨t', -, h⟩
      · exact he
      · rintro rfl
        obtain ⟨u, hu⟩ := exists_last hl h
        exact ne_done_of_exits hx hu rfl
    · cases hl
  | none =>
    rw [hl] at hx
    obtain ⟨k, hk, hnk⟩ := Node.isAny_iff.1 hx
    simp only [List.mem_cons, List.not_mem_nil, or_false] at hk
    cases h with
    | cut | thrown | leave | undecided | cutOff => simp
    | simple hn' | bodied hn' =>
      rw [Node.isAny_eq_of_kind? hnk] at hn'
      rcases hk with rfl | rfl <;> cases hn'
    | block hn' | choice hn' | noElse hn' | unguarded hn' | guarded hn' =>
      rw [hnk] at hn'
      cases hn'
      simp at hk
termination_by sizeOf n.here

/-! ### What lies outside of a child -/

/-- All of a trace other than `t'` lies outside of the child `k` of `n`. -/
def Outside (n k : Node) (t' t : List Node) : Prop :=
  ∀ x ∈ t, x ∈ t' ∨ x = n ∨ ∃ d ∈ n.children, d ≠ k ∧ x ∈ d.preorder

namespace Outside

variable {k d : Node} {t' u v : List Node}

theorem self : Outside n k t t := fun _ hx => Or.inl hx

theorem nil : Outside n k t' [] := nofun

theorem cons (h : Outside n k t' u) : Outside n k t' (n :: u) := by
  intro x hx
  rcases List.mem_cons.1 hx with rfl | hx
  · exact Or.inr (Or.inl rfl)
  · exact h x hx

theorem append (h : Outside n k t' u) (h' : Outside n k t' v) : Outside n k t' (u ++ v) := by
  intro x hx
  rcases List.mem_append.1 hx with hx | hx
  · exact h x hx
  · exact h' x hx

theorem of_child (hd : d ∈ n.children) (hdk : d ≠ k) (hu : ∀ x ∈ u, x ∈ d.preorder) : Outside n k t' u :=
  fun x hx => Or.inr (Or.inr ⟨d, hd, hdk, hu x hx⟩)

theorem of_run (hd : d ∈ n.children) (hdk : d ≠ k) (h : Finalizes name (.statement d) u e) : Outside n k t' u :=
  of_child hd hdk fun _ hx => h.reaches hx

end Outside

section

variable {k : Node}

private theorem exists_run_child {d : Node} (hd : d ∈ n.children) (h : Finalizes name (.statement d) t e) :
    ∃ t' e', Finalizes name (.statement k) t' e' ∧ Outside n k t' t := by
  by_cases hdk : d = k
  · subst hdk
    exact ⟨t, e, h, .self⟩
  · exact ⟨[], .cut, .cut _, .of_run hd hdk h⟩

/-- A statement with a body runs the body at most once, and else what stands in front of it. -/
theorem exists_run_bodied (hn : n.isAny Node.bodiedKinds = true) (hk : n.lastNamed? = some k)
    (h : Finalizes name (.statement n) t e) : ∃ t' e', Finalizes name (.statement k) t' e' ∧ Outside n k t' t := by
  rcases of_bodied hn h with rfl | ⟨s, u, t', e', hs, hu, rfl, hrun⟩
  · exact ⟨[], .cut, .cut _, .nil⟩
  · rw [hk] at hs
    cases hs
    have hfront : Outside n k t' u := fun x hx => Or.inr (Or.inr (hu x hx))
    exact ⟨t', e', hrun, (hfront.append .self).cons⟩

/-- An `if` runs either branch at most once, and else its condition and the other branch. -/
theorem exists_run_if {f : Field} (hn : n.kind? = some .ifStatement) (hk : n.field f = some k) (hf : f ≠ .condition)
    (h : Finalizes name (.statement n) t e) : ∃ t' e', Finalizes name (.statement k) t' e' ∧ Outside n k t' t := by
  rcases of_if hn h with ⟨rfl, -⟩ | ⟨c, u, hc, hu, hrest⟩
  · exact ⟨[], .cut, .cut _, .nil⟩
  have hcond : ∀ t', Outside n k t' u := fun t' =>
    .of_child (Node.mem_children_of_field hc) (Node.ne_of_field hc hk hf.symm) hu
  rcases hrest with ⟨rfl, -⟩ | ⟨b, s, v, -, hs, rfl, hrun⟩
  · exact ⟨[], .cut, .cut _, (hcond []).cons⟩
  · obtain ⟨t', e', hk', ho⟩ := exists_run_child (Node.mem_children_of_field hs) hrun
    exact ⟨t', e', hk', ((hcond t').append ho).cons⟩

/-- An `if` does not run the branch that its condition never chooses. -/
theorem outside_of_tells {c : Node} {g : Guard} (hn : n.kind? = some .ifStatement) (hc : n.field .condition = some c)
    (hg : c.Tells name g) (hk : n.field (if g.value then .alternative else .consequence) = some k)
    (h : Finalizes name (.statement n) t e) : Outside n k [] t := by
  rcases of_if hn h with ⟨rfl, -⟩ | ⟨c', u, hc', hu, hrest⟩
  · exact .nil
  rw [hc] at hc'
  cases hc'
  have hck : c ≠ k := Node.ne_of_field hc hk (by cases g <;> simp [Guard.value])
  have hcond : Outside n k [] u := .of_child (Node.mem_children_of_field hc) hck hu
  rcases hrest with ⟨rfl, -⟩ | ⟨b, s, t', hb, hs, rfl, hrun⟩
  · exact hcond.cons
  · cases hg b hb
    have hsk : s ≠ k := Node.ne_of_field hs hk (by cases g <;> simp [Guard.value])
    exact (hcond.append (.of_run (Node.mem_children_of_field hs) hsk hrun)).cons

theorem ne_done_of_tells {c s : Node} (hn : n.kind? = some .ifStatement) (hc : n.field .condition = some c)
    (hg : c.Tells name .notDisposing) (hs : n.field .consequence = some s) (hx : s.exits = true)
    (h : Finalizes name (.statement n) t e) : e ≠ .done := by
  rcases of_if hn h with ⟨-, he⟩ | ⟨c', u, hc', -, hrest⟩
  · exact he
  rw [hc] at hc'
  cases hc'
  rcases hrest with ⟨-, hb⟩ | ⟨b, s', t', hb, hs', -, hrun⟩
  · intro he
    cases hg _ (hb he)
  · cases hg b hb
    rw [Guard.value, if_pos rfl, hs] at hs'
    cases hs'
    exact ne_done_of_exits hx hrun

private theorem exists_run_attempt (h : Finalizes name (.attempt n) t e) :
    ∃ t' e', Finalizes name (.statement k) t' e' ∧ Outside n k t' t := by
  cases h with
  | cut | thrown => exact ⟨[], .cut, .cut _, .nil⟩
  | passed hb _ hrun => exact exists_run_child (Node.mem_children_of_named hb) hrun
  | @caught _ b c _ _ _ hb hbk hrun hc hck hrun' =>
    -- the block and the clause are different children
    have hbc : c ≠ b := by
      rintro rfl
      rw [hbk] at hck
      cases hck
    by_cases hb' : b = k
    · subst hb'
      exact ⟨_, _, hrun, .append .self (.of_run (Node.mem_children_of_named hc) hbc hrun')⟩
    · obtain ⟨t', e', hk, ho⟩ := exists_run_child (Node.mem_children_of_named hc) hrun'
      exact ⟨t', e', hk, .append (.of_run (Node.mem_children_of_named hb) hb' hrun) ho⟩

private theorem outside_attempt (hk : k.kind? = some .finallyClause) (h : Finalizes name (.attempt n) t e)
    (t' : List Node) : Outside n k t' t := by
  have hne : ∀ {d : Node} {l : Kind}, d.kind? = some l → l ≠ .finallyClause → d ≠ k := by
    rintro d l hd hl rfl
    rw [hk] at hd
    cases hd
    exact hl rfl
  cases h with
  | cut | thrown => exact .nil
  | passed hb hbk hrun => exact .of_run (Node.mem_children_of_named hb) (hne hbk (by decide)) hrun
  | caught hb hbk hrun hc hck hrun' =>
    exact .append (.of_run (Node.mem_children_of_named hb) (hne hbk (by decide)) hrun)
      (.of_run (Node.mem_children_of_named hc) (hne hck (by decide)) hrun')

/-- A `try` runs its block, each clause and its `finally` at most once. -/
theorem exists_run_try (hn : n.kind? = some .tryStatement) (h : Finalizes name (.statement n) t e) :
    ∃ t' e', Finalizes name (.statement k) t' e' ∧ Outside n k t' t := by
  rcases of_try hn h with rfl | ⟨t₁, t₂, e₁, rfl, htry, hlast⟩
  · exact ⟨[], .cut, .cut _, .nil⟩
  rcases hlast with rfl | ⟨f, e₂, hf, hfk, hrun⟩
  · obtain ⟨t', e', hk, ho⟩ := exists_run_attempt htry
    exact ⟨t', e', hk, (ho.append .nil).cons⟩
  · by_cases hfk' : f = k
    · subst hfk'
      exact ⟨t₂, e₂, hrun, ((outside_attempt hfk htry t₂).append .self).cons⟩
    · obtain ⟨t', e', hk, ho⟩ := exists_run_attempt htry
      exact ⟨t', e', hk, (ho.append (.of_run (Node.mem_children_of_named hf) hfk' hrun)).cons⟩

end

end Finalizes

end Disposal

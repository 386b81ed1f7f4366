import Disposal.Proofs.Declarations
import Disposal.Protocol.Before

/-!
# Sites of calls and writes

What a dispose call releases stands in the call, or in front of `?.` in the node around it; what a write writes stands
in the write.

* `Node.mem_preorder_of_disposeReceiver?`, `Node.mem_disposals_iff`: dispose calls;
* `Model.targetsWithin_induction`, `Model.exists_target_of_mem_writesAt`, `Model.mem_writes_localVar`: writes.
-/

namespace Disposal

namespace Node

/-! ### Nodes without calls and writes -/

/-- The nodes that a write can be, apart from declarations. -/
def writers : List Kind := [.assignmentExpression, .argument, .prefixUnaryExpression, .postfixUnaryExpression]

/-- The nodes that a call or a write can be. -/
def actions : List Kind := .invocationExpression :: writers

theorem isAny_actions {n : Node} :
    n.isAny actions = false ↔ n.is .invocationExpression = false ∧ n.isAny writers = false := by
  rw [show actions = [.invocationExpression] ++ writers from rfl, isAny_append, isAny_singleton, Bool.or_eq_false_iff]

/-- No call and no write is the node or lies below it. -/
def IsQuiet (n : Node) : Prop := ∀ m ∈ n.preorder, m.isAny actions = false

theorem IsQuiet.of_children {n : Node} (h : n.isAny actions = false) (hc : ∀ c ∈ n.children, c.IsQuiet) :
    n.IsQuiet := by
  intro m hm
  rcases mem_preorder_iff.1 hm with rfl | ⟨c, hcn, hmc⟩
  · exact h
  · exact hc c hcn m hmc

theorem IsQuiet.of_token {n : Node} (htoken : n.isNamed = false) (hnone : n.children = []) : n.IsQuiet := by
  refine .of_children ?_ (by simp [hnone])
  rw [Bool.eq_false_iff]
  intro hany
  obtain ⟨k, -, hk⟩ := isAny_iff.1 hany
  have hlabel : n.label = .kind k := LawfulBEq.eq_of_beq (is_iff.2 hk)
  rw [isNamed, hlabel] at htoken
  cases htoken

/-! ### Dispose calls -/

/-- Above a node other than the topmost one there is another one. -/
private theorem mem_preorder_of_parent? {n x q : Node} (hx : x ∈ n.preorder) (hne : x ≠ n) (hq : x.parent? = some q) :
    q ∈ n.preorder := by
  refine preorder_induction (motive := fun n => x ≠ n → q ∈ n.preorder) (fun hne => absurd rfl hne) ?_ n hx hne
  intro n c hc _ ih _
  by_cases hxc : x = c
  · subst hxc
    rw [parent?_of_mem_children hc] at hq
    cases hq
    exact mem_preorder_self _
  · exact mem_preorder_of_child hc (ih hxc)

/-- What a call is called on lies in the call, or in front of `?.` in the node around it. -/
private theorem mem_preorder_of_invoked? {call name receiver : Node} (h : call.invoked? = some (name, some receiver)) :
    receiver ∈ call.preorder ∨
      ∃ parent, call.parent? = some parent ∧ parent.is .conditionalAccessExpression = true ∧
        receiver ∈ parent.children := by
  unfold invoked? at h
  obtain ⟨function, hf, h⟩ := Option.bind_eq_some_iff.1 h
  have hfun : function.stripParens ∈ call.preorder :=
    mem_preorder_of_child (mem_children_of_orElse (fun _ hd => mem_children_of_firstNamed? hd) hf)
      (stripParens_mem_preorder function)
  dsimp only at h
  split at h
  · obtain ⟨n, -, h⟩ := Option.bind_eq_some_iff.1 h
    cases h
  · obtain ⟨n, -, h⟩ := Option.bind_eq_some_iff.1 h
    cases h
  · obtain ⟨n, -, h⟩ := Option.bind_eq_some_iff.1 h
    simp only [Option.pure_def, Option.some.injEq, Prod.mk.injEq] at h
    have hmem := mem_children_of_orElse (fun _ hd => mem_children_of_firstNamed? hd) h.2
    exact .inl (mem_preorder_trans hfun (mem_preorder_of_mem_children hmem))
  · obtain ⟨n, -, h⟩ := Option.bind_eq_some_iff.1 h
    simp only [Option.pure_def, Option.some.injEq, Prod.mk.injEq] at h
    unfold conditionalReceiver? at h
    obtain ⟨parent, hparent, h⟩ := Option.bind_eq_some_iff.1 h.2
    split at h
    · next hk =>
      obtain ⟨first, hfirst, h⟩ := Option.bind_eq_some_iff.1 h
      split at h
      · cases h
      · cases h
        exact .inr ⟨parent, hparent, hk, mem_children_of_firstNamed? hfirst⟩
    · cases h
  · obtain ⟨last, -, h⟩ := Option.bind_eq_some_iff.1 h
    obtain ⟨n, -, h⟩ := Option.bind_eq_some_iff.1 h
    simp only [Option.pure_def, Option.some.injEq, Prod.mk.injEq] at h
    exact .inl (mem_preorder_trans hfun (mem_preorder_of_mem_children (mem_children_of_firstNamed? h.2)))
  · cases h

theorem disposeReceiver?_eq_some {call receiver : Node} (h : call.disposeReceiver? = some receiver) :
    call.kind? = some .invocationExpression ∧ ∃ name, call.invoked? = some (name, some receiver) := by
  unfold disposeReceiver? at h
  split at h
  · next hk =>
    obtain ⟨⟨name, receiver?⟩, hi, h⟩ := Option.bind_eq_some_iff.1 h
    dsimp only at h
    split at h
    · obtain ⟨hr, -⟩ := Option.filter_eq_some_iff.1 h
      rw [hr] at hi
      exact ⟨is_iff.1 hk, name, hi⟩
    · cases h
  · cases h

/-- What a dispose call releases stands in the same part of a node that is not an access itself. -/
theorem mem_preorder_of_disposeReceiver? {n p call receiver : Node} (hn : n.is .conditionalAccessExpression = false)
    (hp : p ∈ n.children) (hcall : call ∈ p.preorder) (h : call.disposeReceiver? = some receiver) :
    receiver ∈ p.preorder := by
  obtain ⟨-, name, hi⟩ := disposeReceiver?_eq_some h
  rcases mem_preorder_of_invoked? hi with hmem | ⟨parent, hparent, hk, hmem⟩
  · exact mem_preorder_trans hcall hmem
  · by_cases hne : call = p
    · subst hne
      rw [parent?_of_mem_children hp] at hparent
      cases hparent
      rw [hn] at hk
      cases hk
    · exact mem_preorder_trans (mem_preorder_of_parent? hcall hne hparent) (mem_preorder_of_mem_children hmem)

theorem isLambda_eq_false {n : Node} {k : Kind} (hn : n.kind? = some k) (hk : k ∉ lambdas) : n.isLambda = false := by
  rw [isLambda, isAny_eq_of_kind? hn]
  simpa using hk

theorem mem_disposals_iff {region : Node} {e : Node × Node} :
    e ∈ region.disposals ↔ e.1 ∈ region.ofRegion ∧ ∃ r, e.1.disposeReceiver? = some r ∧ r.stripConversions = e.2 := by
  obtain ⟨call, released⟩ := e
  simp only [disposals, List.mem_filterMap, Option.map_eq_some_iff, Prod.mk.injEq]
  constructor
  · rintro ⟨n, hn, r, hr, rfl, rfl⟩
    exact ⟨hn, r, hr, rfl⟩
  · rintro ⟨hn, r, hr, rfl⟩
    exact ⟨call, hn, r, hr, rfl, rfl⟩

end Node

/-! ### Writes -/

/-- A write writes to a node: to one of those that an assignment assigns to, or to the operand. -/
inductive Write.Targets (w : Write) (t : Node) : Prop
  | assigned {a : Node.Assignment} (ha : w.node.assignment? = some a)
      (ht : (t, w.value?) ∈ Model.targets a.left (if w.kind = .assign then some a.right else none))
  | passed {e : Node} (hn : w.node.kind? = some .argument) (he : w.node.argumentExpression? = some e)
      (ht : e.stripParens = t)
  | stepped {e : Node} (hn : w.node.isAny [.prefixUnaryExpression, .postfixUnaryExpression] = true)
      (he : w.node.firstNamed? = some e) (ht : e.stripParens = t)

namespace Model

variable {m : Model} {s : Symbol} {name : String}

/-- A node that is assigned to is found from the left side by taking off parentheses and going into tuples. -/
theorem targetsWithin_induction {motive : Node → Prop} {t : Node} {v? : Option Node}
    (strip : ∀ target, target.stripParens = t → motive target)
    (element : ∀ target e, target.stripParens.is .tupleExpression = true → e ∈ tupleElements target.stripParens →
      motive e → motive target)
    {fuel : Nat} {target : Node} {value? : Option Node} (h : (t, v?) ∈ targetsWithin fuel target value?) :
    motive target := by
  induction fuel generalizing target value? with
  | zero =>
    simp only [targetsWithin, List.mem_singleton, Prod.mk.injEq] at h
    exact strip target h.1.symm
  | succ fuel ih =>
    unfold targetsWithin at h
    dsimp only at h
    split at h
    · next hk =>
      obtain ⟨⟨e, i⟩, he, h⟩ := List.mem_flatMap.1 h
      exact element target e hk (List.fst_mem_of_mem_zipIdx he) (ih h)
    · simp only [List.mem_singleton, Prod.mk.injEq] at h
      exact strip target h.1.symm

section

variable {fuel : Nat} {target t : Node} {value? v? : Option Node} (h : (t, v?) ∈ targetsWithin fuel target value?)

include h

private theorem mem_preorder_of_mem_targetsWithin : t ∈ target.preorder := by
  refine targetsWithin_induction (motive := fun target => t ∈ target.preorder) ?_ ?_ h
  · rintro target rfl
    exact Node.stripParens_mem_preorder target
  · intro target e _ he ih
    obtain ⟨a, ha, he⟩ := List.mem_filterMap.1 he
    have hea := Node.mem_preorder_trans (Node.mem_preorder_of_argumentExpression? he) ih
    exact Node.mem_preorder_trans (Node.stripParens_mem_preorder target)
      (Node.mem_preorder_of_child (Node.mem_children_of_named ha) hea)

private theorem stripParens_of_mem_targetsWithin : t.stripParens = t := by
  refine targetsWithin_induction (motive := fun _ => t.stripParens = t) ?_ (fun _ _ _ _ ih => ih) h
  rintro target rfl
  exact Node.stripParens_stripParens target

end

private theorem refersTo_stripParens (n : Node) : m.refersTo n.stripParens s name = m.refersTo n s name := by
  rw [refersTo, refersTo, Node.stripParens_stripParens]

/-- A write writes to something that refers to the symbol. -/
theorem exists_target_of_mem_writesAt {n : Node} {w : Write} (h : w ∈ m.writesAt s name n) :
    w.node = n ∧ ∃ t, w.Targets t ∧ m.refersTo t s name = true := by
  unfold writesAt at h
  split at h
  · next hk =>
    split at h
    · cases h
    · next a ha =>
      obtain ⟨⟨t, v?⟩, ht, rfl⟩ := List.mem_map.1 h
      obtain ⟨ht, hrefers⟩ := List.mem_filter.1 ht
      exact ⟨rfl, t, .assigned ha ht, hrefers⟩
  · next hk =>
    dsimp only at h
    split at h
    · split at h
      · next harg =>
        obtain ⟨e, he, hrefers⟩ := (Option.any_eq_true _ _).1 harg
        rw [List.mem_singleton.1 h]
        exact ⟨rfl, e.stripParens, .passed hk he rfl, (refersTo_stripParens e).trans hrefers⟩
      · cases h
    · cases h
  case h_3 hk | h_4 hk =>
    split at h
    · next hop =>
      rw [Bool.and_eq_true] at hop
      obtain ⟨e, he, hrefers⟩ := (Option.any_eq_true _ _).1 hop.2
      rw [List.mem_singleton.1 h]
      exact ⟨rfl, e.stripParens, .stepped (Node.isAny_iff.2 ⟨_, by decide, hk⟩) he rfl,
        (refersTo_stripParens e).trans hrefers⟩
    · cases h
  · cases h

end Model

namespace Write.Targets

variable {w : Write} {t : Node}

private theorem isAny_writers (h : w.Targets t) : w.node.isAny Node.writers = true := by
  cases h with
  | assigned ha => exact Node.isAny_iff.2 ⟨_, by decide, (Node.kind_of_assignment? ha).1⟩
  | passed hn => exact Node.isAny_iff.2 ⟨_, by decide, hn⟩
  | stepped hn =>
    rw [show Node.writers = [.assignmentExpression, .argument] ++ [.prefixUnaryExpression, .postfixUnaryExpression]
      from rfl, Node.isAny_append, hn, Bool.or_true]

/-- What a write writes to is not in parentheses itself. -/
theorem stripParens_eq (h : w.Targets t) : t.stripParens = t := by
  cases h with
  | assigned ha ht => exact Model.stripParens_of_mem_targetsWithin ht
  | passed _ _ ht | stepped _ _ ht =>
    subst ht
    exact Node.stripParens_stripParens _

/-- What a write writes to lies in it. -/
theorem mem_preorder (h : w.Targets t) : t ∈ w.node.preorder := by
  cases h with
  | assigned ha ht =>
    exact Node.mem_preorder_of_child (Node.kind_of_assignment? ha).2.1 (Model.mem_preorder_of_mem_targetsWithin ht)
  | passed _ he ht =>
    subst ht
    exact Node.mem_preorder_trans (Node.mem_preorder_of_argumentExpression? he) (Node.stripParens_mem_preorder _)
  | stepped _ he ht =>
    subst ht
    exact Node.mem_preorder_of_child (Node.mem_children_of_firstNamed? he) (Node.stripParens_mem_preorder _)

end Write.Targets

namespace Model

variable {m : Model} {s : Symbol} {name : String}

/-- A write of a local is its declaration, or a node of the scope in which the local is mentioned. -/
theorem mem_writes_localVar {d region : Node} {w : Write} (hname : (Symbol.localVar d).name? = some name)
    (h : w ∈ m.writes (.localVar d) (.node region)) :
    w.node = d ∨ (w.node ∈ region.preorder ∧ w.node.isAny Node.writers = true ∧
      ∃ t ∈ w.node.preorder, m.refersTo t (.localVar d) name = true) := by
  unfold writes at h
  rcases List.mem_append.1 h with h | h
  · left
    simp only [declaredValue?] at h
    split at h
    · obtain ⟨v, -, rfl⟩ := Option.map_eq_some_iff.1 (Option.mem_toList.1 h)
      rfl
    · cases h
  · right
    rw [hname] at h
    obtain ⟨n, hn, h⟩ := List.mem_flatMap.1 h
    obtain ⟨rfl, t, ht, hrefers⟩ := exists_target_of_mem_writesAt h
    refine ⟨?_, ht.isAny_writers, t, ht.mem_preorder, hrefers⟩
    simpa [Scope.nodes, Scope.roots] using hn

end Model

end Disposal

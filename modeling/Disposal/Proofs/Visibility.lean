import Disposal.Proofs.Forks
import Disposal.Proofs.Loops

/-!
# Where a local is visible

A name stands for a local only inside a node that holds the declaration of the local: a block or statement, whose
variables are declared no more than three steps below it, or the declaration itself. So a variable that a statement of a
block declares is named in that block only.

* `Compilation.holds_of_inScope?`, `Compilation.exists_holds_of_declaredAt?`: one lemma for each way of looking up;
* `Compilation.exists_holds_of_symbol?`: whatever stands for a local lies in such a node;
* `Compilation.mem_preorder_of_isAnswer`: the variables of a block.
-/

namespace Disposal.Compilation

/-- The nodes that hold the declaration of a local. -/
def holders : List Kind :=
  [.block, .switchSection, .usingStatement, .fixedStatement, .forStatement, .forEachStatement, .foreachStatement,
   .catchClause, .catchDeclaration, .variableDeclarator, .declarationExpression, .declarationPattern]

/-- A node holds the declaration of a local, if a variable then no more than three steps below. -/
structure HoldsLocal (scope v : Node) : Prop where
  kind : scope.isAny holders = true
  mem : v ∈ scope.preorder
  near : v.kind? = some .variableDeclarator → v.id.path.length ≤ scope.id.path.length + 3

theorem length_path_of_mem_children {n c : Node} (h : c ∈ n.children) : c.id.path.length = n.id.path.length + 1 := by
  obtain ⟨i, hi⟩ := Node.path_of_mem_children h
  rw [hi, List.length_cons]

variable {c : Compilation} {v : Node}

/-- The variables of a list that a node holds. -/
theorem HoldsLocal.of_variableNamed? {scope list : Node} {name : String} (hk : scope.isAny holders = true)
    (hlist : list ∈ scope.preorder) (hlen : list.id.path.length ≤ scope.id.path.length + 2)
    (hv : list.variableNamed? name = some v) : HoldsLocal scope v := by
  have hmem := Node.mem_children_of_namedOf (List.mem_of_find?_eq_some hv)
  have := length_path_of_mem_children hmem
  exact ⟨hk, Node.mem_preorder_trans hlist (Node.mem_preorder_of_mem_children hmem), fun _ => by omega⟩

theorem HoldsLocal.of_localOfStatement? {scope statement use : Node} {name : String} (hk : scope.isAny holders = true)
    (hs : statement ∈ scope.children) (hv : statement.localOfStatement? use name = some v) : HoldsLocal scope v := by
  have hlen := length_path_of_mem_children hs
  unfold Node.localOfStatement? at hv
  split at hv
  · rw [Option.orElse_eq_orElse, Option.orElse_eq_or, Option.or_eq_some_iff] at hv
    rcases hv with hv | ⟨-, hv⟩
    · obtain ⟨hwalk, hdeclares⟩ := List.mem_filter.1 (List.mem_of_getLast? hv)
      refine ⟨hk, Node.mem_preorder_of_child hs (Node.mem_preorder_of_mem_walk hwalk), ?_⟩
      -- a pattern is not a variable
      intro hvk
      simp only [Bool.and_eq_true, Node.isAny_eq_of_kind? hvk] at hdeclares
      cases hdeclares.2.1
    · split at hv
      · next hstatement =>
        obtain ⟨list, hlist, hv⟩ := Option.bind_eq_some_iff.1 hv
        rw [Node.variableDeclaration?, Node.is_eq_of_kind? (Node.is_iff.1 hstatement)] at hlist
        have hmem := Node.mem_children_of_childOf? hlist
        have := length_path_of_mem_children hmem
        have hbelow := Node.mem_preorder_of_child hs (Node.mem_preorder_of_mem_children hmem)
        exact .of_variableNamed? hk hbelow (by omega) hv
      · cases hv
  · cases hv

/-- A local that is found in a node around its use is declared in that node. -/
theorem holds_of_inScope? {use scope : Node} {name : String} {arity? : Option Nat}
    (h : c.inScope? use name arity? scope = some (.localVar v)) : HoldsLocal scope v := by
  have hkind : ∀ {k : Kind}, k ∈ holders → scope.kind? = some k → scope.isAny holders = true :=
    fun hk hscope => Node.isAny_iff.2 ⟨_, hk, hscope⟩
  unfold inScope? at h
  split at h
  case h_1 hk | h_2 hk =>
    unfold Node.inBlock? at h
    split at h
    · cases h
    · obtain ⟨d, hd, h⟩ := Option.map_eq_some_iff.1 h
      cases h
      obtain ⟨statement, hs, hd⟩ := List.mem_filterMap.1 (List.mem_of_getLast? hd)
      exact .of_localOfStatement? (hkind (by decide) hk) (Node.mem_children_of_named hs) hd
  case h_3 hk | h_4 hk | h_5 hk =>
    obtain ⟨d, hd, h⟩ := Option.map_eq_some_iff.1 h
    cases h
    obtain ⟨list, hlist, hd⟩ := Option.bind_eq_some_iff.1 hd
    have hmem := Node.mem_children_of_childOf? hlist
    have := length_path_of_mem_children hmem
    exact .of_variableNamed? (hkind (by decide) hk) (Node.mem_preorder_of_mem_children hmem) (by omega) hd
  case h_6 hk | h_7 hk =>
    obtain ⟨d, hd, h⟩ := Option.map_eq_some_iff.1 h
    cases h
    have hmem := Node.mem_children_of_foreachVariable? (Option.filter_eq_some_iff.1 hd).1
    have := length_path_of_mem_children hmem
    exact ⟨hkind (by decide) hk, Node.mem_preorder_of_mem_children hmem, fun _ => by omega⟩
  case h_8 hk =>
    obtain ⟨d, hd, h⟩ := Option.map_eq_some_iff.1 h
    cases h
    obtain ⟨clause, hclause, hd⟩ := Option.bind_eq_some_iff.1 (Option.filter_eq_some_iff.1 hd).1
    have hmem := Node.mem_children_of_childOf? hclause
    have hmem' := mem_children_of_catchVariable? hd
    have h₁ := length_path_of_mem_children hmem
    have h₂ := length_path_of_mem_children hmem'
    exact ⟨hkind (by decide) hk, Node.mem_preorder_of_child hmem (Node.mem_preorder_of_mem_children hmem'),
      fun _ => by omega⟩
  case h_18 =>
    split at h
    · obtain ⟨owner, -, h⟩ := Option.map_eq_some_iff.1 h
      cases h
    · cases h
  case h_19 =>
    split at h
    · rw [Option.orElse_eq_orElse, Option.orElse_eq_or, Option.or_eq_some_iff] at h
      rcases h with h | ⟨-, h⟩
      · obtain ⟨p, -, h⟩ := Option.map_eq_some_iff.1 h
        cases h
      · obtain ⟨t, -, h⟩ := Option.bind_eq_some_iff.1 h
        exact absurd h (lookupMember?_ne_localVar v)
    · cases h
  all_goals
    obtain ⟨p, -, h⟩ := Option.map_eq_some_iff.1 h
    cases h

private theorem exists_holds_of_lookupName {use : Node} {name : String} {arity? : Option Nat}
    (h : c.lookupName use name arity? = .localVar v) : ∃ scope ∈ use.ancestors, HoldsLocal scope v := by
  unfold lookupName at h
  split at h
  · next s hs =>
    subst h
    obtain ⟨scope, hscope, hs⟩ := List.exists_of_findSome?_eq_some hs
    exact ⟨scope, hscope, holds_of_inScope? hs⟩
  · split at h
    · cases h
    · split at h <;> cases h

/-- The name in the declaration of a local stands in that declaration. -/
theorem exists_holds_of_declaredAt? {identifier : Node} (hplace : c.HasPlace identifier)
    (h : c.declaredAt? identifier = some (.localVar v)) : ∃ scope ∈ identifier.ancestors, HoldsLocal scope v := by
  unfold declaredAt? at h
  obtain ⟨owner, howner, h⟩ := Option.bind_eq_some_iff.1 h
  have hup : owner ∈ identifier.ancestors := by
    rw [Node.ancestors_of_parent? howner]
    exact List.mem_cons_self
  have hmem := (hplace.of_parent? howner).2
  have hkind : ∀ {k : Kind}, k ∈ holders → owner.kind? = some k → owner.isAny holders = true :=
    fun hk hscope => Node.isAny_iff.2 ⟨_, hk, hscope⟩
  dsimp only at h
  split at h
  case h_1 hk =>
    split at h
    · unfold Node.variableSymbol at h
      split at h
      · cases h
      · cases h
        exact ⟨_, hup, hkind (by decide) hk, Node.mem_preorder_self _, fun _ => Nat.le_add_right _ _⟩
    · cases h
  case h_6 hk | h_7 hk =>
    split at h
    · cases h
      exact ⟨_, hup, hkind (by decide) hk, Node.mem_preorder_self _, fun _ => Nat.le_add_right _ _⟩
    · cases h
  case h_8 hk | h_9 hk | h_10 hk =>
    split at h
    · cases h
      have := length_path_of_mem_children hmem
      exact ⟨owner, hup, hkind (by decide) hk, Node.mem_preorder_of_mem_children hmem, fun _ => by omega⟩
    · cases h
  case h_11 =>
    split at h
    · obtain ⟨t, -, h⟩ := Option.map_eq_some_iff.1 h
      cases h
    · cases h
  all_goals
    split at h
    · cases h
    · cases h

/-! ### Expressions -/

/-- What lies around a part of an expression lies around the expression. -/
private theorem exists_holds_of_child {e n : Node} (hn : n ∈ e.children) (hk : e.isAny holders = false)
    (h : ∃ scope ∈ n.ancestors, HoldsLocal scope v) : ∃ scope ∈ e.ancestors, HoldsLocal scope v := by
  obtain ⟨scope, hscope, hholds⟩ := h
  rw [Node.ancestors_of_mem_children hn] at hscope
  rcases List.mem_cons.1 hscope with rfl | hscope
  · have := hholds.kind
    rw [hk] at this
    cases this
  · exact ⟨scope, hscope, hholds⟩

private theorem isAny_holders_of_insideParens? {e n : Node} (h : e.insideParens? = some n) :
    e.isAny holders = false := by
  unfold Node.insideParens? at h
  split at h
  · next hk =>
    rw [Node.isAny_eq_of_kind? (Node.is_iff.1 hk)]
    rfl
  · cases h

private theorem isAny_holders_of_towardsName? {e n : Node} (h : e.towardsName? = some n) : e.isAny holders = false := by
  unfold Node.towardsName? at h
  split at h
  case h_6 => cases h
  all_goals
    next hk =>
    rw [Node.isAny_eq_of_kind? hk]
    rfl

private theorem exists_holds_of_symbolStep {r : Resolver}
    (hr : ∀ e, c.HasPlace e → r.symbol? e = some (.localVar v) → ∃ scope ∈ e.ancestors, HoldsLocal scope v) {e : Node}
    (hplace : c.HasPlace e) (h : Resolver.symbolStep c r e = some (.localVar v)) :
    ∃ scope ∈ e.ancestors, HoldsLocal scope v := by
  have hplace := hplace.of_stripParens
  refine Node.follow_induction Node.mem_children_of_insideParens?
    (motive := fun e => ∃ scope ∈ e.ancestors, HoldsLocal scope v) (fun e n hn => exists_holds_of_child
      (Node.mem_children_of_insideParens? e n hn) (isAny_holders_of_insideParens? hn)) ?_
  change ∃ scope ∈ e.stripParens.ancestors, HoldsLocal scope v
  unfold Resolver.symbolStep at h
  dsimp only at h
  generalize e.stripParens = n at h hplace
  split at h
  case h_1 | h_2 =>
    obtain ⟨simple, hsimple, h⟩ := Option.bind_eq_some_iff.1 h
    split at h
    · next access ha =>
      obtain ⟨scope, hscope, hholds⟩ := hr access (hplace.of_namedAccess? ha) h
      refine ⟨scope, ?_, hholds⟩
      rw [Node.ancestors_of_parent? (parent?_of_namedAccess? ha)]
      exact List.mem_cons_of_mem _ hscope
    · rw [Option.orElse_eq_orElse, Option.orElse_eq_or, Option.or_eq_some_iff] at h
      rcases h with h | ⟨-, h⟩
      · have hdeclared := exists_holds_of_declaredAt? (hplace.of_simpleName? hsimple) h
        refine Node.follow_induction Node.mem_children_of_towardsName?
          (motive := fun e => ∃ scope ∈ e.ancestors, HoldsLocal scope v) (fun e n hn => exists_holds_of_child
            (Node.mem_children_of_towardsName? e n hn) (isAny_holders_of_towardsName? hn)) ?_
        rw [Node.follow_of_simpleName? hsimple]
        exact hdeclared
      · exact exists_holds_of_lookupName (Option.some.inj h)
  case h_3 | h_4 =>
    obtain ⟨receiver, -, h⟩ := Option.bind_eq_some_iff.1 h
    obtain ⟨member, -, h⟩ := Option.bind_eq_some_iff.1 h
    exact absurd h (memberOn?_ne_localVar v)
  case h_5 hk =>
    obtain ⟨last, hl, h⟩ := Option.bind_eq_some_iff.1 h
    refine exists_holds_of_child (Node.mem_children_of_lastNamed? hl) ?_ (hr last (hplace.of_lastNamed? hl) h)
    rw [Node.isAny_eq_of_kind? hk]
    rfl
  case h_6 hk =>
    obtain ⟨function, hf, h⟩ := Option.bind_eq_some_iff.1 h
    have hmem := Node.mem_children_of_orElse (fun _ hd => Node.mem_children_of_firstNamed? hd) hf
    refine exists_holds_of_child hmem ?_ (hr function (.child hplace hmem) h)
    rw [Node.isAny_eq_of_kind? hk]
    rfl
  case h_7 => cases h

private theorem exists_holds_of_within {framework : Node → Option Framework.Call} {steps : Nat} {e : Node}
    (hplace : c.HasPlace e) (h : (Resolver.within c framework steps).symbol? e = some (.localVar v)) :
    ∃ scope ∈ e.ancestors, HoldsLocal scope v := by
  induction steps generalizing e with
  | zero => cases h
  | succ steps ih => exact exists_holds_of_symbolStep (fun _ => ih) hplace h

/-- What stands for a local lies in a node that holds its declaration. -/
theorem exists_holds_of_symbol? {e : Node} (hplace : c.HasPlace e) (h : c.model.symbol? e = some (.localVar v)) :
    ∃ scope ∈ e.ancestors, HoldsLocal scope v :=
  exists_holds_of_within hplace h

/-- A variable that is declared three steps below a node is named below that node only. -/
theorem mem_preorder_of_isAnswer {block d e : Node} (hd : c.HasPlace d) (hk : d.kind? = some .variableDeclarator)
    (hblock : d ∈ block.preorder) (hdeep : block.id.path.length + 3 ≤ d.id.path.length) (he : c.HasPlace e)
    (h : (Symbol.localVar d).isAnswer (c.model.symbol? e) = true) : e ∈ block.preorder := by
  unfold Symbol.isAnswer at h
  split at h
  · next s hs =>
    cases s with
    | localVar v =>
      obtain ⟨scope, hscope, hholds⟩ := exists_holds_of_symbol? he hs
      have hv : v = d :=
        ((he.of_mem_ancestors hscope).of_mem_preorder hholds.mem).eq_of_id hd (Node.beq_iff.1 h)
      subst hv
      have hnear := hholds.near hk
      obtain ⟨root, hroot, hmem⟩ := List.mem_flatMap.1 hd.mem_places
      obtain ⟨⟨doc, i⟩, -, rfl⟩ := List.mem_map.1 hroot
      have hbelow : scope ∈ block.preorder := by
        rcases Node.mem_preorder_or (Node.mem_root_of_mem_preorder rfl hmem hholds.mem)
          (Node.mem_root_of_mem_preorder rfl hmem hblock) hholds.mem hblock with hmem | hmem
        · exact hmem
        · rcases Node.mem_preorder_iff.1 hmem with rfl | ⟨child, hchild, hbc⟩
          · exact Node.mem_preorder_self _
          · have := Node.length_path_lt hchild hbc
            omega
      exact Node.mem_preorder_trans hbelow (Node.mem_preorder_of_mem_ancestors he hscope)
    | _ => cases h
  · cases h

end Disposal.Compilation

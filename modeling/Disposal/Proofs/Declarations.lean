import Disposal.Proofs.Places
import Disposal.Write

/-!
# Where symbols are declared

What an expression of a compilation stands for is declared in that compilation, as far as it is declared by a node at
all. The same holds for the values that are written to a symbol and for what a declaration returns.

* `Compilation.IsRead.isIn_lookupName`, `Compilation.IsRead.isIn_lookupMember?`: looking up names and members;
* `Compilation.IsRead.isIn_symbol?`: what an expression stands for;
* `Model.hasPlace_of_mem_writes`: where a symbol is written.
-/

namespace Disposal

/-- A symbol is declared at a place of the compilation, if it is declared at a node. -/
def Symbol.IsIn (c : Compilation) (s : Symbol) : Prop := ∀ n, s.node? = some n → c.HasPlace n

theorem Symbol.isIn_of_eq {c : Compilation} {s : Symbol} {n : Node} (hs : s.node? = some n) (h : c.HasPlace n) :
    s.IsIn c := by
  intro m hm
  rw [hs] at hm
  cases hm
  exact h

private theorem Symbol.isIn_of_node?_eq_none {c : Compilation} {s : Symbol} (hs : s.node? = none) : s.IsIn c := by
  intro m hm
  rw [hs] at hm
  cases hm

/-- Equal symbols that are declared at nodes of the compilation are one symbol. -/
theorem Symbol.eq_of_beq_of_isSome {c : Compilation} {s t : Symbol} (hsome : s.node?.isSome = true) (hs : s.IsIn c)
    (ht : t.IsIn c) (h : (s == t) = true) : s = t := by
  cases s <;> cases t <;> first
    | exact congrArg _ ((hs _ rfl).eq_of_id (ht _ rfl) (Node.beq_iff.1 h))
    | exact absurd h Bool.false_ne_true
    | exact absurd hsome Bool.false_ne_true

/-! ### Parts of nodes -/

namespace Node

theorem blockBody?_eq_some {n x : Node} (h : n.blockBody? = some x) : x ∈ n.children ∧ x.is .block = true := by
  unfold blockBody? at h
  rw [Option.orElse_eq_orElse, Option.orElse_eq_or, Option.or_eq_some_iff] at h
  rcases h with h | ⟨-, h⟩
  · obtain ⟨h, hk⟩ := Option.filter_eq_some_iff.1 h
    exact ⟨mem_children_of_field h, hk⟩
  · refine ⟨mem_children_of_childOf? h, ?_⟩
    rw [← isAny_singleton]
    exact List.find?_some (p := fun k : Node => k.isAny [.block]) h

theorem mem_preorder_of_arrowBody? {n x : Node} (h : n.arrowBody? = some x) : x ∈ n.preorder := by
  unfold arrowBody? at h
  split at h
  · exact mem_preorder_of_mem_children (mem_children_of_lastNamed? (Option.filter_eq_some_iff.1 h).1)
  · obtain ⟨clause, hclause, h⟩ := Option.bind_eq_some_iff.1 h
    exact mem_preorder_of_child (mem_children_of_childOf? hclause)
      (mem_preorder_of_mem_children (mem_children_of_firstNamed? h))

/-- The name of a declaration is a child of it or the last name of one. -/
theorem nameOf?_eq_some {n x : Node} (h : n.nameOf? = some x) :
    ∃ k ∈ n.children, k = x ∨ k.simpleName? = some x := by
  unfold nameOf? at h
  split at h
  · next name hname =>
    refine ⟨name, mem_children_of_field hname, ?_⟩
    rw [Option.orElse_eq_orElse, Option.orElse_eq_or, Option.or_eq_some_iff] at h
    rcases h with h | ⟨-, h⟩
    · exact .inr h
    · exact .inl (Option.some.inj h)
  · refine ⟨x, ?_, .inl rfl⟩
    split at h
    · exact mem_children_of_firstNamed? (Option.filter_eq_some_iff.1 h).1
    · exact mem_children_of_named (List.mem_reverse.1 (List.mem_of_find?_eq_some h))
    · split at h
      · have hmem := List.mem_reverse.1 (List.mem_of_find?_eq_some h)
        exact mem_children_of_named ((List.takeWhile_sublist _).subset hmem)
      · cases h

theorem mem_preorder_of_nameOf? {n x : Node} (h : n.nameOf? = some x) : x ∈ n.preorder := by
  obtain ⟨k, hk, rfl | hx⟩ := nameOf?_eq_some h
  · exact mem_preorder_of_mem_children hk
  · exact mem_preorder_of_child hk (simpleName?_eq_some hx).1

theorem mem_preorder_of_arguments {n x : Node} (h : x ∈ n.arguments) : x ∈ n.preorder := by
  unfold arguments at h
  split at h
  · next list hlist =>
    have hmem := mem_children_of_orElse (fun _ hd => mem_children_of_childOf? hd) hlist
    exact mem_preorder_of_child hmem (mem_preorder_of_mem_children (mem_children_of_namedOf h))
  · cases h

theorem mem_preorder_of_argumentExpression? {n x : Node} (h : n.argumentExpression? = some x) : x ∈ n.preorder := by
  unfold argumentExpression? at h
  split at h
  · exact mem_preorder_of_mem_children (mem_children_of_lastNamed? h)
  · cases h
    exact mem_preorder_self n

/-- The variable of a loop is an identifier right below it. -/
theorem foreachVariable?_eq_some {n x : Node} (h : n.foreachVariable? = some x) :
    x ∈ n.children ∧ x.is .identifier = true := by
  unfold foreachVariable? at h
  split at h
  · next left hl =>
    split at h
    · next hk =>
      cases h
      exact ⟨mem_children_of_field hl, hk⟩
    · cases h
  · split at h
    · obtain ⟨h, hk⟩ := Option.filter_eq_some_iff.1 h
      have hmem := List.mem_reverse.1 (List.mem_of_find?_eq_some h)
      exact ⟨(List.takeWhile_sublist _).subset hmem, hk⟩
    · cases h

theorem mem_children_of_catchVariable? {n x : Node} (h : n.catchVariable? = some x) : x ∈ n.children := by
  unfold catchVariable? at h
  split at h
  · next name hname =>
    cases h
    exact mem_children_of_field hname
  · split at h
    · next hl =>
      cases h
      exact mem_children_of_named (by rw [hl]; simp)
    · cases h

end Node

namespace Compilation

/-- The types of a compilation are declared in it. -/
def IsRead (c : Compilation) : Prop := ∀ t ∈ c.types, c.HasPlace t.node

theorem isRead_ofDocuments (documents : List Document) : (ofDocuments documents).IsRead := by
  intro t ht
  obtain ⟨⟨u, i⟩, hu, rfl⟩ := List.mem_map.1 ht
  have hu' := List.mem_of_getElem? (List.mem_zipIdx_iff_getElem?.1 hu)
  obtain ⟨root, hroot, hu'⟩ := List.mem_flatMap.1 hu'
  obtain ⟨n, hn, hnu⟩ := List.mem_filterMap.1 hu'
  have hplace : (ofDocuments documents).HasPlace n :=
    (HasPlace.root hroot).of_mem_preorder (Node.mem_preorder_of_mem_walk hn)
  have hnode : u.node = n := by
    simp only [TypeDecl.ofNode?, Option.bind_eq_bind, Option.pure_def] at hnu
    split at hnu
    · obtain ⟨name, -, hname⟩ := Option.bind_eq_some_iff.1 hnu
      cases hname
      rfl
    · cases hnu
  rwa [← hnode] at hplace

section

variable {c : Compilation} {n x : Node} (h : c.HasPlace n)

include h

/-! ### Parts of declarations -/

private theorem HasPlace.of_field {f : Field} (hx : n.field f = some x) : c.HasPlace x :=
  .child h (Node.mem_children_of_field hx)

theorem HasPlace.of_named (hx : x ∈ n.named) : c.HasPlace x := .child h (Node.mem_children_of_named hx)

theorem HasPlace.of_firstNamed? (hx : n.firstNamed? = some x) : c.HasPlace x :=
  .child h (Node.mem_children_of_firstNamed? hx)

theorem HasPlace.of_lastNamed? (hx : n.lastNamed? = some x) : c.HasPlace x :=
  .child h (Node.mem_children_of_lastNamed? hx)

theorem HasPlace.of_childOf? {ks : List Kind} (hx : n.childOf? ks = some x) : c.HasPlace x :=
  .child h (Node.mem_children_of_childOf? hx)

theorem HasPlace.of_namedOf {k : Kind} (hx : x ∈ n.namedOf k) : c.HasPlace x :=
  .child h (Node.mem_children_of_namedOf hx)

theorem HasPlace.of_nearest? {ks : List Kind} (hx : n.nearest? ks = some x) : c.HasPlace x :=
  h.of_mem_ancestors (List.mem_of_find?_eq_some hx)

private theorem HasPlace.of_declarators (hx : x ∈ n.declarators) : c.HasPlace x := h.of_namedOf hx

private theorem HasPlace.of_variableDeclaration? (hx : n.variableDeclaration? = some x) : c.HasPlace x := by
  unfold Node.variableDeclaration? at hx
  split at hx
  · cases hx
    exact h
  · exact h.of_childOf? hx

theorem HasPlace.of_variableNamed? {name : String} (hx : n.variableNamed? name = some x) : c.HasPlace x :=
  h.of_declarators (List.mem_of_find?_eq_some hx)

private theorem HasPlace.of_fieldVariables (hx : x ∈ fieldVariables n) : c.HasPlace x := by
  unfold fieldVariables at hx
  split at hx
  · next list hl => exact (h.of_variableDeclaration? hl).of_declarators hx
  · cases hx

theorem HasPlace.of_parameters (hx : x ∈ n.parameters) : c.HasPlace x := by
  unfold Node.parameters at hx
  split at hx
  · next list hl =>
    have hlist : c.HasPlace list :=
      .child h (Node.mem_children_of_orElse (fun _ hd => Node.mem_children_of_childOf? hd) hl)
    exact hlist.of_namedOf hx
  · split at hx
    · rw [Option.mem_toList, Option.filter_eq_some_iff] at hx
      exact h.of_firstNamed? hx.1
    · cases hx

private theorem HasPlace.of_parameterNamed? {name : String} (hx : n.parameterNamed? name = some x) : c.HasPlace x :=
  h.of_parameters (List.mem_of_find?_eq_some hx)

private theorem HasPlace.of_initializer? (hx : n.initializer? = some x) : c.HasPlace x := by
  unfold Node.initializer? at hx
  split at hx
  · next clause hc => exact (h.of_childOf? hc).of_firstNamed? hx
  · have hvalue : ∀ v, (if n.is .propertyDeclaration then n.field .value else none) = some v → c.HasPlace v := by
      intro v hv
      split at hv
      · exact h.of_field hv
      · cases hv
    dsimp only at hx
    generalize (if n.is .propertyDeclaration then n.field .value else none) = value? at hx hvalue
    split at hx
    · next v hv =>
      cases hx
      exact hvalue x (Option.filter_eq_some_iff.1 hv).1
    · split at hx
      · cases hx
      · next first after hd =>
        have hmem : x ∈ n.children.dropWhile fun k => !k.isToken "=" := by
          rw [hd]
          exact List.mem_cons_of_mem _ (List.mem_of_find?_eq_some hx)
        exact .child h ((List.dropWhile_sublist _).subset hmem)

theorem HasPlace.of_accessors (hx : x ∈ n.accessors) : c.HasPlace x := by
  unfold Node.accessors at hx
  split at hx
  · next list hl =>
    have hlist : c.HasPlace list :=
      .child h (Node.mem_children_of_orElse (fun _ hd => Node.mem_children_of_childOf? hd) hl)
    exact hlist.of_namedOf hx
  · cases hx

theorem HasPlace.of_foreachVariable? (hx : n.foreachVariable? = some x) : c.HasPlace x :=
  .child h (Node.foreachVariable?_eq_some hx).1

theorem HasPlace.of_catchVariable? (hx : n.catchVariable? = some x) : c.HasPlace x :=
  .child h (Node.mem_children_of_catchVariable? hx)

private theorem HasPlace.of_patternDeclaration? {use : Node} {name : String}
    (hx : n.patternDeclaration? use name = some x) : c.HasPlace x := by
  have hmem := List.mem_of_getLast? hx
  exact h.of_mem_preorder (Node.mem_preorder_of_mem_walk (List.mem_filter.1 hmem).1)

theorem HasPlace.of_localOfStatement? {use : Node} {name : String} (hx : n.localOfStatement? use name = some x) :
    c.HasPlace x := by
  unfold Node.localOfStatement? at hx
  split at hx
  · rw [Option.orElse_eq_orElse, Option.orElse_eq_or, Option.or_eq_some_iff] at hx
    rcases hx with hx | ⟨-, hx⟩
    · exact h.of_patternDeclaration? hx
    · split at hx
      · obtain ⟨list, hl, hx⟩ := Option.bind_eq_some_iff.1 hx
        exact (h.of_variableDeclaration? hl).of_variableNamed? hx
      · cases hx
  · cases hx

private theorem HasPlace.of_arrowBody? (hx : n.arrowBody? = some x) : c.HasPlace x :=
  h.of_mem_preorder (Node.mem_preorder_of_arrowBody? hx)

theorem HasPlace.of_blockBody? (hx : n.blockBody? = some x) : c.HasPlace x := .child h (Node.blockBody?_eq_some hx).1

theorem HasPlace.of_body? (hx : n.body? = some x) : c.HasPlace x := by
  unfold Node.body? at hx
  split at hx
  · exact h.of_lastNamed? hx
  · rw [Option.orElse_eq_orElse, Option.orElse_eq_or, Option.or_eq_some_iff] at hx
    rcases hx with hx | ⟨-, hx⟩
    · exact h.of_blockBody? hx
    · exact h.of_arrowBody? hx

theorem HasPlace.of_returnedExpressions (hx : x ∈ n.returnedExpressions) : c.HasPlace x := by
  unfold Node.returnedExpressions at hx
  split at hx
  · next e he =>
    rw [List.mem_singleton.1 hx]
    exact h.of_arrowBody? he
  · split at hx
    · cases hx
    · next block hb =>
      obtain ⟨r, hr, hx⟩ := List.mem_filterMap.1 hx
      have hplace : c.HasPlace r :=
        (h.of_blockBody? hb).of_mem_preorder (Node.mem_preorder_of_mem_walk (List.mem_filter.1 hr).1)
      exact hplace.of_firstNamed? hx

end

/-! ### Expressions -/

theorem HasPlace.of_stripParens {c : Compilation} {n : Node} (h : c.HasPlace n) : c.HasPlace n.stripParens :=
  h.of_mem_preorder (Node.stripParens_mem_preorder n)

theorem HasPlace.of_stripConversions {c : Compilation} {n : Node} (h : c.HasPlace n) : c.HasPlace n.stripConversions :=
  h.of_mem_preorder (Node.stripConversions_mem_preorder n)

theorem HasPlace.of_simpleName? {c : Compilation} {n x : Node} (h : c.HasPlace n) (hx : n.simpleName? = some x) :
    c.HasPlace x :=
  h.of_mem_preorder (Node.simpleName?_eq_some hx).1

theorem HasPlace.of_nameOf? {c : Compilation} {n x : Node} (h : c.HasPlace n) (hx : n.nameOf? = some x) :
    c.HasPlace x :=
  h.of_mem_preorder (Node.mem_preorder_of_nameOf? hx)

/-! ### Members of types -/

theorem IsRead.hasPlace_of_members {c : Compilation} (hc : c.IsRead) {t : TypeDecl} {n : Node}
    (hn : n ∈ c.members t) : c.HasPlace n := by
  obtain ⟨u, hu, hn⟩ := List.mem_flatMap.1 hn
  have htypes : u ∈ c.types := (List.mem_filter.1 (List.mem_filter.1 hu).1).1
  unfold membersOf at hn
  split at hn
  · next list hl =>
    have hlist : c.HasPlace list :=
      .child (hc u htypes) (Node.mem_children_of_orElse (fun _ hd => Node.mem_children_of_childOf? hd) hl)
    exact hlist.of_named hn
  · cases hn

private theorem isIn_of_mem_map_type {c : Compilation} {t? : Option TypeDecl} {s : Symbol} (h : t?.map .type = some s) :
    s.IsIn c := by
  obtain ⟨t, -, rfl⟩ := Option.map_eq_some_iff.1 h
  exact Symbol.isIn_of_node?_eq_none rfl

private theorem isIn_memberSymbol? {c : Compilation} {name : String} {member : Node} {s : Symbol}
    (h : c.HasPlace member) (hs : c.memberSymbol? name member = some s) : s.IsIn c := by
  unfold memberSymbol? at hs
  split at hs
  · obtain ⟨d, hd, rfl⟩ := Option.map_eq_some_iff.1 hs
    exact Symbol.isIn_of_eq rfl (h.of_fieldVariables (List.mem_of_find?_eq_some hd))
  · split at hs
    · cases hs
      exact Symbol.isIn_of_eq rfl h
    · cases hs
  · split at hs
    · exact isIn_of_mem_map_type hs
    · cases hs

theorem mem_of_methodFor? {methods : List Node} {arity? : Option Nat} {n : Node}
    (h : methodFor? methods arity? = some n) : n ∈ methods := by
  unfold methodFor? at h
  split at h
  · rw [Option.orElse_eq_orElse, Option.orElse_eq_or, Option.or_eq_some_iff] at h
    rcases h with h | ⟨-, h⟩
    · exact List.mem_of_find?_eq_some h
    · exact List.mem_of_mem_head? h
  · exact List.mem_of_mem_head? h

private theorem IsRead.isIn_ownMember? {c : Compilation} (hc : c.IsRead) {t : TypeDecl} {name : String}
    {arity? : Option Nat} {s : Symbol} (hs : c.ownMember? t name arity? = some s) : s.IsIn c := by
  unfold ownMember? at hs
  rw [Option.orElse_eq_orElse, Option.orElse_eq_or, Option.or_eq_some_iff] at hs
  rcases hs with hs | ⟨-, hs⟩
  · obtain ⟨member, hmember, hs⟩ := List.exists_of_findSome?_eq_some hs
    exact isIn_memberSymbol? (hc.hasPlace_of_members hmember) hs
  · obtain ⟨method, hm, rfl⟩ := Option.map_eq_some_iff.1 hs
    exact Symbol.isIn_of_eq rfl (hc.hasPlace_of_members (List.mem_filter.1 (mem_of_methodFor? hm)).1)

theorem IsRead.isIn_lookupMember? {c : Compilation} (hc : c.IsRead) {t : TypeDecl} {name : String}
    {arity? : Option Nat} {s : Symbol} (hs : c.lookupMember? t name arity? = some s) : s.IsIn c := by
  obtain ⟨u, -, hs⟩ := List.exists_of_findSome?_eq_some hs
  exact hc.isIn_ownMember? hs

/-! ### Names -/

private theorem isIn_inBlock? {c : Compilation} {block use : Node} {name : String} {s : Symbol} (h : c.HasPlace block)
    (hs : block.inBlock? use name = some s) : s.IsIn c := by
  unfold Node.inBlock? at hs
  split at hs
  · next function hf =>
    cases hs
    exact Symbol.isIn_of_eq rfl (h.of_named (List.mem_of_find?_eq_some hf))
  · obtain ⟨d, hd, rfl⟩ := Option.map_eq_some_iff.1 hs
    obtain ⟨statement, hst, hd⟩ := List.mem_filterMap.1 (List.mem_of_getLast? hd)
    exact Symbol.isIn_of_eq rfl ((h.of_named hst).of_localOfStatement? hd)

private theorem isIn_map_parameter {c : Compilation} {scope : Node} {name : String} {s : Symbol} (h : c.HasPlace scope)
    (hs : (scope.parameterNamed? name).map .parameter = some s) : s.IsIn c := by
  obtain ⟨p, hp, rfl⟩ := Option.map_eq_some_iff.1 hs
  exact Symbol.isIn_of_eq rfl (h.of_parameterNamed? hp)

private theorem IsRead.isIn_inScope? {c : Compilation} (hc : c.IsRead) {use scope : Node} {name : String}
    {arity? : Option Nat} {s : Symbol} (h : c.HasPlace scope) (hs : c.inScope? use name arity? scope = some s) :
    s.IsIn c := by
  unfold inScope? at hs
  split at hs
  case h_1 | h_2 => exact isIn_inBlock? h hs
  case h_3 | h_4 | h_5 =>
    obtain ⟨d, hd, rfl⟩ := Option.map_eq_some_iff.1 hs
    obtain ⟨list, hl, hd⟩ := Option.bind_eq_some_iff.1 hd
    exact Symbol.isIn_of_eq rfl ((h.of_childOf? hl).of_variableNamed? hd)
  case h_6 | h_7 =>
    obtain ⟨d, hd, rfl⟩ := Option.map_eq_some_iff.1 hs
    exact Symbol.isIn_of_eq rfl (h.of_foreachVariable? (Option.filter_eq_some_iff.1 hd).1)
  case h_8 =>
    obtain ⟨d, hd, rfl⟩ := Option.map_eq_some_iff.1 hs
    obtain ⟨decl, hdecl, hd⟩ := Option.bind_eq_some_iff.1 (Option.filter_eq_some_iff.1 hd).1
    exact Symbol.isIn_of_eq rfl ((h.of_childOf? hdecl).of_catchVariable? hd)
  case h_18 =>
    split at hs
    · obtain ⟨owner, ho, rfl⟩ := Option.map_eq_some_iff.1 hs
      exact Symbol.isIn_of_eq rfl (h.of_nearest? ho)
    · cases hs
  case h_19 =>
    split at hs
    · rw [Option.orElse_eq_orElse, Option.orElse_eq_or, Option.or_eq_some_iff] at hs
      rcases hs with hs | ⟨-, hs⟩
      · exact isIn_map_parameter h hs
      · obtain ⟨t, -, hs⟩ := Option.bind_eq_some_iff.1 hs
        exact hc.isIn_lookupMember? hs
    · cases hs
  all_goals exact isIn_map_parameter h hs

theorem IsRead.isIn_lookupName {c : Compilation} (hc : c.IsRead) {use : Node} (h : c.HasPlace use) (name : String)
    (arity? : Option Nat) : (c.lookupName use name arity?).IsIn c := by
  unfold lookupName
  split
  · next s hs =>
    obtain ⟨scope, hscope, hs⟩ := List.exists_of_findSome?_eq_some hs
    exact hc.isIn_inScope? (h.of_mem_ancestors hscope) hs
  · split
    · exact Symbol.isIn_of_node?_eq_none rfl
    · split <;> exact Symbol.isIn_of_node?_eq_none rfl

private theorem isIn_variableSymbol {c : Compilation} {d : Node} (h : c.HasPlace d) : d.variableSymbol.IsIn c := by
  unfold Node.variableSymbol
  split <;> exact Symbol.isIn_of_eq rfl h

private theorem isIn_declaredAt? {c : Compilation} {identifier : Node} {s : Symbol} (h : c.HasPlace identifier)
    (hs : c.declaredAt? identifier = some s) : s.IsIn c := by
  unfold declaredAt? at hs
  obtain ⟨decl, hdecl, hs⟩ := Option.bind_eq_some_iff.1 hs
  have hplace := (h.of_parent? hdecl).1
  dsimp only at hs
  split at hs
  case h_11 =>
    split at hs
    · exact isIn_of_mem_map_type hs
    · cases hs
  all_goals
    split at hs
    · cases hs
      first
        | exact isIn_variableSymbol hplace
        | exact Symbol.isIn_of_eq rfl hplace
        | exact Symbol.isIn_of_eq rfl h
    · cases hs

/-! ### What expressions stand for -/

private theorem IsRead.isIn_memberOf {c : Compilation} (hc : c.IsRead) (t : TypeDecl) (name : String)
    (arity? : Option Nat) : (Resolver.memberOf c t name arity?).IsIn c := by
  unfold Resolver.memberOf
  cases hs : c.lookupMember? t name arity? with
  | none => exact Symbol.isIn_of_node?_eq_none rfl
  | some s => exact hc.isIn_lookupMember? hs

private theorem IsRead.isIn_memberOn? {c : Compilation} (hc : c.IsRead) {r : Resolver} {receiver : Node} {name : String}
    {arity? : Option Nat} {s : Symbol} (hs : Resolver.memberOn? c r receiver name arity? = some s) : s.IsIn c := by
  unfold Resolver.memberOn? at hs
  split at hs
  · obtain ⟨t, -, rfl⟩ := Option.map_eq_some_iff.1 hs
    exact hc.isIn_memberOf _ _ _
  · obtain ⟨t, -, rfl⟩ := Option.map_eq_some_iff.1 hs
    exact hc.isIn_memberOf _ _ _
  · cases hs
    exact Symbol.isIn_of_node?_eq_none rfl
  · split at hs
    · cases hs
      exact hc.isIn_memberOf _ _ _
    · cases hs
      exact Symbol.isIn_of_node?_eq_none rfl
    · split at hs <;> cases hs
      · exact hc.isIn_memberOf _ _ _
      · exact Symbol.isIn_of_node?_eq_none rfl

theorem parent?_of_namedAccess? {n simple x : Node} (hx : Resolver.namedAccess? n simple = some x) :
    n.parent? = some x := by
  unfold Resolver.namedAccess? at hx
  obtain ⟨parent, hp, hx⟩ := Option.bind_eq_some_iff.1 hx
  rw [hp]
  split at hx
  · split at hx
    · exact hx
    · cases hx
  · exact hx
  · exact hx
  · cases hx

theorem HasPlace.of_namedAccess? {c : Compilation} {n simple x : Node} (h : c.HasPlace n)
    (hx : Resolver.namedAccess? n simple = some x) : c.HasPlace x :=
  (h.of_parent? (parent?_of_namedAccess? hx)).1

private theorem IsRead.isIn_symbolStep {c : Compilation} (hc : c.IsRead) {r : Resolver}
    (hr : ∀ e s, c.HasPlace e → r.symbol? e = some s → s.IsIn c) {e : Node} {s : Symbol} (h : c.HasPlace e)
    (hs : Resolver.symbolStep c r e = some s) : s.IsIn c := by
  have hn := h.of_stripParens
  unfold Resolver.symbolStep at hs
  dsimp only at hs
  split at hs
  case h_1 | h_2 =>
    obtain ⟨simple, hsimple, hs⟩ := Option.bind_eq_some_iff.1 hs
    split at hs
    · next access ha => exact hr access s (hn.of_namedAccess? ha) hs
    · rw [Option.orElse_eq_orElse, Option.orElse_eq_or, Option.or_eq_some_iff] at hs
      rcases hs with hs | ⟨-, hs⟩
      · exact isIn_declaredAt? (hn.of_simpleName? hsimple) hs
      · cases hs
        exact hc.isIn_lookupName hn _ _
  case h_3 | h_4 =>
    obtain ⟨receiver, -, hs⟩ := Option.bind_eq_some_iff.1 hs
    obtain ⟨member, -, hs⟩ := Option.bind_eq_some_iff.1 hs
    exact hc.isIn_memberOn? hs
  case h_5 =>
    obtain ⟨last, hl, hs⟩ := Option.bind_eq_some_iff.1 hs
    exact hr last s (hn.of_lastNamed? hl) hs
  case h_6 =>
    obtain ⟨function, hf, hs⟩ := Option.bind_eq_some_iff.1 hs
    have hplace : c.HasPlace function :=
      .child hn (Node.mem_children_of_orElse (fun _ hd => Node.mem_children_of_firstNamed? hd) hf)
    exact hr function s hplace hs
  case h_7 => cases hs

private theorem IsRead.isIn_within {c : Compilation} (hc : c.IsRead) (framework : Node → Option Framework.Call)
    (steps : Nat) {e : Node} {s : Symbol} (h : c.HasPlace e)
    (hs : (Resolver.within c framework steps).symbol? e = some s) :
    s.IsIn c := by
  induction steps generalizing e s with
  | zero => cases hs
  | succ steps ih => exact hc.isIn_symbolStep (fun e s he hs => ih he hs) h hs

/-- What an expression of a compilation stands for is declared in the compilation. -/
theorem IsRead.isIn_symbol? {c : Compilation} (hc : c.IsRead) {e : Node} {s : Symbol} (h : c.HasPlace e)
    (hs : c.model.symbol? e = some s) : s.IsIn c :=
  hc.isIn_within _ _ h hs

end Compilation

/-! ### Writes -/

namespace Model

private theorem hasPlace_of_mem_tupleElements {c : Compilation} {n x : Node} (h : c.HasPlace n)
    (hx : x ∈ tupleElements n) : c.HasPlace x := by
  obtain ⟨a, ha, hx⟩ := List.mem_filterMap.1 hx
  exact (h.of_named ha).of_mem_preorder (Node.mem_preorder_of_argumentExpression? hx)

private theorem hasPlace_of_mem_targetsWithin {c : Compilation} {fuel : Nat} {target t v : Node} {value? : Option Node}
    (h : ∀ x, value? = some x → c.HasPlace x) (hv : (t, some v) ∈ targetsWithin fuel target value?) :
    c.HasPlace v := by
  induction fuel generalizing target value? with
  | zero =>
    simp only [targetsWithin, List.mem_singleton, Prod.mk.injEq] at hv
    exact h v hv.2.symm
  | succ fuel ih =>
    unfold targetsWithin at hv
    dsimp only at hv
    split at hv
    · obtain ⟨⟨e, i⟩, -, hv⟩ := List.mem_flatMap.1 hv
      refine ih ?_ hv
      intro x hx
      split at hx
      · next tuple htuple =>
        obtain ⟨value, hvalue, rfl⟩ := Option.map_eq_some_iff.1 (Option.filter_eq_some_iff.1 htuple).1
        exact hasPlace_of_mem_tupleElements (h value hvalue).of_stripParens (List.mem_of_getElem? hx)
      · cases hx
    · simp only [List.mem_singleton, Prod.mk.injEq] at hv
      exact h v hv.2.symm

private theorem hasPlace_of_declaredValue? {c : Compilation} {s : Symbol} (hs : s.IsIn c) {w : Write} {v : Node}
    (hw : declaredValue? s = some w) (hv : w.value? = some v) : c.HasPlace v := by
  cases s with
  | localVar d | field d =>
    simp only [declaredValue?] at hw
    split at hw
    · obtain ⟨x, hx, rfl⟩ := Option.map_eq_some_iff.1 hw
      cases hv
      exact (hs d rfl).of_initializer? hx
    · cases hw
  | property p =>
    obtain ⟨x, hx, rfl⟩ := Option.map_eq_some_iff.1 hw
    cases hv
    exact (hs p rfl).of_initializer? hx
  | _ => cases hw

private theorem hasPlace_of_mem_writesAt {c : Compilation} {m : Model} {s : Symbol} {name : String} {n : Node}
    (h : c.HasPlace n) {w : Write} {v : Node} (hw : w ∈ m.writesAt s name n) (hv : w.value? = some v) :
    c.HasPlace v := by
  unfold writesAt at hw
  split at hw
  · split at hw
    · cases hw
    · next a ha =>
      obtain ⟨⟨t, v?⟩, ht, rfl⟩ := List.mem_map.1 hw
      obtain rfl : v? = some v := hv
      refine hasPlace_of_mem_targetsWithin ?_ (List.mem_filter.1 ht).1
      intro x hx
      split at hx
      · cases hx
        exact .child h (Node.kind_of_assignment? ha).2.2
      · cases hx
  · dsimp only at hw
    split at hw
    · split at hw
      · rw [List.mem_singleton.1 hw] at hv
        cases hv
      · cases hw
    · cases hw
  · split at hw
    · rw [List.mem_singleton.1 hw] at hv
      cases hv
    · cases hw
  · split at hw
    · rw [List.mem_singleton.1 hw] at hv
      cases hv
    · cases hw
  · cases hw

/-- The values written to a symbol of a compilation are places of it. -/
theorem hasPlace_of_mem_writes {m : Model} (hc : m.compilation.IsRead) {s : Symbol} (hs : s.IsIn m.compilation)
    {scope : Scope} (hscope : ∀ n, scope = .node n → m.compilation.HasPlace n) {w : Write} {v : Node}
    (hw : w ∈ m.writes s scope) (hv : w.value? = some v) : m.compilation.HasPlace v := by
  unfold writes at hw
  rcases List.mem_append.1 hw with hw | hw
  · exact hasPlace_of_declaredValue? hs (Option.mem_toList.1 hw) hv
  · split at hw
    · obtain ⟨n, hn, hw⟩ := List.mem_flatMap.1 hw
      obtain ⟨root, hroot, hn⟩ := List.mem_flatMap.1 hn
      have hplace : m.compilation.HasPlace root := by
        cases scope with
        | node r =>
          rw [List.mem_singleton.1 hroot]
          exact hscope r rfl
        | type t => exact hc.hasPlace_of_members hroot
      exact hasPlace_of_mem_writesAt (hplace.of_mem_preorder hn) hw hv
    · cases hw

private theorem mem_of_mem_foldl_addNew {found ns : List Node} {e : Node} (h : e ∈ ns.foldl addNew found) :
    e ∈ found ∨ e ∈ ns := by
  induction ns generalizing found with
  | nil => exact .inl h
  | cons n ns ih =>
    rw [List.foldl_cons] at h
    rcases ih h with h | h
    · unfold addNew at h
      split at h
      · exact .inl h
      · rcases List.mem_append.1 h with h | h
        · exact .inl h
        · rw [List.mem_singleton.1 h]
          exact .inr List.mem_cons_self
    · exact .inr (List.mem_cons_of_mem n h)

/-- A mention of a symbol is an identifier of the scope or the access that it names. -/
theorem exists_mention_of_mem_references {m : Model} {s : Symbol} {scope : Scope} {e : Node}
    (h : e ∈ m.references s scope) :
    ∃ name n, s.name? = some name ∧ n ∈ scope.nodes m.compilation ∧ m.mentionAt? s name n = some e := by
  unfold references at h
  split at h
  · next name hname =>
    rcases mem_of_mem_foldl_addNew h with h | h
    · cases h
    · obtain ⟨n, hn, he⟩ := List.mem_filterMap.1 h
      exact ⟨name, n, hname, hn, he⟩
  · cases h

theorem eq_or_parent?_of_mentionAt? {m : Model} {s : Symbol} {name : String} {n e : Node}
    (h : m.mentionAt? s name n = some e) : e = n ∨ n.parent? = some e := by
  unfold mentionAt? at h
  split at h
  · obtain ⟨p, hp, h⟩ := Option.bind_eq_some_iff.1 h
    dsimp only at h
    split at h
    · cases h
      unfold mention
      split
      · split
        · exact .inr hp
        · exact .inl rfl
      · exact .inr hp
      · exact .inl rfl
    · cases h
  · cases h

/-- The mentions of a symbol within a node are places of the compilation. -/
theorem hasPlace_of_mem_references {m : Model} {c : Compilation} {s : Symbol} {region e : Node}
    (h : c.HasPlace region) (he : e ∈ m.references s (.node region)) : c.HasPlace e := by
  obtain ⟨name, n, -, hn, he⟩ := exists_mention_of_mem_references he
  have hplace : c.HasPlace n := by
    refine h.of_mem_preorder ?_
    simpa [Scope.nodes, Scope.roots] using hn
  rcases eq_or_parent?_of_mentionAt? he with rfl | hp
  · exact hplace
  · exact (hplace.of_parent? hp).1

end Model

end Disposal

import Disposal.Proofs.Declarations
import Disposal.Proofs.Sketch

/-!
# Names of symbols

Looking up a name finds a symbol of that name, through all the forms of scopes and declarations. So what an expression
stands for is called by the last name in the expression, and comparing names first does not change whether the
expression stands for a symbol.

* `Compilation.isKnownAs_lookupName`, `Compilation.isKnownAs_lookupMember?`: looking up names and members;
* `Compilation.endsInNameOf_symbol?`: what an expression stands for;
* `Compilation.hasForm_symbol?`: at which nodes symbols of each sort are declared;
* `Compilation.naming_isFaithful`: comparing names first changes nothing.
-/

namespace Disposal

/-! ### Forms of symbols -/

/-- The node is an identifier right below a node of one of some kinds. -/
def Node.IsNameIn (ks : List Kind) (n : Node) : Prop :=
  n.is .identifier = true ∧ ∃ p, n.parent? = some p ∧ p.isAny ks = true

namespace Symbol

/-- The kinds of node right below which an identifier declares a local. -/
def localHolders : List Kind := [.forEachStatement, .foreachStatement, .catchDeclaration]

/-- The nodes at which symbols of each sort are declared. -/
def HasForm : Symbol → Prop
  | localVar d =>
    d.isAny [.variableDeclarator, .declarationExpression, .declarationPattern] = true ∨ d.IsNameIn localHolders
  | parameter d => d.is .parameter = true ∨ d.IsNameIn [.lambdaExpression]
  | setterValue d => d.isAny [.propertyDeclaration, .indexerDeclaration, .eventDeclaration] = true
  | field d => d.is .variableDeclarator = true
  | property d => d.is .propertyDeclaration = true
  | method d => d.isAny [.methodDeclaration, .localFunctionStatement] = true
  | type _ | framework _ | external => True

/-- A symbol goes by a name; something that is declared elsewhere goes by any. -/
def IsKnownAs (c : Compilation) (name : String) : Symbol → Prop
  | external => True
  | type t => t ∈ c.types ∧ t.name = name
  | s => s.name? = some name ∧ s.HasForm

/-- A symbol is declared in the compilation: at one of its places or as one of its types. -/
structure IsDeclaredIn (c : Compilation) (s : Symbol) : Prop where
  node : s.IsIn c
  type : ∀ t, s = .type t → t ∈ c.types

variable {c : Compilation} {name : String} {s : Symbol}

private theorem IsKnownAs.name_eq {x : String} (h : s.IsKnownAs c name) (hx : s.name? = some x) : x = name := by
  have key : s.name? = some name → x = name := by
    intro hname
    rw [hx] at hname
    exact Option.some.inj hname
  cases s with
  | external => cases hx
  | type t =>
    obtain ⟨-, rfl⟩ := h
    cases hx
    rfl
  | _ => exact key h.1

private theorem IsKnownAs.hasForm (h : s.IsKnownAs c name) : s.HasForm := by
  cases s with
  | external | type => trivial
  | framework => trivial
  | _ => exact h.2

private theorem beq_self_of_name? (h : s.name? = some name) : (s == s) = true := by
  cases s with
  | external => cases h
  | type t => exact beq_self_eq_true t.index
  | framework f => exact beq_self_eq_true f
  | _ n => exact Node.beq_refl n

/-! ### Locals and parameters -/

private theorem isKnownAs_variable {d : Node} (hk : d.kind? = some .variableDeclarator)
    (hname : d.nameText? = some name) : (localVar d).IsKnownAs c name := by
  refine ⟨?_, .inl (Node.isAny_iff.2 ⟨_, by decide, hk⟩)⟩
  rw [name?, hk]
  exact hname

/-- A variable declared by a pattern or `out` argument is called as its last part. -/
private theorem isKnownAs_pattern {d : Node} (hk : d.isAny [.declarationExpression, .declarationPattern] = true)
    (hname : d.lastNamed?.map (·.text) = some name) : (localVar d).IsKnownAs c name := by
  obtain ⟨k, hmem, hk⟩ := Node.isAny_iff.1 hk
  refine ⟨?_, .inl (Node.isAny_iff.2 ⟨k, List.mem_cons_of_mem _ hmem, hk⟩)⟩
  rw [name?, hk]
  rcases List.mem_cons.1 hmem with rfl | hmem
  · exact hname
  · rw [List.mem_singleton.1 hmem]
    exact hname

private theorem isKnownAs_identifier {x : Node} (h : x.IsNameIn localHolders) : (localVar x).IsKnownAs c x.text := by
  refine ⟨?_, .inr h⟩
  rw [name?, Node.is_iff.1 h.1]

end Symbol

namespace Node

variable {c : Compilation} {name : String}

private theorem isNameIn_of_foreachVariable? {loop x : Node} {k : Kind} (hk : loop.kind? = some k)
    (hmem : k ∈ [Kind.forEachStatement, .foreachStatement]) (h : loop.foreachVariable? = some x) :
    x.IsNameIn Symbol.localHolders := by
  obtain ⟨hx, hident⟩ := foreachVariable?_eq_some h
  refine ⟨hident, loop, parent?_of_mem_children hx, isAny_iff.2 ⟨k, ?_, hk⟩⟩
  exact List.mem_append_left [.catchDeclaration] hmem

private theorem isNameIn_of_catchVariable? {decl x : Node} (hk : decl.kind? = some .catchDeclaration)
    (h : decl.catchVariable? = some x) (hident : x.is .identifier = true) : x.IsNameIn Symbol.localHolders :=
  ⟨hident, decl, parent?_of_mem_children (mem_children_of_catchVariable? h), isAny_iff.2 ⟨_, by decide, hk⟩⟩

private theorem hasForm_of_parameters {scope p : Node} (h : p ∈ scope.parameters) : (Symbol.parameter p).HasForm := by
  unfold parameters at h
  split at h
  · exact .inl (List.mem_filter.1 h).2
  · split at h
    · next hk =>
      rw [Option.mem_toList, Option.filter_eq_some_iff] at h
      exact .inr ⟨h.2, scope, parent?_of_mem_children (mem_children_of_firstNamed? h.1), by rwa [isAny_singleton]⟩
    · cases h

private theorem isKnownAs_of_parameterNamed? {scope p : Node} (h : scope.parameterNamed? name = some p) :
    (Symbol.parameter p).IsKnownAs c name := by
  have hname := List.find?_some h
  exact ⟨LawfulBEq.eq_of_beq hname, hasForm_of_parameters (List.mem_of_find?_eq_some h)⟩

private theorem isKnownAs_of_variableNamed? {list d : Node} (h : list.variableNamed? name = some d) :
    (Symbol.localVar d).IsKnownAs c name := by
  have hname := List.find?_some h
  have hk := (List.mem_filter.1 (List.mem_of_find?_eq_some h)).2
  exact Symbol.isKnownAs_variable (is_iff.1 hk) (LawfulBEq.eq_of_beq hname)

private theorem isKnownAs_of_patternDeclaration? {statement use d : Node}
    (h : statement.patternDeclaration? use name = some d) : (Symbol.localVar d).IsKnownAs c name := by
  have hd := (List.mem_filter.1 (List.mem_of_getLast? h)).2
  obtain ⟨-, hd⟩ := Bool.and_eq_true_iff.1 hd
  obtain ⟨hk, hlast⟩ := Bool.and_eq_true_iff.1 hd
  obtain ⟨last, hlast, hname⟩ := (Option.any_eq_true _ _).1 hlast
  obtain ⟨-, hname⟩ := Bool.and_eq_true_iff.1 hname
  refine Symbol.isKnownAs_pattern hk ?_
  rw [hlast, Option.map_some, LawfulBEq.eq_of_beq hname]

private theorem isKnownAs_of_localOfStatement? {statement use d : Node}
    (h : statement.localOfStatement? use name = some d) : (Symbol.localVar d).IsKnownAs c name := by
  unfold localOfStatement? at h
  split at h
  · rw [Option.orElse_eq_orElse, Option.orElse_eq_or, Option.or_eq_some_iff] at h
    rcases h with h | ⟨-, h⟩
    · exact isKnownAs_of_patternDeclaration? h
    · split at h
      · obtain ⟨list, -, h⟩ := Option.bind_eq_some_iff.1 h
        exact isKnownAs_of_variableNamed? h
      · cases h
  · cases h

/-! ### Last names -/

/-- Going on to the part that holds the last name does not change it. -/
theorem simpleName?_of_towardsName? {n x : Node} (h : n.towardsName? = some x) : n.simpleName? = x.simpleName? := by
  have hf : n.follow towardsName? = x.follow towardsName? := by rw [follow_eq mem_children_of_towardsName?, h]
  rw [simpleName?, simpleName?, hf]

theorem memberName?_eq_simpleName? {n : Node} (hk : n.kind? = some .memberAccessExpression) :
    n.memberName? = n.simpleName? := by
  have htowards : n.towardsName? = (n.field .name <|> n.lastNamed?) := by rw [towardsName?, hk]
  rw [memberName?, ← htowards]
  cases ht : n.towardsName? with
  | some x => rw [Option.bind_some, simpleName?_of_towardsName? ht]
  | none =>
    have hf : n.follow towardsName? = n := by rw [follow_eq mem_children_of_towardsName?, ht]
    have hn : n.is .identifier = false := is_eq_of_kind? hk _
    rw [simpleName?, hf, hn]
    rfl

/-- The kinds of expression that end in a name. -/
def namings : List Kind := [.identifier, .genericName, .memberAccessExpression, .memberBindingExpression]

theorem stripParens_of_namings {n : Node} (hn : n.isAny namings = true) : n.stripParens = n := by
  obtain ⟨k, hk, hn⟩ := isAny_iff.1 hn
  refine stripParens_of_kind? hn ?_
  rintro rfl
  exact absurd hk (by decide)

/-- A symbol goes by the last name of an expression. -/
def EndsInNameOf (e : Node) (c : Compilation) (s : Symbol) : Prop :=
  ∃ x, e.simpleName? = some x ∧ s.IsKnownAs c x.text

end Node

namespace Compilation

/-- Names are built as the grammar has them: of the parts of a generic name one is a name, the identifier in front of
the types; one part follows `?.`; and the variable of a `catch` clause is an identifier. -/
structure HasPlainNames (c : Compilation) : Prop where
  generic : ∀ n, c.HasPlace n → n.is .genericName = true → ∃ x, n.named.filter (·.simpleName?.isSome) = [x]
  binding : ∀ n, c.HasPlace n → n.is .memberBindingExpression = true → ∃ x, n.named = [x]
  caught : ∀ n x, c.HasPlace n → n.is .catchDeclaration = true → n.catchVariable? = some x → x.is .identifier = true

/-- The types of a compilation are declared in it, under their names, and are told apart by their numbers. -/
structure IsListed (c : Compilation) : Prop where
  read : c.IsRead
  name : ∀ t ∈ c.types, t.node.nameText? = some t.name
  index : ∀ t ∈ c.types, ∀ u ∈ c.types, t.index = u.index → t = u

private theorem name_of_ofNode? {n : Node} {t : TypeDecl} (h : TypeDecl.ofNode? n = some t) :
    t.node.nameText? = some t.name := by
  simp only [TypeDecl.ofNode?, Option.bind_eq_bind, Option.pure_def] at h
  split at h
  · obtain ⟨name, hname, h⟩ := Option.bind_eq_some_iff.1 h
    cases h
    exact hname
  · cases h

private theorem isListed_ofDocuments (documents : List Document) : (ofDocuments documents).IsListed where
  read := isRead_ofDocuments documents
  name := by
    intro t ht
    obtain ⟨⟨u, i⟩, hu, rfl⟩ := List.mem_map.1 ht
    obtain ⟨root, -, hu⟩ := List.mem_flatMap.1 (List.fst_mem_of_mem_zipIdx hu)
    obtain ⟨n, -, hn⟩ := List.mem_filterMap.1 hu
    exact (name_of_ofNode? hn :)
  index := by
    intro t ht u hu h
    obtain ⟨⟨t, i⟩, hi, rfl⟩ := List.mem_map.1 ht
    obtain ⟨⟨u, j⟩, hj, rfl⟩ := List.mem_map.1 hu
    obtain rfl : i = j := h
    have hget := List.mem_zipIdx_iff_getElem?.1 hi
    rw [List.mem_zipIdx_iff_getElem?.1 hj] at hget
    cases hget
    rfl

variable {c : Compilation} {n : Node} {name : String} {arity? : Option Nat} {s : Symbol}

/-! ### Members -/

private theorem isKnownAs_map_typeAt? (hc : c.IsListed) (hn : c.HasPlace n) (hname : n.nameText? = some name)
    (hs : (c.typeAt? n).map .type = some s) : s.IsKnownAs c name := by
  obtain ⟨t, ht, rfl⟩ := Option.map_eq_some_iff.1 hs
  have hmem := List.mem_of_find?_eq_some ht
  have hbeq := List.find?_some ht
  have hnode : t.node = n := (hc.read t hmem).eq_of_id hn (Node.beq_iff.1 hbeq)
  have htname := hc.name t hmem
  rw [hnode, hname] at htname
  exact ⟨hmem, (Option.some.inj htname).symm⟩

private theorem is_of_fieldVariables {d : Node} (h : d ∈ fieldVariables n) : d.is .variableDeclarator = true := by
  unfold fieldVariables at h
  split at h
  · exact (List.mem_filter.1 h).2
  · cases h

private theorem isKnownAs_memberSymbol? (hc : c.IsListed) (hn : c.HasPlace n) (hs : c.memberSymbol? name n = some s) :
    s.IsKnownAs c name := by
  unfold memberSymbol? at hs
  split at hs
  · obtain ⟨d, hd, rfl⟩ := Option.map_eq_some_iff.1 hs
    have hname := List.find?_some hd
    exact ⟨LawfulBEq.eq_of_beq hname, is_of_fieldVariables (List.mem_of_find?_eq_some hd)⟩
  · next hk =>
    split at hs
    · next hname =>
      cases hs
      exact ⟨LawfulBEq.eq_of_beq hname, Node.is_iff.2 hk⟩
    · cases hs
  · split at hs
    · next hname =>
      obtain ⟨-, hname⟩ := Bool.and_eq_true_iff.1 hname
      exact isKnownAs_map_typeAt? hc hn (LawfulBEq.eq_of_beq hname) hs
    · cases hs

private theorem isKnownAs_ownMember? (hc : c.IsListed) {t : TypeDecl} (hs : c.ownMember? t name arity? = some s) :
    s.IsKnownAs c name := by
  unfold ownMember? at hs
  rw [Option.orElse_eq_orElse, Option.orElse_eq_or, Option.or_eq_some_iff] at hs
  rcases hs with hs | ⟨-, hs⟩
  · obtain ⟨member, hmember, hs⟩ := List.exists_of_findSome?_eq_some hs
    exact isKnownAs_memberSymbol? hc (hc.read.hasPlace_of_members hmember) hs
  · obtain ⟨method, hm, rfl⟩ := Option.map_eq_some_iff.1 hs
    obtain ⟨hk, hname⟩ := Bool.and_eq_true_iff.1 (List.mem_filter.1 (mem_of_methodFor? hm)).2
    exact ⟨LawfulBEq.eq_of_beq hname, Node.isAny_iff.2 ⟨_, by decide, Node.is_iff.1 hk⟩⟩

/-- Looking up a member finds one of that name. -/
theorem isKnownAs_lookupMember? (hc : c.IsListed) {t : TypeDecl} (hs : c.lookupMember? t name arity? = some s) :
    s.IsKnownAs c name := by
  obtain ⟨u, -, hs⟩ := List.exists_of_findSome?_eq_some hs
  exact isKnownAs_ownMember? hc hs

/-! ### Simple names -/

private theorem isKnownAs_inBlock? {use : Node} (hs : n.inBlock? use name = some s) : s.IsKnownAs c name := by
  unfold Node.inBlock? at hs
  split at hs
  · next function hf =>
    cases hs
    have hfound := List.find?_some hf
    obtain ⟨hk, hname⟩ := Bool.and_eq_true_iff.1 hfound
    exact ⟨LawfulBEq.eq_of_beq hname, Node.isAny_iff.2 ⟨_, by decide, Node.is_iff.1 hk⟩⟩
  · obtain ⟨d, hd, rfl⟩ := Option.map_eq_some_iff.1 hs
    obtain ⟨statement, -, hd⟩ := List.mem_filterMap.1 (List.mem_of_getLast? hd)
    exact Node.isKnownAs_of_localOfStatement? hd

theorem isKnownAs_map_parameter (hs : (n.parameterNamed? name).map .parameter = some s) : s.IsKnownAs c name := by
  obtain ⟨p, hp, rfl⟩ := Option.map_eq_some_iff.1 hs
  exact Node.isKnownAs_of_parameterNamed? hp

/-- The variable of a loop or `catch` clause is called as it is written. -/
private theorem isKnownAs_map_filter {x? : Option Node} (hx : ∀ x, x? = some x → x.IsNameIn Symbol.localHolders)
    (hs : (x?.filter (·.text == name)).map .localVar = some s) : s.IsKnownAs c name := by
  obtain ⟨x, h, rfl⟩ := Option.map_eq_some_iff.1 hs
  obtain ⟨h, htext⟩ := Option.filter_eq_some_iff.1 h
  rw [← LawfulBEq.eq_of_beq htext]
  exact Symbol.isKnownAs_identifier (hx x h)

private theorem isKnownAs_inScope? (hc : c.IsListed) (hplain : c.HasPlainNames) {use scope : Node}
    (hscope : c.HasPlace scope) (hs : c.inScope? use name arity? scope = some s) : s.IsKnownAs c name := by
  unfold inScope? at hs
  split at hs
  case h_1 | h_2 => exact isKnownAs_inBlock? hs
  case h_3 | h_4 | h_5 =>
    obtain ⟨d, hd, rfl⟩ := Option.map_eq_some_iff.1 hs
    obtain ⟨list, -, hd⟩ := Option.bind_eq_some_iff.1 hd
    exact Node.isKnownAs_of_variableNamed? hd
  case h_6 hk | h_7 hk =>
    exact isKnownAs_map_filter (fun x hx => Node.isNameIn_of_foreachVariable? hk (by decide) hx) hs
  case h_8 =>
    refine isKnownAs_map_filter (fun x hx => ?_) hs
    obtain ⟨decl, hdecl, hx⟩ := Option.bind_eq_some_iff.1 hx
    have hk := List.find?_some hdecl
    rw [Node.isAny_singleton] at hk
    exact Node.isNameIn_of_catchVariable? (Node.is_iff.1 hk) hx (hplain.caught decl x (hscope.of_childOf? hdecl) hk hx)
  case h_18 =>
    split at hs
    · next hvalue =>
      obtain ⟨owner, ho, rfl⟩ := Option.map_eq_some_iff.1 hs
      have hk := List.find?_some ho
      rw [LawfulBEq.eq_of_beq (Bool.and_eq_true_iff.1 hvalue).1]
      exact ⟨rfl, hk⟩
    · cases hs
  case h_19 =>
    split at hs
    · rw [Option.orElse_eq_orElse, Option.orElse_eq_or, Option.or_eq_some_iff] at hs
      rcases hs with hs | ⟨-, hs⟩
      · exact isKnownAs_map_parameter hs
      · obtain ⟨t, -, hs⟩ := Option.bind_eq_some_iff.1 hs
        exact isKnownAs_lookupMember? hc hs
    · cases hs
  all_goals exact isKnownAs_map_parameter hs

/-- Looking up a simple name finds a symbol of that name. -/
theorem isKnownAs_lookupName (hc : c.IsListed) (hplain : c.HasPlainNames) (hn : c.HasPlace n) (name : String)
    (arity? : Option Nat) : (c.lookupName n name arity?).IsKnownAs c name := by
  unfold lookupName
  split
  · next s hs =>
    obtain ⟨scope, hscope, hs⟩ := List.exists_of_findSome?_eq_some hs
    exact isKnownAs_inScope? hc hplain (hn.of_mem_ancestors hscope) hs
  · split
    · next t ht =>
      unfold classNamed? at ht
      have hmem : t ∈ c.typesNamed name := by
        rw [Option.orElse_eq_orElse, Option.orElse_eq_or, Option.or_eq_some_iff] at ht
        rcases ht with ht | ⟨-, ht⟩
        · exact List.mem_of_find?_eq_some ht
        · exact List.mem_of_mem_head? ht
      obtain ⟨hmem, hname⟩ := List.mem_filter.1 hmem
      exact ⟨hmem, LawfulBEq.eq_of_beq hname⟩
    · split
      · exact ⟨rfl, trivial⟩
      · exact trivial

/-! ### Declarations -/

theorem any_beq_iff {d? : Option Node} (hd : ∀ d, d? = some d → c.HasPlace d) (hn : c.HasPlace n) :
    d?.any (· == n) = true ↔ d? = some n := by
  rw [Option.any_eq_true]
  constructor
  · rintro ⟨d, hd', hdn⟩
    rw [hd', (hd d hd').eq_of_id hn (Node.beq_iff.1 hdn)]
  · intro h
    exact ⟨n, h, Node.beq_refl n⟩

private theorem isKnownAs_variableSymbol (hk : n.kind? = some .variableDeclarator) (hname : n.nameText? = some name) :
    n.variableSymbol.IsKnownAs c name := by
  unfold Node.variableSymbol
  split
  · exact ⟨hname, Node.is_iff.2 hk⟩
  · exact Symbol.isKnownAs_variable hk hname

/-- The symbol that a name declares goes by that name. -/
private theorem isKnownAs_declaredAt? (hc : c.IsListed) (hn : c.HasPlace n) (hk : n.is .identifier = true)
    (hs : c.declaredAt? n = some s) : s.IsKnownAs c n.text := by
  unfold declaredAt? at hs
  obtain ⟨decl, hdecl, hs⟩ := Option.bind_eq_some_iff.1 hs
  have hplace := (hn.of_parent? hdecl).1
  have htext : ∀ x?, (∀ x, x? = some x → c.HasPlace x) → x?.any (· == n) = true → x?.map (·.text) = some n.text := by
    intro x? hx h
    rw [(any_beq_iff hx hn).1 h, Option.map_some]
  have hname : decl.nameOf?.any (· == n) = true → decl.nameText? = some n.text :=
    htext decl.nameOf? fun x hx => hplace.of_nameOf? hx
  dsimp only at hs
  split at hs <;> split at hs
  case h_11.isTrue h => exact isKnownAs_map_typeAt? hc hplace (hname (Bool.and_eq_true_iff.1 h).2) hs
  all_goals cases hs
  case h_1.isTrue hkind h => exact isKnownAs_variableSymbol hkind (hname h)
  case h_2.isTrue hkind h =>
    refine ⟨?_, .inl (Node.is_iff.2 hkind)⟩
    rw [Symbol.name?, if_neg (by rw [Node.is_eq_of_kind? hkind]; decide)]
    exact hname h
  case h_3.isTrue hkind h => exact ⟨hname h, Node.is_iff.2 hkind⟩
  case h_4.isTrue hkind h | h_5.isTrue hkind h => exact ⟨hname h, Node.isAny_iff.2 ⟨_, by decide, hkind⟩⟩
  case h_6.isTrue hkind h | h_7.isTrue hkind h =>
    exact Symbol.isKnownAs_pattern (Node.isAny_iff.2 ⟨_, by decide, hkind⟩)
      (htext decl.lastNamed? (fun x hx => hplace.of_lastNamed? hx) h)
  case h_8.isTrue hkind _ | h_9.isTrue hkind _ | h_10.isTrue hkind _ =>
    exact Symbol.isKnownAs_identifier ⟨hk, decl, hdecl, Node.isAny_iff.2 ⟨_, by decide, hkind⟩⟩

/-! ### Expressions -/

private theorem isKnownAs_memberOf (hc : c.IsListed) (t : TypeDecl) (name : String) (arity? : Option Nat) :
    (Resolver.memberOf c t name arity?).IsKnownAs c name := by
  unfold Resolver.memberOf
  cases hs : c.lookupMember? t name arity? with
  | none => exact trivial
  | some s => exact isKnownAs_lookupMember? hc hs

private theorem isKnownAs_memberOn? (hc : c.IsListed) {r : Resolver} {receiver : Node}
    (hs : Resolver.memberOn? c r receiver name arity? = some s) : s.IsKnownAs c name := by
  unfold Resolver.memberOn? at hs
  split at hs
  · obtain ⟨t, -, rfl⟩ := Option.map_eq_some_iff.1 hs
    exact isKnownAs_memberOf hc _ _ _
  · obtain ⟨t, -, rfl⟩ := Option.map_eq_some_iff.1 hs
    exact isKnownAs_memberOf hc _ _ _
  · cases hs
    exact trivial
  · split at hs
    · cases hs
      exact isKnownAs_memberOf hc _ _ _
    · cases hs
      exact trivial
    · split at hs <;> cases hs
      · exact isKnownAs_memberOf hc _ _ _
      · exact trivial

/-- An identifier or generic name that is the name of an access or generic name is the last name of it. -/
private theorem simpleName?_of_namedAccess? (hplain : c.HasPlainNames) (hn : c.HasPlace n)
    (hk : n.isAny [.identifier, .genericName] = true) {simple access x : Node} (hsimple : n.simpleName? = some simple)
    (ha : Resolver.namedAccess? n simple = some access) (hx : access.simpleName? = some x) : x = simple := by
  have hparent := parent?_of_namedAccess? ha
  obtain ⟨hplace, hmem⟩ := hn.of_parent? hparent
  have hnamed : n ∈ access.named := by
    obtain ⟨k, hk, hn⟩ := Node.isAny_iff.1 hk
    refine Node.mem_named_of_kind? ?_ hn hmem
    rintro rfl
    exact absurd hk (by decide)
  unfold Resolver.namedAccess? at ha
  rw [hparent] at ha
  dsimp only [Option.bind_eq_bind, Option.bind_some] at ha
  split at ha
  case h_1 hkind =>
    split at ha
    · next hname =>
      obtain ⟨y, hy, hys⟩ := (Option.any_eq_true _ _).1 (Bool.and_eq_true_iff.1 hname).1
      rw [Node.memberName?_eq_simpleName? hkind, hx] at hy
      cases hy
      exact (hplace.of_simpleName? hx).eq_of_id (hn.of_simpleName? hsimple) (Node.beq_iff.1 hys)
    · cases ha
  case h_2 hkind =>
    obtain ⟨y, hy⟩ := hplain.binding access hplace (Node.is_iff.2 hkind)
    have htowards : access.towardsName? = some n := by
      rw [hy] at hnamed
      rw [Node.towardsName?, hkind, List.mem_singleton.1 hnamed, Node.lastNamed?, hy]
      rfl
    rw [Node.simpleName?_of_towardsName? htowards, hsimple] at hx
    exact (Option.some.inj hx).symm
  case h_3 hkind =>
    obtain ⟨y, hy⟩ := hplain.generic access hplace (Node.is_iff.2 hkind)
    have hone : ∀ z ∈ access.named, z.simpleName?.isSome = true → z = y := by
      intro z hz hname
      have hmem : z ∈ access.named.filter (·.simpleName?.isSome) := List.mem_filter.2 ⟨hz, hname⟩
      rw [hy] at hmem
      exact List.mem_singleton.1 hmem
    obtain ⟨first, hfirst⟩ : ∃ first, access.firstNamed? = some first :=
      Option.isSome_iff_exists.1 (List.isSome_head?.2 (List.ne_nil_of_mem hnamed))
    have htowards : access.towardsName? = some first := by rw [Node.towardsName?, hkind, hfirst]
    rw [Node.simpleName?_of_towardsName? htowards] at hx
    have hyfirst := hone first (List.mem_of_mem_head? hfirst) (by rw [hx]; rfl)
    have hyn := hone n hnamed (by rw [hsimple]; rfl)
    rw [hyfirst, ← hyn, hsimple] at hx
    exact (Option.some.inj hx).symm
  case h_4 => cases ha

private theorem isAny_namings_of_namedAccess? {simple access : Node}
    (ha : Resolver.namedAccess? n simple = some access) : access.isAny Node.namings = true := by
  unfold Resolver.namedAccess? at ha
  obtain ⟨parent, -, ha⟩ := Option.bind_eq_some_iff.1 ha
  split at ha
  case h_1 hkind =>
    split at ha
    · cases ha
      exact Node.isAny_iff.2 ⟨_, by decide, hkind⟩
    · cases ha
  case h_2 hkind | h_3 hkind =>
    cases ha
    exact Node.isAny_iff.2 ⟨_, by decide, hkind⟩
  case h_4 => cases ha

private theorem endsInNameOf_symbolStep (hc : c.IsListed) (hplain : c.HasPlainNames) {r : Resolver}
    (hr : ∀ e s, c.HasPlace e → e.isAny Node.namings = true → r.symbol? e = some s → e.EndsInNameOf c s)
    {e : Node} (he : c.HasPlace e) (hk : e.isAny Node.namings = true) (hs : Resolver.symbolStep c r e = some s) :
    e.EndsInNameOf c s := by
  unfold Resolver.symbolStep at hs
  rw [Node.stripParens_of_namings hk] at hs
  dsimp only at hs
  split at hs
  case h_1 hkind | h_2 hkind =>
    obtain ⟨simple, hsimple, hs⟩ := Option.bind_eq_some_iff.1 hs
    refine ⟨simple, hsimple, ?_⟩
    split at hs
    · next access ha =>
      obtain ⟨x, hx, hknown⟩ := hr access s (he.of_namedAccess? ha) (isAny_namings_of_namedAccess? ha) hs
      have hxs := simpleName?_of_namedAccess? hplain he (Node.isAny_iff.2 ⟨_, by decide, hkind⟩) hsimple ha hx
      rwa [hxs] at hknown
    · rw [Option.orElse_eq_orElse, Option.orElse_eq_or, Option.or_eq_some_iff] at hs
      rcases hs with hs | ⟨-, hs⟩
      · exact isKnownAs_declaredAt? hc (he.of_simpleName? hsimple) (Node.simpleName?_eq_some hsimple).2 hs
      · cases hs
        exact isKnownAs_lookupName hc hplain he _ _
  case h_3 hkind =>
    obtain ⟨receiver, -, hs⟩ := Option.bind_eq_some_iff.1 hs
    obtain ⟨member, hmember, hs⟩ := Option.bind_eq_some_iff.1 hs
    rw [Node.memberName?_eq_simpleName? hkind] at hmember
    exact ⟨member, hmember, isKnownAs_memberOn? hc hs⟩
  case h_4 =>
    obtain ⟨receiver, -, hs⟩ := Option.bind_eq_some_iff.1 hs
    obtain ⟨member, hmember, hs⟩ := Option.bind_eq_some_iff.1 hs
    exact ⟨member, hmember, isKnownAs_memberOn? hc hs⟩
  case h_5 hkind | h_6 hkind =>
    rw [Node.isAny_eq_of_kind? hkind] at hk
    exact absurd hk (by decide)
  case h_7 => cases hs

private theorem endsInNameOf_within (hc : c.IsListed) (hplain : c.HasPlainNames)
    (framework : Node → Option Framework.Call) (steps : Nat) {e : Node} (he : c.HasPlace e)
    (hk : e.isAny Node.namings = true) (hs : (Resolver.within c framework steps).symbol? e = some s) :
    e.EndsInNameOf c s := by
  induction steps generalizing e s with
  | zero => cases hs
  | succ steps ih => exact endsInNameOf_symbolStep hc hplain (fun e s he hk hs => ih he hk hs) he hk hs

/-- What an expression stands for goes by the last name of the expression. -/
theorem endsInNameOf_symbol? (hc : c.IsListed) (hplain : c.HasPlainNames) {e : Node} (he : c.HasPlace e)
    (hk : e.isAny Node.namings = true) (hs : c.model.symbol? e = some s) : e.EndsInNameOf c s :=
  endsInNameOf_within hc hplain _ _ he hk hs

/-- What an expression that ends in a name stands for has the form of its sort. -/
theorem hasForm_symbol? (hc : c.IsListed) (hplain : c.HasPlainNames) (hn : c.HasPlace n)
    (hk : n.isAny Node.namings = true) (hs : c.model.symbol? n = some s) : s.HasForm := by
  obtain ⟨x, -, hknown⟩ := endsInNameOf_symbol? hc hplain hn hk hs
  exact hknown.hasForm

/-- What an expression that ends in a name stands for is declared in the compilation. -/
private theorem isDeclaredIn_symbol? (hc : c.IsListed) (hplain : c.HasPlainNames) (hn : c.HasPlace n)
    (hk : n.isAny Node.namings = true) (hs : c.model.symbol? n = some s) : s.IsDeclaredIn c where
  node := hc.read.isIn_symbol? hn hs
  type := by
    rintro t rfl
    obtain ⟨x, -, hknown⟩ := endsInNameOf_symbol? hc hplain hn hk hs
    exact hknown.1

/-! ### Comparing names -/

/-- Equal symbols of a compilation are one symbol. -/
private theorem eq_of_beq_symbol (hc : c.IsListed) {s t : Symbol} (hs : s.IsDeclaredIn c) (ht : t.IsDeclaredIn c)
    (h : (s == t) = true) : s = t := by
  cases s with
  | type u =>
    cases t with
    | type v =>
      have hindex : u.index = v.index := LawfulBEq.eq_of_beq h
      exact congrArg _ (hc.index u (hs.type u rfl) v (ht.type v rfl) hindex)
    | _ => exact absurd h Bool.false_ne_true
  | framework f =>
    cases t with
    | framework g =>
      have hname : f = g := LawfulBEq.eq_of_beq h
      exact congrArg _ hname
    | _ => exact absurd h Bool.false_ne_true
  | external => exact absurd h Bool.false_ne_true
  | _ => exact Symbol.eq_of_beq_of_isSome rfl hs.node ht.node h

private theorem isAnswer_iff (hc : c.IsListed) {found? : Option Symbol}
    (hfound : ∀ t, found? = some t → t.IsDeclaredIn c) (hs : s.IsDeclaredIn c) (hname : s.name? = some name) :
    s.isAnswer found? = true ↔ found? = some s := by
  cases found? with
  | none => exact ⟨fun h => absurd h Bool.false_ne_true, fun h => by cases h⟩
  | some t =>
    constructor
    · intro h
      rw [eq_of_beq_symbol hc (hfound t rfl) hs h]
    · intro h
      cases h
      exact Symbol.beq_self_of_name? hname

/-- An expression that ends in a name stands for a symbol of that name. So it refers to a symbol just if it declares the
symbol or stands for it, whether names are compared first or not. -/
theorem naming_isFaithful (documents : List Document) (hplain : (ofDocuments documents).HasPlainNames) {n : Node}
    (hn : (ofDocuments documents).HasPlace n) (hk : n.isAny Node.namings = true) :
    (∀ s name, (ofDocuments documents).model.symbol? n = some s → s.name? = some name →
      n.simpleName?.map (·.text) = some name) ∧
    ∀ s name, s.IsDeclaredIn (ofDocuments documents) → s.name? = some name →
      ((ofDocuments documents).model.refersTo n s name = true ↔
        s.node? = some n ∨ (ofDocuments documents).model.symbol? n = some s) := by
  have hc := isListed_ofDocuments documents
  have hnamed : ∀ s name, (ofDocuments documents).model.symbol? n = some s → s.name? = some name →
      n.simpleName?.map (·.text) = some name := by
    intro s name hs hname
    obtain ⟨x, hx, hknown⟩ := endsInNameOf_symbol? hc hplain hn hk hs
    rw [hx, Option.map_some, hknown.name_eq hname]
  refine ⟨hnamed, fun s name hs hname => ?_⟩
  have hanswer := isAnswer_iff hc (fun t ht => isDeclaredIn_symbol? hc hplain hn hk ht) hs hname
  rw [Model.refersTo, Node.stripParens_of_namings hk, Bool.or_eq_true, Bool.and_eq_true, any_beq_iff hs.node hn,
    hanswer]
  refine or_congr_right ⟨And.right, fun h => ⟨?_, h⟩⟩
  obtain ⟨x, hx, htext⟩ := Option.map_eq_some_iff.1 (hnamed s name h hname)
  rw [hx]
  exact beq_iff_eq.2 htext

end Compilation

namespace Sample

open Sketch

/-- `class C{C x=y;void M(C c){this.x=c?.x;F<C>();try{}catch(E e){}}void F(){}}` -/
def everyName : Document :=
  document "C.cs"
    [classOf "C"
      [fieldOf [] "C" "x" (name "y"),
       method [] void "M" [parameterOf "C" "c"]
        [assign (access self "x")
          (ofKind .conditionalAccessExpression
            [name "c", token "?", ofKind .memberBindingExpression [token ".", name "x"]]),
         statement (call (ofKind .genericName
          [name "F", ofKind .typeArgumentList (between "<" ">" [name "C"])]) []),
         attempt [] "E" "e" []],
       method [] void "F" [] []]]

private theorem hasPlainNames_everyName : (Compilation.ofDocuments [everyName]).HasPlainNames := by
  have hall : ((Compilation.ofDocuments [everyName]).places.all fun n =>
      (!n.is .genericName || (n.named.filter (·.simpleName?.isSome)).length == 1) &&
        (!n.is .memberBindingExpression || n.named.length == 1) &&
        (!n.is .catchDeclaration || n.catchVariable?.all (·.is .identifier))) = true := by
    decide +kernel
  simp only [List.all_eq_true, Bool.and_eq_true, Bool.or_eq_true, Bool.not_eq_true', beq_iff_eq,
    Compilation.mem_places_iff] at hall
  refine ⟨fun n hn hk => ?_, fun n hn hk => ?_, fun n x hn hk hx => ?_⟩
  · exact List.length_eq_one_iff.1 ((hall n hn).1.1.resolve_left (by rw [hk]; decide))
  · exact List.length_eq_one_iff.1 ((hall n hn).1.2.resolve_left (by rw [hk]; decide))
  · have hvariable := (hall n hn).2.resolve_left (by rw [hk]; decide)
    rw [hx] at hvariable
    exact hvariable

end Sample

/-- The theorem for an expression of each kind. -/
theorem Compilation.naming_isFaithful_everyName :
    (ofDocuments [Sample.everyName]).HasPlainNames ∧
    ∀ k ∈ Node.namings, ∃ n s name, (ofDocuments [Sample.everyName]).HasPlace n ∧ n.kind? = some k ∧
      (ofDocuments [Sample.everyName]).model.symbol? n = some s ∧ s.name? = some name ∧
      n.simpleName?.map (·.text) = some name ∧ (ofDocuments [Sample.everyName]).model.refersTo n s name = true := by
  have hplain := Sample.hasPlainNames_everyName
  have hall : (Node.namings.all fun k => (ofDocuments [Sample.everyName]).places.any fun n => n.kind? == some k &&
      ((ofDocuments [Sample.everyName]).model.symbol? n).any fun s => s.name?.isSome) = true := by
    decide +kernel
  refine ⟨hplain, fun k hk => ?_⟩
  obtain ⟨n, hn, hany⟩ := List.any_eq_true.1 (List.all_eq_true.1 hall k hk)
  obtain ⟨hkind, hany⟩ := Bool.and_eq_true_iff.1 hany
  obtain ⟨s, hs, hname⟩ := (Option.any_eq_true _ _).1 hany
  obtain ⟨name, hname⟩ := Option.isSome_iff_exists.1 hname
  have hn := mem_places_iff.1 hn
  have hkind := LawfulBEq.eq_of_beq hkind
  have hnaming : n.isAny Node.namings = true := Node.isAny_iff.2 ⟨k, hk, hkind⟩
  have hdeclared := isDeclaredIn_symbol? (isListed_ofDocuments _) hplain hn hnaming hs
  have htheorem := naming_isFaithful [Sample.everyName] hplain hn hnaming
  exact ⟨n, s, name, hn, hkind, hs, hname, htheorem.1 s name hs hname, (htheorem.2 s name hdeclared hname).2 (.inr hs)⟩

end Disposal

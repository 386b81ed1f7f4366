import Disposal.Proofs.Guards
import Disposal.Proofs.Jumps
import Disposal.Proofs.Sites

/-!
# Straight-line bodies

A body is a straight line for a local `x` when it is one block in which `x` is declared and every other statement is
`x.Dispose();`, `x?.Dispose();`, an assignment `x = e;`, or does not mention `x` at all (`IsStraightLine`). In such a
body the name `x` stands for the local that is declared.

* `Node.exists_releaseParts`: what a dispose call releases;
* `Node.mem_preorder_of_isReleaseCall`: there is nothing else in its statement;
* `IsStraightLine.inBlock?_eq`: what the name stands for;
* `IsStraightLine.refersTo_receiver`, `IsStraightLine.refersTo_left`: dispose calls and assignments refer to the local.
-/

namespace Disposal

namespace Node

/-! ### Statements -/

/-- Whether the node is a token with nothing below it. -/
def isMark (text : String) (n : Node) : Bool := n.isToken text && n.field?.isNone && n.children.isEmpty

/-- Whether the node is a name. -/
def isName (x : String) (n : Node) : Bool := n.is .identifier && n.text == x

/-- Whether there is nothing below the node but tokens; a name that is also a keyword stands above its token. -/
def isBare (n : Node) : Bool := n.children.all fun t => !t.isNamed && t.children.isEmpty

/-- `x.Dispose` -/
def isPlainAccess (x : String) (n : Node) : Bool :=
  match n.children with
  | [receiver, dot, member] =>
    n.is .memberAccessExpression && receiver.isName x && receiver.isBare && receiver.field? == some .expression &&
      dot.isMark "." && member.isName "Dispose" && member.isBare && member.field? == some .name
  | _ => false

/-- `.Dispose` -/
def isBinding (n : Node) : Bool :=
  match n.children with
  | [dot, member] => n.is .memberBindingExpression && dot.isMark "." && member.isName "Dispose" && member.isBare
  | _ => false

/-- `x?.Dispose` -/
def isGuardedAccess (x : String) (n : Node) : Bool :=
  match n.children with
  | [receiver, mark, binding] =>
    n.is .conditionalAccessExpression && receiver.isName x && receiver.isBare && mark.isMark "?" && binding.isBinding
  | _ => false

/-- `()` -/
def isEmptyArguments (n : Node) : Bool :=
  match n.children with
  | [opening, closing] => n.is .argumentList && opening.isMark "(" && closing.isMark ")"
  | _ => false

/-- `x.Dispose()` or `x?.Dispose()` -/
def isReleaseCall (x : String) (n : Node) : Bool :=
  match n.children with
  | [function, arguments] =>
    n.is .invocationExpression && (function.isPlainAccess x || function.isGuardedAccess x) &&
      function.field? == some .function && arguments.isEmptyArguments && arguments.field? == some .arguments
  | _ => false

/-- `x = e` -/
def assignsName (x : String) (n : Node) : Bool :=
  n.assignment?.any fun s => s.left.isName x && s.operator == "="

/-- The expression of `e;`. -/
def expression? (n : Node) : Option Node :=
  match n.children with
  | [e, semicolon] => if n.is .expressionStatement && semicolon.isMark ";" then some e else none
  | _ => none

/-- `x.Dispose();` or `x?.Dispose();` -/
def isRelease (x : String) (n : Node) : Bool := n.expression?.any (·.isReleaseCall x)

/-- `x = e;` -/
def isOverwrite (x : String) (n : Node) : Bool := n.expression?.any (·.assignsName x)

/-- Whether the node neither mentions the name nor declares a variable or function. -/
def isIdle (x : String) (n : Node) : Bool :=
  !n.isAny [.localDeclarationStatement, .localFunctionStatement] && n.preorder.all fun m => !m.isName x

/-- Whether a pattern or an `out` argument, outside the functions in the node, declares the name. -/
def redeclares (x : String) (n : Node) : Bool :=
  (n.walk fun m => !m.isLambda).any fun m =>
    m.isAny [.declarationExpression, .declarationPattern] && m.lastNamed?.any (·.isName x)

/-! ### What the statements consist of -/

variable {x text : String} {n m e p : Node}

theorem isName_iff : n.isName x = true ↔ n.kind? = some .identifier ∧ n.text = x := by
  rw [isName, Bool.and_eq_true, is_iff, beq_iff_eq]

private theorem isMark_iff : n.isMark text = true ↔ n.isToken text = true ∧ n.field? = none ∧ n.children = [] := by
  rw [isMark, Bool.and_eq_true, Bool.and_eq_true, Option.isNone_iff_eq_none, List.isEmpty_iff, and_assoc]

private theorem isNamed_of_isMark (h : n.isMark text = true) : n.isNamed = false := by
  have hlabel : n.label = .token text := LawfulBEq.eq_of_beq (isMark_iff.1 h).1
  rw [isNamed, hlabel]
  rfl

private theorem isShown_of_isMark (h : n.isMark text = true) : (n.isNamed && !n.isTrivia) = false := by
  rw [isNamed_of_isMark h]
  rfl

private theorem IsQuiet.of_isMark (h : n.isMark text = true) : n.IsQuiet :=
  .of_token (isNamed_of_isMark h) (isMark_iff.1 h).2.2

private theorem IsQuiet.of_isName (h : n.isName x = true) (hbare : n.isBare = true) : n.IsQuiet := by
  refine .of_children ?_ ?_
  · rw [isAny_eq_of_kind? (isName_iff.1 h).1]
    rfl
  · intro t ht
    have hleaf := List.all_eq_true.1 hbare t ht
    rw [Bool.and_eq_true, Bool.not_eq_true', List.isEmpty_iff] at hleaf
    exact .of_token hleaf.1 hleaf.2

/-- The parts of a statement that consists of an expression. -/
theorem expression?_eq_some (h : p.expression? = some e) :
    p.kind? = some .expressionStatement ∧ ∃ semicolon, p.children = [e, semicolon] ∧ semicolon.isMark ";" = true := by
  unfold expression? at h
  split at h
  · next semicolon hchildren =>
    split at h
    · next hk =>
      cases h
      rw [Bool.and_eq_true] at hk
      exact ⟨is_iff.1 hk.1, semicolon, hchildren, hk.2⟩
    · cases h
  · cases h

theorem mem_children_of_expression? (h : p.expression? = some e) : e ∈ p.children := by
  obtain ⟨-, semicolon, hchildren, -⟩ := expression?_eq_some h
  rw [hchildren]
  exact List.mem_cons_self

theorem expression?_mem_preorder (h : p.expression? = some e) : e ∈ p.preorder :=
  mem_preorder_of_mem_children (mem_children_of_expression? h)

/-- What is below a statement with an expression is in the expression, or neither a call nor a write. -/
theorem mem_preorder_of_expression? (h : p.expression? = some e) (hm : m ∈ p.preorder) :
    m ∈ e.preorder ∨ m.isAny actions = false := by
  obtain ⟨hk, semicolon, hchildren, hmark⟩ := expression?_eq_some h
  rcases mem_preorder_iff.1 hm with rfl | ⟨c, hc, hmc⟩
  · right
    rw [isAny_eq_of_kind? hk]
    rfl
  · rw [hchildren] at hc
    simp only [List.mem_cons, List.not_mem_nil, or_false] at hc
    rcases hc with rfl | rfl
    · exact .inl hmc
    · exact .inr (IsQuiet.of_isMark hmark m hmc)

/-- A called `x.Dispose` or `x?.Dispose`, with the `x`. -/
structure DisposesOf (x : String) (function receiver : Node) : Prop where
  mem : receiver ∈ function.children
  name : receiver.isName x = true
  kind : ∃ k, function.kind? = some k ∧ k ∈ Compilation.useHolders
  plain : Resolver.namedAccess? receiver receiver = none
  quiet : function.IsQuiet
  invoked : ∃ member : Node, member.text = "Dispose" ∧
    ∀ call : Node, call.function? = some function → call.invoked? = some (member, some receiver)

private theorem exists_disposesOf_plain {f : Node} (h : f.isPlainAccess x = true) :
    ∃ receiver, DisposesOf x f receiver := by
  unfold isPlainAccess at h
  split at h
  case h_2 => cases h
  case h_1 receiver dot member hchildren =>
    simp only [Bool.and_eq_true, beq_iff_eq] at h
    obtain ⟨⟨⟨⟨⟨⟨⟨hkind, hname⟩, hbare⟩, hfield⟩, hdot⟩, hmember⟩, hbare'⟩, hfield'⟩ := h
    have hk := is_iff.1 hkind
    have hmem : receiver ∈ f.children := by simp [hchildren]
    have hmemberName : f.memberName? = some member := by
      have : f.field .name = some member := by simp [field, hchildren, hfield, (isMark_iff.1 hdot).2.1, hfield']
      rw [memberName?, this]
      exact simpleName?_of_identifier (isName_iff.1 hmember).1
    have hreceiver : f.memberReceiver? = some receiver := by
      have : f.field .expression = some receiver := by simp [field, hchildren, hfield]
      rw [memberReceiver?, this]
      rfl
    refine ⟨receiver, hmem, hname, ⟨_, hk, by decide⟩, ?_, ?_, member, (isName_iff.1 hmember).2, ?_⟩
    · rw [Resolver.namedAccess?, parent?_of_mem_children hmem]
      simp [hk, hreceiver, beq_refl]
    · refine .of_children (by rw [isAny_eq_of_kind? hk]; rfl) ?_
      simp only [hchildren, List.mem_cons, List.not_mem_nil, or_false, forall_eq_or_imp, forall_eq]
      exact ⟨.of_isName hname hbare, .of_isMark hdot, .of_isName hmember hbare'⟩
    · intro call hcall
      simp [invoked?, hcall, stripParens_of_kind? hk (by decide), hk, hmemberName, hreceiver]

private theorem simpleName?_of_isBinding (h : n.isBinding = true) :
    n.kind? = some .memberBindingExpression ∧ n.IsQuiet ∧
      ∃ member, n.simpleName? = some member ∧ member.text = "Dispose" := by
  unfold isBinding at h
  split at h
  case h_2 => cases h
  case h_1 dot member hchildren =>
    simp only [Bool.and_eq_true] at h
    obtain ⟨⟨⟨hkind, hdot⟩, hmember⟩, hbare⟩ := h
    have hk := is_iff.1 hkind
    obtain ⟨hident, htext⟩ := isName_iff.1 hmember
    refine ⟨hk, .of_children (by rw [isAny_eq_of_kind? hk]; rfl) ?_, member, ?_, htext⟩
    · simp only [hchildren, List.mem_cons, List.not_mem_nil, or_false, forall_eq_or_imp, forall_eq]
      exact ⟨.of_isMark hdot, .of_isName hmember hbare⟩
    · have hto : n.towardsName? = some member := by
        rw [towardsName?, hk]
        simp [lastNamed?, named, hchildren, isShown_of_isMark hdot, isShown_of_kind? (by decide) hident]
      rw [simpleName?, follow_eq mem_children_of_towardsName?, hto]
      exact simpleName?_of_identifier hident

private theorem exists_disposesOf_guarded {f : Node} (h : f.isGuardedAccess x = true) :
    ∃ receiver, DisposesOf x f receiver := by
  unfold isGuardedAccess at h
  split at h
  case h_2 => cases h
  case h_1 receiver mark binding hchildren =>
    simp only [Bool.and_eq_true] at h
    obtain ⟨⟨⟨⟨hkind, hname⟩, hbare⟩, hmark⟩, hbinding⟩ := h
    obtain ⟨hbindingKind, hquiet, member, hmember, htext⟩ := simpleName?_of_isBinding hbinding
    have hk := is_iff.1 hkind
    have hshown := isShown_of_kind? (by decide) (isName_iff.1 hname).1
    have hmem : receiver ∈ f.children := by simp [hchildren]
    have hfirst : f.firstNamed? = some receiver := by simp [firstNamed?, named, hchildren, hshown]
    have hlast : f.lastNamed? = some binding := by
      simp [lastNamed?, named, hchildren, hshown, isShown_of_isMark hmark, isShown_of_kind? (by decide) hbindingKind]
    refine ⟨receiver, hmem, hname, ⟨_, hk, by decide⟩, ?_, ?_, member, htext, ?_⟩
    · rw [Resolver.namedAccess?, parent?_of_mem_children hmem]
      simp [hk]
    · refine .of_children (by rw [isAny_eq_of_kind? hk]; rfl) ?_
      simp only [hchildren, List.mem_cons, List.not_mem_nil, or_false, forall_eq_or_imp, forall_eq]
      exact ⟨.of_isName hname hbare, .of_isMark hmark, hquiet⟩
    · intro call hcall
      simp [invoked?, hcall, stripParens_of_kind? hk (by decide), hk, hlast, hfirst, hmember]

private theorem named_of_isEmptyArguments (h : n.isEmptyArguments = true) : n.named = [] ∧ n.IsQuiet := by
  unfold isEmptyArguments at h
  split at h
  case h_2 => cases h
  case h_1 opening closing hchildren =>
    simp only [Bool.and_eq_true] at h
    obtain ⟨⟨hlist, hopening⟩, hclosing⟩ := h
    refine ⟨by simp [named, hchildren, isShown_of_isMark hopening, isShown_of_isMark hclosing], .of_children ?_ ?_⟩
    · rw [isAny_eq_of_kind? (is_iff.1 hlist)]
      rfl
    · simp only [hchildren, List.mem_cons, List.not_mem_nil, or_false, forall_eq_or_imp, forall_eq]
      exact ⟨.of_isMark hopening, .of_isMark hclosing⟩

/-- A dispose call with what is called and what is released. -/
structure ReleaseParts (x : String) (e function receiver : Node) : Prop where
  kind : e.kind? = some .invocationExpression
  mem : function ∈ e.children
  disposes : DisposesOf x function receiver
  released : e.disposeReceiver? = some receiver
  quiet : ∀ m ∈ e.preorder, m = e ∨ m.isAny actions = false

/-- What a dispose call releases. -/
theorem exists_releaseParts (h : e.isReleaseCall x = true) :
    ∃ function receiver, ReleaseParts x e function receiver := by
  unfold isReleaseCall at h
  split at h
  case h_2 => cases h
  case h_1 function arguments hchildren =>
    simp only [Bool.and_eq_true, Bool.or_eq_true, beq_iff_eq] at h
    obtain ⟨⟨⟨⟨hk, haccess⟩, hfunction⟩, hempty⟩, harguments⟩ := h
    obtain ⟨receiver, hd⟩ := haccess.elim exists_disposesOf_plain exists_disposesOf_guarded
    obtain ⟨hnamed, hquiet⟩ := named_of_isEmptyArguments hempty
    refine ⟨function, receiver, is_iff.1 hk, by simp [hchildren], hd, ?_, ?_⟩
    · obtain ⟨member, htext, hinvoked⟩ := hd.invoked
      have hcalled : e.invoked? = some (member, some receiver) := by
        apply hinvoked
        simp [function?, field, hchildren, hfunction]
      have hnone : e.arguments = [] := by
        simp [Node.arguments, argumentList?, field, hchildren, hfunction, harguments, namedOf, hnamed]
      have hkept : receiver.isAny [.thisExpression, .baseExpression] = false := by
        rw [isAny_eq_of_kind? (isName_iff.1 hd.name).1]
        rfl
      simp [disposeReceiver?, hk, hcalled, htext, hnone, hkept]
    · intro m hm
      rcases mem_preorder_iff.1 hm with rfl | ⟨c, hc, hmc⟩
      · exact .inl rfl
      · simp only [hchildren, List.mem_cons, List.not_mem_nil, or_false] at hc
        rcases hc with rfl | rfl
        · exact .inr (hd.quiet m hmc)
        · exact .inr (hquiet m hmc)

/-- In the statement of a dispose call there is no other call and no write. -/
theorem mem_preorder_of_isReleaseCall (h : p.expression? = some e) (he : e.isReleaseCall x = true)
    (hm : m ∈ p.preorder) : m = e ∨ m.isAny actions = false := by
  obtain ⟨function, receiver, hparts⟩ := exists_releaseParts he
  rcases mem_preorder_of_expression? h hm with hm | hm
  · exact hparts.quiet m hm
  · exact .inr hm

/-- The parts of an assignment to a name. -/
theorem exists_of_assignsName (h : n.assignsName x = true) :
    n.kind? = some .assignmentExpression ∧
      ∃ s, n.assignment? = some s ∧ s.left ∈ n.children ∧ s.left.isName x = true ∧ s.operator = "=" := by
  obtain ⟨s, hs, h⟩ := (Option.any_eq_true _ _).1 h
  rw [Bool.and_eq_true, beq_iff_eq] at h
  obtain ⟨hk, hleft, -⟩ := kind_of_assignment? hs
  exact ⟨hk, s, hs, hleft, h.1, h.2⟩

/-- A dispose call is not an assignment. -/
theorem not_assignsName (h : e.isReleaseCall x = true) : ¬ e.assignsName x = true := by
  intro ha
  obtain ⟨function, receiver, hparts⟩ := exists_releaseParts h
  have := (exists_of_assignsName ha).1
  rw [hparts.kind] at this
  cases this

end Node

namespace Compilation

/-- The nodes around the use of a name in a statement, which hold no variables of their own. -/
def plainHolders : List Kind := [.expressionStatement, .invocationExpression] ++ useHolders

private theorem inScope?_eq_none {c : Compilation} {use scope : Node} {x : String} {arity? : Option Nat} {k : Kind}
    (hk : scope.kind? = some k) (hplain : k ∈ plainHolders) : c.inScope? use x arity? scope = none := by
  have htype : scope.isTypeDeclaration = false := by
    rw [Node.isTypeDeclaration, Node.isAny_eq_of_kind? hk]
    clear hk
    revert k
    decide
  simp only [plainHolders, useHolders, List.cons_append, List.nil_append, List.mem_cons, List.not_mem_nil,
    or_false] at hplain
  unfold inScope?
  rcases hplain with rfl | rfl | rfl | rfl | rfl <;> simp [hk, htype]

end Compilation

/-! ### Bodies -/

/-- A body that is a straight line for the local `x`, which the variable `d` of a statement of its block declares. The
name is not declared again by a pattern or an `out` argument, spans are nested and statements are not empty, the only
regions in the block are functions, and there is no `goto`. -/
structure IsStraightLine (x : String) (region block declaration d : Node) : Prop where
  bounds : region.isRegion = true
  body : block ∈ region.children
  kind : block.kind? = some .block
  declared : declaration ∈ block.children
  declares : declaration.kind? = some .localDeclarationStatement
  names : declaration.variableDeclaration?.bind (·.variableNamed? x) = some d
  plain : ∀ p ∈ block.children, p = declaration ∨ p.isIdle x = true ∨
    (p.isRelease x || p.isOverwrite x) = true ∧ declaration.start < p.start
  once : ∀ p ∈ block.children, p.redeclares x = false
  nested : ∀ n ∈ block.preorder, n.isNested = true
  filled : ∀ p ∈ block.children, p.start < p.stop
  functions : ∀ n ∈ block.preorder, n.isRegion = true → n.isLambda = true
  straight : Order.hasGoto region = false

/-- The variable that a statement of a block declares, if the block is then a straight line for it. -/
def straightVariable? (x : String) (region block declaration : Node) : Option Node := do
  let d ← declaration.variableDeclaration?.bind (·.variableNamed? x)
  if region.isRegion && block.is .block && declaration.is .localDeclarationStatement &&
      (block.children.all fun p => (p == declaration || p.isIdle x ||
        ((p.isRelease x || p.isOverwrite x) && decide (declaration.start < p.start))) &&
          !p.redeclares x && decide (p.start < p.stop)) &&
      (block.preorder.all fun n => n.isNested && (!n.isRegion || n.isLambda)) && !Order.hasGoto region
  then some d else none

namespace IsStraightLine

variable {c : Compilation} {x : String} {region block declaration d : Node}

theorem of_straightVariable? (hblock : block ∈ region.children) (hdeclaration : declaration ∈ block.children)
    (h : straightVariable? x region block declaration = some d) : IsStraightLine x region block declaration d := by
  unfold straightVariable? at h
  obtain ⟨v, hv, h⟩ := Option.bind_eq_some_iff.1 h
  split at h
  · next hcheck =>
    cases h
    simp only [Bool.and_eq_true, List.all_eq_true, decide_eq_true_eq, Bool.not_eq_true', Bool.or_eq_true] at hcheck
    obtain ⟨⟨⟨⟨⟨hregion, hkind⟩, hdeclares⟩, hstatements⟩, hnodes⟩, hgoto⟩ := hcheck
    refine ⟨hregion, hblock, Node.is_iff.1 hkind, hdeclaration, Node.is_iff.1 hdeclares, hv, ?_,
      fun p hp => (hstatements p hp).1.2, fun n hn => (hnodes n hn).1, fun p hp => (hstatements p hp).2, ?_, hgoto⟩
    · intro p hp
      rcases (hstatements p hp).1.1 with (heq | hidle) | ⟨hplain, hlt⟩
      · exact .inl (Node.eq_of_mem_children hp hdeclaration (Node.beq_iff.1 heq))
      · exact .inr (.inl hidle)
      · exact .inr (.inr ⟨Bool.or_eq_true_iff.2 hplain, hlt⟩)
    · intro n hn hnregion
      refine (hnodes n hn).2.resolve_left ?_
      rw [hnregion]
      decide
  · cases h

variable (h : IsStraightLine x region block declaration d)

include h

/-- The variable stands in the list of the statement that declares it. -/
theorem exists_variable : ∃ list ∈ declaration.children, d ∈ list.declarators ∧ d.nameText? = some x := by
  obtain ⟨list, hlist, hd⟩ := Option.bind_eq_some_iff.1 h.names
  rw [Node.variableDeclaration?, Node.is_eq_of_kind? h.declares] at hlist
  have hname := List.find?_some hd
  exact ⟨list, Node.mem_children_of_childOf? hlist, List.mem_of_find?_eq_some hd, LawfulBEq.eq_of_beq hname⟩

theorem mem_declaration : d ∈ declaration.preorder := by
  obtain ⟨list, hlist, hd, -⟩ := h.exists_variable
  exact Node.mem_preorder_of_child hlist (Node.mem_preorder_of_mem_children (Node.mem_children_of_namedOf hd))

theorem kind?_eq : d.kind? = some .variableDeclarator := by
  obtain ⟨list, -, hd, -⟩ := h.exists_variable
  exact Node.is_iff.1 (List.mem_filter.1 hd).2

theorem name?_eq : (Symbol.localVar d).name? = some x := by
  obtain ⟨list, -, -, hname⟩ := h.exists_variable
  simp only [Symbol.name?, h.kind?_eq]
  exact hname

/-- A statement other than the declaration declares nothing. -/
private theorem kind?_ne_of_ne {p : Node} (hp : p ∈ block.children) (hne : p ≠ declaration) :
    p.isAny [.localDeclarationStatement, .localFunctionStatement] = false := by
  rcases h.plain p hp with heq | hidle | ⟨hplain, -⟩
  · exact absurd heq hne
  · rw [Node.isIdle, Bool.and_eq_true, Bool.not_eq_true'] at hidle
    exact hidle.1
  · have hk : p.kind? = some .expressionStatement := by
      rcases Bool.or_eq_true_iff.1 hplain with hp | hp <;> obtain ⟨e, he, -⟩ := (Option.any_eq_true _ _).1 hp
      · exact (Node.expression?_eq_some he).1
      · exact (Node.expression?_eq_some he).1
    rw [Node.isAny_eq_of_kind? hk]
    rfl

/-- The local that a statement of the block declares under the name is `d`. -/
private theorem localOfStatement?_eq {p use : Node} (hp : p ∈ block.children) (hstart : p.start ≤ use.start) :
    p.localOfStatement? use x = if p.is .localDeclarationStatement then some d else none := by
  have hpattern : p.patternDeclaration? use x = none := by
    rw [Node.patternDeclaration?, List.getLast?_eq_none_iff, List.filter_eq_nil_iff]
    intro m hm hdeclares
    rw [Bool.and_eq_true] at hdeclares
    have honce := List.any_eq_false.1 (h.once p hp) m (Node.mem_walk_mono ?_ hm)
    · exact honce hdeclares.2
    · intro m hm
      simp only [Bool.and_eq_true] at hm
      exact hm.1.2
  rw [Node.localOfStatement?, if_pos hstart, hpattern]
  by_cases hk : p.is .localDeclarationStatement = true
  · by_cases heq : p = declaration
    · rw [heq, h.names, if_pos (Node.is_iff.2 h.declares)]
      rfl
    · have := h.kind?_ne_of_ne hp heq
      rw [Node.isAny_eq_of_kind? (Node.is_iff.1 hk)] at this
      cases this
  · rw [if_neg hk, if_neg hk]
    rfl

/-- Behind the declaration the name stands for the local. -/
theorem inBlock?_eq {use : Node} (hstart : declaration.start ≤ use.start) :
    block.inBlock? use x = some (.localVar d) := by
  have hfunction : (block.named.find? fun s => s.is .localFunctionStatement && s.nameText? == some x) = none := by
    rw [List.find?_eq_none]
    intro p hp hk
    rw [Bool.and_eq_true] at hk
    have hkind := Node.is_iff.1 hk.1
    by_cases heq : p = declaration
    · rw [heq, h.declares] at hkind
      cases hkind
    · have := h.kind?_ne_of_ne (Node.mem_children_of_named hp) heq
      rw [Node.isAny_eq_of_kind? hkind] at this
      cases this
  have hall : ∀ v ∈ block.named.filterMap (·.localOfStatement? use x), v = d := by
    intro v hv
    obtain ⟨p, hp, hv⟩ := List.mem_filterMap.1 hv
    by_cases hle : p.start ≤ use.start
    · rw [h.localOfStatement?_eq (Node.mem_children_of_named hp) hle] at hv
      split at hv
      · exact (Option.some.inj hv).symm
      · cases hv
    · rw [Node.localOfStatement?, if_neg hle] at hv
      cases hv
  have hd : d ∈ block.named.filterMap (·.localOfStatement? use x) := by
    refine List.mem_filterMap.2 ⟨declaration, List.mem_filter.2 ⟨h.declared, ?_⟩, ?_⟩
    · exact Node.isShown_of_kind? (by decide) h.declares
    · rw [h.localOfStatement?_eq h.declared hstart, if_pos (Node.is_iff.2 h.declares)]
  rw [Node.inBlock?, hfunction]
  dsimp only
  rw [List.getLast?_eq_some_getLast (List.ne_nil_of_mem hd), hall _ (List.getLast_mem _)]
  rfl

/-- A use of the name in a statement behind the declaration refers to the local. -/
private theorem refersTo_of_ancestors {n p q : Node} {k : Kind} {inner : List Node} (hn : n.isName x = true)
    (hq : n.parent? = some q) (hqk : q.kind? = some k) (hk : k ∈ Compilation.useHolders)
    (haccess : Resolver.namedAccess? n n = none) (hup : n.ancestors = inner ++ p.ancestors)
    (hinner : ∀ m ∈ inner, ∃ k, m.kind? = some k ∧ k ∈ Compilation.plainHolders) (hp : p ∈ block.children)
    (hmem : n ∈ p.preorder) (hstart : declaration.start < p.start) :
    c.model.refersTo n (.localVar d) x = true := by
  obtain ⟨hnk, htext⟩ := Node.isName_iff.1 hn
  have hle : declaration.start ≤ n.start := by
    have := (Order.start_le_of_mem_preorder (fun m hm => h.nested m (Node.mem_preorder_of_child hp hm)) hmem).1
    omega
  have hlookup : c.lookupName n x n.callArity? = .localVar d := by
    have hnone : inner.findSome? (c.inScope? n x n.callArity?) = none := by
      rw [List.findSome?_eq_none_iff]
      intro m hm
      obtain ⟨k, hmk, hk⟩ := hinner m hm
      exact Compilation.inScope?_eq_none hmk hk
    have hblock : c.inScope? n x n.callArity? block = some (.localVar d) := by
      unfold Compilation.inScope?
      simp only [h.kind]
      exact h.inBlock?_eq hle
    rw [Compilation.lookupName, hup, List.findSome?_append, hnone, Node.ancestors_of_mem_children hp,
      List.findSome?_cons, hblock]
    rfl
  have hsymbol : c.model.symbol? n = some (.localVar d) := by
    rw [Compilation.symbol?_of_use hnk hq hqk (List.mem_append_right _ hk) haccess, htext, hlookup]
  have hsame : (Symbol.localVar d).isAnswer (some (.localVar d)) = true := Node.beq_refl d
  simp only [Model.refersTo, Node.stripParens_of_kind? hnk (by decide), Node.simpleName?_of_identifier hnk, htext,
    hsymbol, hsame, Option.any_some, beq_self_eq_true, Bool.and_self, Bool.or_true]

/-- What a dispose call releases is the local. -/
theorem refersTo_receiver {p e function receiver : Node} (hp : p ∈ block.children) (he : p.expression? = some e)
    (hparts : Node.ReleaseParts x e function receiver) (hstart : declaration.start < p.start) :
    c.model.refersTo receiver (.localVar d) x = true := by
  have hep := Node.mem_children_of_expression? he
  have hd := hparts.disposes
  obtain ⟨k, hk, huse⟩ := hd.kind
  have hup : receiver.ancestors = [function, e, p] ++ p.ancestors := by
    rw [Node.ancestors_of_mem_children hd.mem, Node.ancestors_of_mem_children hparts.mem,
      Node.ancestors_of_mem_children hep]
    rfl
  refine h.refersTo_of_ancestors hd.name (Node.parent?_of_mem_children hd.mem) hk huse hd.plain hup ?_ hp ?_ hstart
  · simp only [List.mem_cons, List.not_mem_nil, or_false, forall_eq_or_imp, forall_eq]
    exact ⟨⟨k, hk, List.mem_append_right _ huse⟩, ⟨_, hparts.kind, by decide⟩,
      _, (Node.expression?_eq_some he).1, by decide⟩
  · exact Node.mem_preorder_of_child hep (Node.mem_preorder_of_child hparts.mem
      (Node.mem_preorder_of_mem_children hd.mem))

/-- What an assignment to the name assigns to is the local. -/
theorem refersTo_left {p n left : Node} (hp : p ∈ block.children) (he : p.expression? = some n)
    (hk : n.kind? = some .assignmentExpression) (hleft : left ∈ n.children) (hname : left.isName x = true)
    (hstart : declaration.start < p.start) : c.model.refersTo left (.localVar d) x = true := by
  have hnp := Node.mem_children_of_expression? he
  have hparent := Node.parent?_of_mem_children hleft
  have hup : left.ancestors = [n, p] ++ p.ancestors := by
    rw [Node.ancestors_of_mem_children hleft, Node.ancestors_of_mem_children hnp]
    rfl
  refine h.refersTo_of_ancestors hname hparent hk (by decide) ?_ hup ?_ hp ?_ hstart
  · rw [Resolver.namedAccess?, hparent]
    simp [hk]
  · simp only [List.mem_cons, List.not_mem_nil, or_false, forall_eq_or_imp, forall_eq]
    exact ⟨⟨_, hk, by decide⟩, _, (Node.expression?_eq_some he).1, by decide⟩
  · exact Node.mem_preorder_of_child hnp (Node.mem_preorder_of_mem_children hleft)

end IsStraightLine

end Disposal

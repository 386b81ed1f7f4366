import Disposal.Proofs.Names
import Disposal.Protocol

/-!
# Guards

What a condition can come to where a parameter is false. A condition is put together from the parameter, literals and
atoms by `!`, `&&`, `||` and comparisons with a literal (`Node.condition`); an atom is any other expression and may
have either value each time it is evaluated (`Node.ComesTo`).

* `Guard.text_of_isAnswer`: a name in a condition that stands for a parameter is the name of the parameter;
* `Guard.sound`: a condition with a guard comes to one value only where the parameter is false.
-/

namespace Disposal

/-- How a condition is put together. -/
inductive Condition where
  | enclosed (inner : Node)
  /-- The parameter in question. -/
  | parameter
  | literal (value : Bool)
  | negation (operand : Node)
  | conjunction (left right : Node)
  | disjunction (left right : Node)
  /-- `==` or else `!=`, with a literal on one side at least. -/
  | comparison (equal : Bool) (left right : Node)
  | atom

namespace Condition

/-- An operation on two operands, as far as it is one on conditions. -/
def ofOperator (operator : String) (left right : Node) : Condition :=
  let literal := left.is .booleanLiteral || right.is .booleanLiteral
  match operator with
  | "&&" => conjunction left right
  | "||" => disjunction left right
  | "==" => if literal then comparison true left right else atom
  | "!=" => if literal then comparison false left right else atom
  | _ => atom

end Condition

namespace Node

/-- How a node is put together as a condition on the parameter with a name. -/
def condition (name : String) (n : Node) : Condition :=
  match n.kind?, n.firstNamed?, n.lastNamed? with
  | some .identifier, _, _ => if n.text == name then .parameter else .atom
  | some .booleanLiteral, _, _ => .literal (n.text == "true")
  | some .parenthesizedExpression, some inner, _ => .enclosed inner
  | some .prefixUnaryExpression, some operand, _ => if n.unaryOperator == "!" then .negation operand else .atom
  | some .binaryExpression, some left, some right => .ofOperator (n.binaryOperator?.getD "") left right
  | _, _, _ => .atom

/-- The condition can come to the value where the parameter with the name is false. -/
inductive ComesTo (name : String) : Node → Bool → Prop
  | enclosed {n inner : Node} {b : Bool} (hn : n.condition name = .enclosed inner) (h : ComesTo name inner b) :
      ComesTo name n b
  | parameter {n : Node} (hn : n.condition name = .parameter) : ComesTo name n false
  | literal {n : Node} {b : Bool} (hn : n.condition name = .literal b) : ComesTo name n b
  | negation {n operand : Node} {b : Bool} (hn : n.condition name = .negation operand)
      (h : ComesTo name operand b) : ComesTo name n !b
  -- the right operand is evaluated only if the left one does not decide
  | refuted {n left right : Node} (hn : n.condition name = .conjunction left right)
      (h : ComesTo name left false) : ComesTo name n false
  | conjunction {n left right : Node} {b : Bool} (hn : n.condition name = .conjunction left right)
      (h : ComesTo name left true) (h' : ComesTo name right b) : ComesTo name n b
  | settled {n left right : Node} (hn : n.condition name = .disjunction left right)
      (h : ComesTo name left true) : ComesTo name n true
  | disjunction {n left right : Node} {b : Bool} (hn : n.condition name = .disjunction left right)
      (h : ComesTo name left false) (h' : ComesTo name right b) : ComesTo name n b
  | comparison {n left right : Node} {equal a b : Bool} (hn : n.condition name = .comparison equal left right)
      (h : ComesTo name left a) (h' : ComesTo name right b) : ComesTo name n ((a == b) == equal)
  | atom {n : Node} (hn : n.condition name = .atom) (b : Bool) : ComesTo name n b

variable {name : String} {n : Node}

/-- What the operands of a condition that comes to a value come to. -/
private theorem ComesTo.operands {b : Bool} (h : n.ComesTo name b) :
    match n.condition name with
    | .enclosed inner => inner.ComesTo name b
    | .parameter => b = false
    | .literal v => b = v
    | .negation operand => operand.ComesTo name !b
    | .conjunction left right =>
      (b = false ∧ left.ComesTo name false) ∨ (left.ComesTo name true ∧ right.ComesTo name b)
    | .disjunction left right =>
      (b = true ∧ left.ComesTo name true) ∨ (left.ComesTo name false ∧ right.ComesTo name b)
    | .comparison equal left right =>
      ∃ x y, left.ComesTo name x ∧ right.ComesTo name y ∧ b = ((x == y) == equal)
    | .atom => True := by
  cases h with
  | enclosed hn h => rw [hn]; exact h
  | parameter hn | literal hn => rw [hn]
  | negation hn h => rw [hn, Bool.not_not]; exact h
  | refuted hn h | settled hn h => rw [hn]; exact Or.inl ⟨rfl, h⟩
  | conjunction hn h h' | disjunction hn h h' => rw [hn]; exact Or.inr ⟨h, h'⟩
  | comparison hn h h' => rw [hn]; exact ⟨_, _, h, h', rfl⟩
  | atom hn => rw [hn]; trivial

/-! ### Conditions in the tree -/

/-- The nodes that conditions and parts of conditions stand in. -/
def conditionHolders : List Kind :=
  [.ifStatement, .parenthesizedExpression, .prefixUnaryExpression, .binaryExpression]

/-- The node stands where a condition or a part of one does. -/
def IsConditional (n : Node) : Prop := ∃ p, n.parent? = some p ∧ p.isAny conditionHolders = true

theorem isConditional_of_mem_children {c : Node} {k : Kind} (hc : c ∈ n.children) (hn : n.kind? = some k)
    (hk : k ∈ conditionHolders) : c.IsConditional :=
  ⟨n, parent?_of_mem_children hc, isAny_iff.2 ⟨k, hk, hn⟩⟩

theorem insideParens?_eq_some {inner : Node} (h : n.insideParens? = some inner) :
    n.kind? = some .parenthesizedExpression ∧ n.firstNamed? = some inner := by
  unfold insideParens? at h
  split at h
  · next hn => exact ⟨is_iff.1 hn, h⟩
  · cases h

theorem IsConditional.stripParens {n : Node} (h : n.IsConditional) : n.stripParens.IsConditional := by
  rw [stripParens_eq]
  cases hi : n.insideParens? with
  | none => exact h
  | some inner =>
    have hc := mem_children_of_insideParens? n inner hi
    have := sizeOf_of_mem_children hc
    exact (isConditional_of_mem_children hc (insideParens?_eq_some hi).1 (by decide)).stripParens
termination_by sizeOf n.here

/-- Parentheses do not change what a condition comes to. -/
theorem ComesTo.stripParens {n : Node} {b : Bool} (h : n.ComesTo name b) : n.stripParens.ComesTo name b := by
  rw [stripParens_eq]
  cases hi : n.insideParens? with
  | none => exact h
  | some inner =>
    obtain ⟨hk, hf⟩ := insideParens?_eq_some hi
    have := sizeOf_of_mem_children (mem_children_of_insideParens? n inner hi)
    have hop := h.operands
    rw [condition, hk, hf] at hop
    exact ComesTo.stripParens hop
termination_by sizeOf n.here

end Node

/-! ### Names of parameters -/

namespace Compilation

variable {c : Compilation}

private theorem ownMember?_ne_parameter {t : TypeDecl} {name : String} {arity? : Option Nat} (p : Node) :
    c.ownMember? t name arity? ≠ some (.parameter p) := by
  intro h
  unfold ownMember? at h
  rw [Option.orElse_eq_orElse, Option.orElse_eq_or, Option.or_eq_some_iff] at h
  rcases h with h | ⟨-, h⟩
  · obtain ⟨member, -, h⟩ := List.exists_of_findSome?_eq_some h
    unfold memberSymbol? at h
    split at h
    · obtain ⟨d, -, h⟩ := Option.map_eq_some_iff.1 h
      cases h
    · split at h <;> cases h
    · split at h
      · obtain ⟨u, -, h⟩ := Option.map_eq_some_iff.1 h
        cases h
      · cases h
  · obtain ⟨method, -, h⟩ := Option.map_eq_some_iff.1 h
    cases h

private theorem lookupMember?_ne_parameter {t : TypeDecl} {name : String} {arity? : Option Nat} (p : Node) :
    c.lookupMember? t name arity? ≠ some (.parameter p) := by
  intro h
  obtain ⟨u, -, h⟩ := List.exists_of_findSome?_eq_some h
  exact ownMember?_ne_parameter p h

private theorem inBlock?_ne_parameter {block use : Node} {name : String} (p : Node) :
    block.inBlock? use name ≠ some (.parameter p) := by
  intro h
  unfold Node.inBlock? at h
  split at h
  · cases h
  · obtain ⟨d, -, h⟩ := Option.map_eq_some_iff.1 h
    cases h

private theorem name?_of_inScope? {use scope p : Node} {name : String} {arity? : Option Nat}
    (h : c.inScope? use name arity? scope = some (.parameter p)) : (Symbol.parameter p).name? = some name := by
  unfold inScope? at h
  split at h
  case h_1 | h_2 => exact absurd h (inBlock?_ne_parameter p)
  case h_3 | h_4 | h_5 | h_6 | h_7 | h_8 =>
    obtain ⟨d, -, h⟩ := Option.map_eq_some_iff.1 h
    cases h
  case h_18 =>
    split at h
    · obtain ⟨owner, -, h⟩ := Option.map_eq_some_iff.1 h
      cases h
    · cases h
  case h_19 =>
    split at h
    · rw [Option.orElse_eq_orElse, Option.orElse_eq_or, Option.or_eq_some_iff] at h
      rcases h with h | ⟨-, h⟩
      · exact (isKnownAs_map_parameter (c := c) h).1
      · obtain ⟨t, -, h⟩ := Option.bind_eq_some_iff.1 h
        exact absurd h (lookupMember?_ne_parameter p)
    · cases h
  all_goals exact (isKnownAs_map_parameter (c := c) h).1

private theorem name?_of_lookupName {use p : Node} {name : String} {arity? : Option Nat}
    (h : c.lookupName use name arity? = .parameter p) : (Symbol.parameter p).name? = some name := by
  unfold lookupName at h
  split at h
  · next s hs =>
    subst h
    obtain ⟨scope, -, hs⟩ := List.exists_of_findSome?_eq_some hs
    exact name?_of_inScope? hs
  · split at h
    · cases h
    · split at h <;> cases h

/-- The nodes other than conditions in which a name is used. -/
def useHolders : List Kind := [.memberAccessExpression, .conditionalAccessExpression, .assignmentExpression]

/-- A name that is used, and not as the name of a member, is looked up from where it stands. -/
theorem symbol?_of_use {n p : Node} {k : Kind} (hn : n.kind? = some .identifier) (hp : n.parent? = some p)
    (hpk : p.kind? = some k) (hk : k ∈ Node.conditionHolders ++ useHolders)
    (haccess : Resolver.namedAccess? n n = none) : c.model.symbol? n = some (c.lookupName n n.text n.callArity?) := by
  have hstrip : n.stripParens = n := Node.stripParens_of_kind? hn (by decide)
  have hsimple := Node.simpleName?_of_identifier hn
  -- the node around it is not a declaration
  have hdecl : c.declaredAt? n = none := by
    simp only [Node.conditionHolders, useHolders, List.cons_append, List.nil_append, List.mem_cons, List.not_mem_nil,
      or_false] at hk
    have htype : p.isTypeDeclaration = false := by
      rw [Node.isTypeDeclaration, Node.isAny_eq_of_kind? hpk]
      rcases hk with rfl | rfl | rfl | rfl | rfl | rfl | rfl <;> rfl
    rw [declaredAt?, hp]
    simp only [Option.bind_eq_bind, Option.bind_some, hpk, htype, Bool.false_and]
    rcases hk with rfl | rfl | rfl | rfl | rfl | rfl | rfl <;> rfl
  show Resolver.symbolStep c _ n = _
  unfold Resolver.symbolStep
  simp only [hstrip, hn, hsimple, haccess, hdecl, Option.bind_eq_bind, Option.bind_some]
  rfl

/-- A name in a condition is looked up from where it stands. -/
private theorem symbol?_of_isConditional {n : Node} (hn : n.kind? = some .identifier) (h : n.IsConditional) :
    c.model.symbol? n = some (c.lookupName n n.text n.callArity?) := by
  obtain ⟨p, hp, hpk⟩ := h
  obtain ⟨k, hk, hpk⟩ := Node.isAny_iff.1 hpk
  refine symbol?_of_use hn hp hpk (List.mem_append_left _ hk) ?_
  simp only [Node.conditionHolders, List.mem_cons, List.not_mem_nil, or_false] at hk
  rw [Resolver.namedAccess?, hp]
  simp only [Option.bind_eq_bind, Option.bind_some, hpk]
  rcases hk with rfl | rfl | rfl | rfl <;> rfl

end Compilation

/-! ### What guards say -/

/-- The value of a condition with this guard where `disposing` is false. -/
def Guard.value : Guard → Bool
  | disposing => false
  | notDisposing => true

private theorem Guard.value_negate (g : Guard) : g.negate.value = !g.value := by cases g <;> rfl

/-- The condition comes to the value of the guard only. -/
def Node.Tells (name : String) (n : Node) (g : Guard) : Prop := ∀ b, n.ComesTo name b → b = g.value

namespace Node.Tells

variable {name : String} {n left right : Node} {g : Guard}

theorem parameter (hn : n.condition name = .parameter) : n.Tells name .disposing := by
  intro b h
  have hop := h.operands
  rw [hn] at hop
  exact hop

theorem negation {operand : Node} (hn : n.condition name = .negation operand) (ho : operand.Tells name g) :
    n.Tells name g.negate := by
  intro b h
  have hop := h.operands
  rw [hn] at hop
  rw [Guard.value_negate, ← ho _ hop, Bool.not_not]

/-- A conjunction fails if either operand does. -/
theorem conjunction (hn : n.condition name = .conjunction left right)
    (h : left.Tells name .disposing ∨ right.Tells name .disposing) : n.Tells name .disposing := by
  intro b hb
  have hop := hb.operands
  rw [hn] at hop
  rcases hop with ⟨rfl, -⟩ | ⟨hl, hr⟩
  · rfl
  · rcases h with h | h
    · cases h _ hl
    · exact h _ hr

/-- A disjunction holds if either operand does. -/
private theorem disjunction (hn : n.condition name = .disjunction left right)
    (h : left.Tells name .notDisposing ∨ right.Tells name .notDisposing) : n.Tells name .notDisposing := by
  intro b hb
  have hop := hb.operands
  rw [hn] at hop
  rcases hop with ⟨rfl, -⟩ | ⟨hl, hr⟩
  · rfl
  · rcases h with h | h
    · cases h _ hl
    · exact h _ hr

private theorem eq_of_literal {literal : Node} {b : Bool} (hk : literal.is .booleanLiteral = true)
    (h : literal.ComesTo name b) : b = (literal.text == "true") := by
  have hop := h.operands
  rw [condition, is_iff.1 hk] at hop
  exact hop

/-- A comparison keeps what its other side tells, or turns it round. -/
theorem comparison {equal : Bool} {side literal : Node} (hn : n.condition name = .comparison equal left right)
    (hsides : (side = right ∧ literal = left) ∨ (side = left ∧ literal = right))
    (hk : literal.is .booleanLiteral = true) (hs : side.Tells name g) :
    n.Tells name (if (literal.text == "true") == equal then g else g.negate) := by
  intro b h
  have hop := h.operands
  rw [hn] at hop
  obtain ⟨x, y, hx, hy, rfl⟩ := hop
  have hvalue : ∀ v w e : Bool, ((v == w) == e) = if w == e then v else !v := by decide
  have hif : ∀ p : Bool, (if p then g else g.negate).value = if p then g.value else !g.value := by
    intro p
    cases p
    · exact g.value_negate
    · rfl
  rw [hif, ← hvalue]
  rcases hsides with ⟨rfl, rfl⟩ | ⟨rfl, rfl⟩
  · rw [← hs y hy, ← eq_of_literal hk hx, Bool.beq_comm (a := x)]
  · rw [← hs x hx, ← eq_of_literal hk hy]

end Node.Tells

namespace Guard

variable {c : Compilation} {param n : Node} {name : String}

/-- A name in a condition that stands for a parameter is the name of the parameter. -/
theorem text_of_isAnswer (hc : c.IsRead) (hparam : c.HasPlace param)
    (hname : (Symbol.parameter param).name? = some name) (hplace : c.HasPlace n) (hk : n.kind? = some .identifier)
    (hn : n.IsConditional) (h : (Symbol.parameter param).isAnswer (c.model.symbol? n) = true) : n.text = name := by
  have hs := Compilation.symbol?_of_isConditional (c := c) hk hn
  rw [hs] at h
  cases hl : c.lookupName n n.text n.callArity? with
  | parameter p =>
    rw [hl] at h hs
    have hp : c.HasPlace p := hc.isIn_symbol? hplace hs p rfl
    have hsame : p = param := hp.eq_of_id hparam (Node.beq_iff.1 h)
    have := Compilation.name?_of_lookupName hl
    rw [hsame, hname] at this
    exact (Option.some.inj this).symm
  | _ =>
    rw [hl] at h
    cases h

/-- What an operand tells that is only heeded with one guard. -/
private theorem tells_of_filter {left right : Node} {left? right? : Option Guard} {g g' : Guard}
    (hleft : ∀ g, left? = some g → left.Tells name g) (hright : ∀ g, right? = some g → right.Tells name g)
    (h : (left?.filter (· == g') <|> right?.filter (· == g')) = some g) :
    g = g' ∧ (left.Tells name g' ∨ right.Tells name g') := by
  rw [Option.orElse_eq_orElse, Option.orElse_eq_or, Option.or_eq_some_iff] at h
  simp only [Option.filter_eq_some_iff, beq_iff_eq] at h
  rcases h with ⟨h, rfl⟩ | ⟨-, h, rfl⟩
  · exact ⟨rfl, Or.inl (hleft g h)⟩
  · exact ⟨rfl, Or.inr (hright g h)⟩

/-- What a comparison tells, by what its operands tell. -/
private theorem tells_of_comparison {operand : Option Node → Option Guard} {left right : Node} {equal : Bool}
    {g : Guard} (hf : n.firstNamed? = some left) (hl : n.lastNamed? = some right)
    (hleft : ∀ g, operand (some left) = some g → left.Tells name g)
    (hright : ∀ g, operand (some right) = some g → right.Tells name g)
    (hn : (left.is .booleanLiteral || right.is .booleanLiteral) = true →
      n.condition name = .comparison equal left right)
    (h : within.comparison n operand equal = some g) : n.Tells name g := by
  simp only [within.comparison, hf, hl, Option.bind_eq_bind, Option.bind_some] at h
  cases hk : left.is .booleanLiteral with
  | true =>
    simp only [hk, if_true, Option.bind_eq_some_iff, Option.pure_def, Option.some.injEq] at h
    obtain ⟨g', hg', rfl⟩ := h
    exact .comparison (hn (by rw [hk]; rfl)) (Or.inl ⟨rfl, rfl⟩) hk (hright g' hg')
  | false =>
    simp only [hk, Bool.false_eq_true, if_false, Option.pure_def] at h
    split at h
    · next hr =>
      obtain ⟨g', hg', h⟩ := Option.bind_eq_some_iff.1 h
      cases h
      exact .comparison (hn (by rw [hr, Bool.or_true])) (Or.inr ⟨rfl, rfl⟩) hr (hleft g' hg')
    · cases h

private theorem tells_of_within (hc : c.IsRead) (hparam : c.HasPlace param)
    (hname : (Symbol.parameter param).name? = some name) {fuel : Nat} {e : Node} {g : Guard} (hplace : c.HasPlace e)
    (he : e.IsConditional) (h : within c.model param fuel e = some g) : e.Tells name g := by
  induction fuel generalizing e g with
  | zero => cases h
  | succ fuel ih =>
    suffices hn : e.stripParens.Tells name g from fun b hb => hn b hb.stripParens
    have hplace := hplace.of_stripParens
    have he := he.stripParens
    rw [within] at h
    dsimp only at h
    generalize e.stripParens = n at h hplace he
    -- what the operands of an operator tell
    have hoperand : ∀ k ∈ Node.conditionHolders, n.kind? = some k → ∀ x g, x ∈ n.children →
        within c.model param fuel x = some g → x.Tells name g := by
      intro k hk hn x g hx hg
      exact ih (.child hplace hx) (Node.isConditional_of_mem_children hx hn hk) hg
    split at h
    · next hk =>
      split at h
      · next ha =>
        cases h
        refine .parameter ?_
        rw [Node.condition, hk, text_of_isAnswer hc hparam hname hplace hk he ha]
        simp only [beq_self_eq_true, if_true]
      · cases h
    · next hk =>
      split at h
      · next hop =>
        obtain ⟨g', hg', rfl⟩ := Option.map_eq_some_iff.1 h
        obtain ⟨operand, ho, hg'⟩ := Option.bind_eq_some_iff.1 hg'
        have hn : n.condition name = .negation operand := by
          rw [Node.condition, hk, ho]
          exact if_pos hop
        exact .negation hn (hoperand _ (by decide) hk operand g' (Node.mem_children_of_firstNamed? ho) hg')
      · cases h
    · next hk =>
      obtain ⟨operator, hop, h⟩ := Option.bind_eq_some_iff.1 h
      -- an operator stands between two operands
      have hsides := hop
      rw [Node.binaryOperator?] at hsides
      obtain ⟨left, hf, hsides⟩ := Option.bind_eq_some_iff.1 hsides
      obtain ⟨right, hl, -⟩ := Option.bind_eq_some_iff.1 hsides
      have hleft := fun g => hoperand _ (by decide) hk left g (Node.mem_children_of_firstNamed? hf)
      have hright := fun g => hoperand _ (by decide) hk right g (Node.mem_children_of_lastNamed? hl)
      have hn : n.condition name = .ofOperator operator left right := by rw [Node.condition, hk, hf, hl, hop]; rfl
      split at h
      · rw [hf, hl] at h
        obtain ⟨rfl, hor⟩ := tells_of_filter hleft hright h
        exact .conjunction hn hor
      · rw [hf, hl] at h
        obtain ⟨rfl, hor⟩ := tells_of_filter hleft hright h
        exact .disjunction hn hor
      · exact tells_of_comparison hf hl hleft hright (fun hliteral => hn.trans (if_pos hliteral)) h
      · exact tells_of_comparison hf hl hleft hright (fun hliteral => hn.trans (if_pos hliteral)) h
      · cases h
    · cases h

/-- A condition with a guard comes to the value of the guard where the parameter is false. -/
theorem sound (hc : c.IsRead) (hparam : c.HasPlace param) (hname : (Symbol.parameter param).name? = some name)
    {e : Node} {g : Guard} (hplace : c.HasPlace e) (he : e.IsConditional) (h : of? c.model param e = some g) :
    e.Tells name g :=
  tells_of_within hc hparam hname hplace he h

end Guard

end Disposal

import Disposal.Proofs.Loops
import Disposal.Proofs.Search
import Disposal.Proofs.Walk

/-!
# The ways of values

A value comes from other values: from those that a conversion, a branch or an assignment passes on, from what a called
method or a getter returns, from what is written to a variable. `Sharing.Flows` is one step back, and
`Sharing.IsForeign` says that an expression brings in a value from outside. `Sharing.Finds` is a search for a foreign
value that does not enter a method or variable twice.

* `Sharing.finds_stripConversions`, `Sharing.finds_iff_of_parts`, `Sharing.finds_iff_of_enters`: what a search finds, by
  the form of an expression;
* `Sharing.exists_isNumbering`: values are not passed on in circles, unless the collection of a loop mentions the
  variable of the loop;
* `Sharing.finds_nil_iff_flows`: a search finds a foreign value exactly if some way leads to one.
-/

namespace Disposal.Sharing

open Relation

/-! ### The flow of values -/

/-- The names of the calls whose result is taken for a part of what they are called on. -/
def HandsOn (name : Node) : Prop := name.text = "ConfigureAwait" ∨ Framework.isElementProjection name.text = true

/-- An expression is read as a symbol: a name, or an access that unwraps nothing. -/
def IsName (e : Node) : Prop :=
  e.kind? = some .identifier ∨ e.kind? = some .genericName ∨ e.kind? = some .memberBindingExpression ∨
    e.kind? = some .conditionalAccessExpression ∨ e.kind? = some .memberAccessExpression ∧ e.wrapper? = none

section

variable (m : Model)

/-- The value of an expression is passed on from a part of it; that of a loop variable, from the collection. -/
@[mk_iff]
inductive PassedFrom (e x : Node) : Prop
  | conversion (h : e.insideConversion? = some x)
  | branch (hk : e.kind? = some .conditionalExpression) (h : x ∈ e.branches)
  | arm (hk : e.kind? = some .switchExpression) (h : x ∈ e.armValues)
  | alternative (hk : e.kind? = some .binaryExpression) (ho : e.binaryOperator? = some "??") (h : x ∈ e.named)
  | assignment (hk : e.kind? = some .assignmentExpression) (h : e.lastNamed? = some x)
  | receiver {name : Node} (hk : e.kind? = some .invocationExpression) (h : e.invoked? = some (name, some x))
    (hname : HandsOn name)
  | wrapper (hk : e.kind? = some .memberAccessExpression) (h : e.wrapper? = some x)
  | loop {decl : Node} (hn : IsName e) (hs : m.symbol? e = some (.localVar decl)) (hd : decl.is .identifier = true)
    (h : decl.loopCollection? = some x)

/-- The value of an expression comes from a method, a getter or a variable. -/
@[mk_iff]
inductive Enters (e : Node) : Symbol → Prop
  | call {name f : Node} {receiver? : Option Node} (hk : e.kind? = some .invocationExpression)
    (hi : e.invoked? = some (name, receiver?)) (hname : receiver? = none ∨ ¬HandsOn name)
    (hf : m.frameworkCall? e = none) (hs : m.symbol? e = some (.method f)) : Enters e (.method f)
  | getter {p : Node} (hn : IsName e) (hs : m.symbol? e = some (.property p))
    (hstatic : (Symbol.property p).isStatic = false) (hauto : p.isAutoProperty = false)
    (hvalue : p.initializer? = none) : Enters e (.method p.getterBody)
  | property {p : Node} (hn : IsName e) (hs : m.symbol? e = some (.property p))
    (hstatic : (Symbol.property p).isStatic = false) (h : p.isAutoProperty = true ∨ p.initializer? ≠ none) :
    Enters e (.property p)
  | field {f : Node} (hn : IsName e) (hs : m.symbol? e = some (.field f))
    (hstatic : (Symbol.field f).isStatic = false) : Enters e (.field f)
  | localVar {decl : Node} (hn : IsName e) (hs : m.symbol? e = some (.localVar decl))
    (h : ∀ loop, ¬Compilation.IsLoopVariable decl loop) : Enters e (.localVar decl)
  | setterValue {p : Node} (hn : IsName e) (hs : m.symbol? e = some (.setterValue p))
    (hp : p.is .propertyDeclaration = true) (hprivate : p.hasPrivateSetter = true) : Enters e (.property p)

/-- What a method returns, and what is written to a variable in its scope. -/
inductive Yields : Symbol → Node → Prop
  | returned {f x : Node} (h : x ∈ f.returnedExpressions) : Yields (.method f) x
  | written {s : Symbol} {scope : Scope} {w : Write} {x : Node} (hs : s.isVariable = true)
    (hscope : Scope.ofSymbol? m.compilation s = some scope) (hw : w ∈ m.writes s scope) (hx : w.value? = some x) :
    Yields s x

/-- One step back along the flow of values. -/
def Flows (e x : Node) : Prop := PassedFrom m e x ∨ ∃ s, Enters m e s ∧ Yields m s x

/-- The value of an expression comes from outside or is kept elsewhere: an element, a parameter, the value that a setter
gets from anyone, or a static member. -/
@[mk_iff]
inductive IsForeign (e : Node) : Prop
  | element (h : e.kind? = some .elementAccessExpression ∨ e.kind? = some .elementBindingExpression)
  | parameter {p : Node} (hn : IsName e) (hs : m.symbol? e = some (.parameter p)) (hout : p.isOutParameter = false)
  | setterValue {p : Node} (hn : IsName e) (hs : m.symbol? e = some (.setterValue p))
    (h : p.is .propertyDeclaration = false ∨ p.hasPrivateSetter = false)
  | member {s : Symbol} (hn : IsName e) (hs : m.symbol? e = some s) (hmember : s.isMember = true)
    (hstatic : s.isStatic = true)

end

/-! ### The search behind the walk -/

/-- What a search goes through: values, and the symbols that they come from. -/
inductive Vertex where
  | value (e : Node)
  | symbol (s : Symbol)

def Vertex.key? : Vertex → Option Symbol
  | value _ => none
  | symbol s => some s

section

variable (m : Model)

inductive Next : Vertex → Vertex → Prop
  | passed {e x : Node} (h : PassedFrom m e x) : Next (.value e) (.value x)
  | enters {e : Node} {s : Symbol} (h : Enters m e s) : Next (.value e) (.symbol s)
  | yields {s : Symbol} {x : Node} (h : Yields m s x) : Next (.symbol s) (.value x)

def IsEvidence : Vertex → Prop
  | .value e => IsForeign m e
  | .symbol _ => False

/-- A search that has come along a way finds a foreign value. -/
def Finds (path : List Symbol) (v : Vertex) : Prop := Search.Finds Vertex.key? (Next m) (IsEvidence m) path v

variable {m} {path : List Symbol}

theorem finds_value_iff {e : Node} :
    Finds m path (.value e) ↔ IsForeign m e ∨ (∃ x, PassedFrom m e x ∧ Finds m path (.value x)) ∨
      ∃ s, Enters m e s ∧ Finds m path (.symbol s) := by
  have hopen : Search.IsOpen Vertex.key? path (.value e) := fun k hk => nomatch hk
  constructor
  · intro h
    cases h with
    | leaf _ h => exact .inl h
    | step _ h hw =>
      cases h with
      | passed h => exact .inr (.inl ⟨_, h, hw⟩)
      | enters h => exact .inr (.inr ⟨_, h, hw⟩)
  · rintro (h | ⟨x, h, hx⟩ | ⟨s, h, hs⟩)
    · exact Search.Finds.leaf hopen h
    · exact Search.Finds.step hopen (.passed h) hx
    · exact Search.Finds.step hopen (.enters h) hs

theorem finds_symbol_iff {s : Symbol} :
    Finds m path (.symbol s) ↔ path.contains s = false ∧ ∃ x, Yields m s x ∧ Finds m (s :: path) (.value x) := by
  constructor
  · intro h
    cases h with
    | leaf _ h => cases h
    | step hopen h hw =>
      cases h with
      | yields h => exact ⟨hopen s rfl, _, h, hw⟩
  · rintro ⟨hnew, x, h, hx⟩
    refine Search.Finds.step ?_ (.yields h) hx
    intro k hk
    cases hk
    exact hnew

end

/-! ### What a search finds, by the form of an expression -/

section

variable {m : Model} {path : List Symbol} {e : Node}

/-- Nothing but parts tells about the value of an expression. -/
theorem finds_iff_of_parts {parts : List Node} (hforeign : ¬IsForeign m e) (henters : ∀ s, ¬Enters m e s)
    (hparts : ∀ x, PassedFrom m e x ↔ x ∈ parts) :
    Finds m path (.value e) ↔ ∃ x ∈ parts, Finds m path (.value x) := by
  rw [finds_value_iff]
  simp [hforeign, henters, hparts]

/-- Nothing but a symbol tells about the value of an expression. -/
theorem finds_iff_of_enters {s : Symbol} (hforeign : ¬IsForeign m e) (hpassed : ∀ x, ¬PassedFrom m e x)
    (henters : ∀ t, Enters m e t ↔ t = s) : Finds m path (.value e) ↔ Finds m path (.symbol s) := by
  rw [finds_value_iff]
  simp [hforeign, hpassed, henters]

private theorem finds_iff_of_insideConversion? {x : Node} (h : e.insideConversion? = some x) :
    Finds m path (.value e) ↔ Finds m path (.value x) := by
  have hnot : ¬IsForeign m e ∧ (∀ s, ¬Enters m e s) ∧ ∀ y, PassedFrom m e y ↔ y ∈ e.insideConversion?.toList := by
    unfold Node.insideConversion? at h
    split at h
    case h_5 hk =>
      split at h
      · next has =>
        simp only [Node.isAsOperator, Bool.and_eq_true, beq_iff_eq] at has
        simp [isForeign_iff, enters_iff, passedFrom_iff, IsName, hk, has.2]
      · cases h
    case h_7 => cases h
    all_goals
      next hk => simp [isForeign_iff, enters_iff, passedFrom_iff, IsName, hk]
  rw [finds_iff_of_parts hnot.1 hnot.2.1 hnot.2.2, h]
  simp

theorem not_finds (hforeign : ¬IsForeign m e) (hpassed : ∀ x, ¬PassedFrom m e x) (henters : ∀ s, ¬Enters m e s) :
    ¬Finds m path (.value e) := by
  rw [finds_value_iff]
  simp [hforeign, hpassed, henters]

/-- A name is no call and no access to an element. -/
theorem IsName.kind?_ne (hn : IsName e) :
    e.kind? ≠ some .invocationExpression ∧ e.kind? ≠ some .elementAccessExpression ∧
      e.kind? ≠ some .elementBindingExpression := by
  rcases hn with hk | hk | hk | hk | ⟨hk, -⟩ <;> simp [hk]

/-- The value of a name is passed on only if it stands for a loop variable. -/
theorem passedFrom_iff_of_isName (hn : IsName e) {x : Node} :
    PassedFrom m e x ↔
      ∃ decl, m.symbol? e = some (.localVar decl) ∧ decl.is .identifier = true ∧ decl.loopCollection? = some x := by
  have hbare : e.insideConversion? = none := by
    rcases hn with hk | hk | hk | hk | ⟨hk, -⟩ <;> rw [Node.insideConversion?, hk]
  rcases hn with hk | hk | hk | hk | ⟨hk, hw⟩
  case inr.inr.inr.inr => simp [passedFrom_iff, IsName, hk, hw, hbare]
  all_goals simp [passedFrom_iff, IsName, hk, hbare]

theorem passedFrom_iff_of_call (hk : e.kind? = some .invocationExpression) {x : Node} :
    PassedFrom m e x ↔ ∃ name, e.invoked? = some (name, some x) ∧ HandsOn name := by
  have hbare : e.insideConversion? = none := by rw [Node.insideConversion?, hk]
  simp [passedFrom_iff, IsName, hk, hbare]

theorem enters_iff_of_call (hk : e.kind? = some .invocationExpression) {name : Node} {receiver? : Option Node}
    (hi : e.invoked? = some (name, receiver?)) {s : Symbol} :
    Enters m e s ↔ (receiver? = none ∨ ¬HandsOn name) ∧ m.frameworkCall? e = none ∧
      ∃ f, m.symbol? e = some (.method f) ∧ s = .method f := by
  rw [enters_iff]
  simp only [IsName, hk, hi, Option.some.injEq, Prod.mk.injEq, reduceCtorEq, false_and, or_self, exists_false, or_false,
    true_and]
  constructor
  · rintro ⟨_, f, _, ⟨rfl, rfl⟩, hname, hf, hs⟩
    exact ⟨hname, hf, f, hs⟩
  · rintro ⟨hname, hf, f, hs⟩
    exact ⟨name, f, receiver?, ⟨rfl, rfl⟩, hname, hf, hs⟩

/-- Conversions lose nothing. -/
theorem finds_stripConversions : Finds m path (.value e.stripConversions) ↔ Finds m path (.value e) := by
  refine Node.follow_induction (motive := fun n => Finds m path (.value e.stripConversions) ↔ Finds m path (.value n))
    Node.mem_children_of_insideConversion? (fun n x hx h => ?_) Iff.rfl
  exact h.trans (finds_iff_of_insideConversion? hx).symm

end

/-! ### Values are not passed on in circles -/

section

variable {c : Compilation} {e x : Node}

/-- No collection mentions the variable that runs through it. -/
def LoopsAreSimple (c : Compilation) : Prop :=
  ∀ loop decl x, c.HasPlace loop → loop.foreachVariable? = some decl → decl.loopCollection? = some x →
    ∀ y ∈ x.preorder, y.is .identifier = true → y.text ≠ decl.text

/-- A name that stands for the variable of a loop whose collection mentions that variable. -/
structure RunsThroughItself (m : Model) (e : Node) : Prop where
  isName : IsName e
  mentions : ∃ decl x, m.symbol? e = some (.localVar decl) ∧ decl.is .identifier = true ∧
    decl.loopCollection? = some x ∧ ∃ y ∈ x.preorder, y.is .identifier = true ∧ y.text = decl.text

/-- The second expression lies less deep inside loops, or as deep and with a lower rank. -/
def Precedes (e x : Node) : Prop := x.loopDepth < e.loopDepth ∨ x.loopDepth = e.loopDepth ∧ x.rank < e.rank

private theorem Precedes.of_lower (hlower : Ownership.Lower c e x) (hdepth : x.loopDepth = e.loopDepth) :
    Precedes e x :=
  .inr ⟨hdepth, hlower.2⟩

private theorem mem_children_of_wrapper? (h : e.wrapper? = some x) : x ∈ e.children := by
  unfold Node.wrapper? at h
  split at h
  · exact Node.mem_children_of_orElse (fun _ hd => Node.mem_children_of_firstNamed? hd)
      (Option.filter_eq_some_iff.1 h).1
  · cases h

theorem hasPlace_of_passedFrom (hc : c.IsRead) (he : c.HasPlace e) (h : PassedFrom c.model e x) : c.HasPlace x := by
  cases h with
  | conversion h => exact .child he (Node.mem_children_of_insideConversion? e x h)
  | branch _ h => exact he.of_named (List.mem_of_mem_drop h)
  | arm _ h => exact (Ownership.lower_of_mem_armValues he h).1
  | alternative _ _ h => exact he.of_named h
  | assignment _ h => exact he.of_lastNamed? h
  | receiver hk h _ => exact (Ownership.lower_of_invoked? he hk h).1
  | wrapper _ h => exact .child he (mem_children_of_wrapper? h)
  | loop _ hs _ h =>
    obtain ⟨loop, hp, -, hx⟩ := Node.exists_loop h
    have hdecl := hc.isIn_symbol? he hs _ rfl
    exact .child (hdecl.of_parent? hp).1 (Node.mem_children_of_collection? hx)

private theorem precedes_of_mem_children {k : Kind} (he : c.HasPlace e) (hk : e.kind? = some k)
    (hne : [Kind.forEachStatement, .foreachStatement].contains k = false) (hx : x ∈ e.children) : Precedes e x :=
  .of_lower (.of_child he hx) (Node.loopDepth_of_mem_children (Node.isLoop_eq_false hk hne) hx)

theorem precedes_of_insideConversion? (he : c.HasPlace e) (h : e.insideConversion? = some x) : Precedes e x := by
  have hchild := Node.mem_children_of_insideConversion? e x h
  unfold Node.insideConversion? at h
  split at h
  case h_7 => cases h
  all_goals exact precedes_of_mem_children he ‹_› rfl hchild

/-- A value is not passed on to where it comes from, unless a loop runs through its own variable. -/
theorem precedes_or_runsThroughItself (he : c.HasPlace e) (h : PassedFrom c.model e x) :
    Precedes e x ∨ RunsThroughItself c.model e := by
  cases h with
  | conversion h => exact .inl (precedes_of_insideConversion? he h)
  | branch hk h => exact .inl (precedes_of_mem_children he hk rfl (Node.mem_children_of_named (List.mem_of_mem_drop h)))
  | arm hk h =>
    refine .inl (.of_lower (Ownership.lower_of_mem_armValues he h) ?_)
    obtain ⟨arm, harm, hx⟩ := List.mem_filterMap.1 h
    have harmKind := Node.is_iff.1 (List.mem_filter.1 harm).2
    rw [Node.loopDepth_of_mem_children (Node.isLoop_eq_false harmKind rfl) (Node.mem_children_of_lastNamed? hx),
      Node.loopDepth_of_mem_children (Node.isLoop_eq_false hk rfl) (Node.mem_children_of_namedOf harm)]
  | alternative hk _ h => exact .inl (precedes_of_mem_children he hk rfl (Node.mem_children_of_named h))
  | assignment hk h => exact .inl (precedes_of_mem_children he hk rfl (Node.mem_children_of_lastNamed? h))
  | receiver hk h _ => exact .inl (.of_lower (Ownership.lower_of_invoked? he hk h) (Node.loopDepth_of_invoked? hk h))
  | wrapper hk h => exact .inl (precedes_of_mem_children he hk rfl (mem_children_of_wrapper? h))
  | @loop decl hn hs hd h =>
    by_cases hmentions : ∃ y ∈ x.preorder, y.is .identifier = true ∧ y.text = decl.text
    · exact .inr ⟨hn, decl, x, hs, hd, h, hmentions⟩
    · -- out of the loop, since the collection does not mention the variable
      obtain ⟨loop, hp, hloop, hx⟩ := Node.exists_loop h
      refine .inl (.inl (Node.loopDepth_lt he (Compilation.mentions_of_symbol? ⟨hd, hp, hloop⟩ he hs).2 hloop hx ?_))
      exact fun y hy hident htext => hmentions ⟨y, hy, hident, htext⟩

theorem not_runsThroughItself (hloops : LoopsAreSimple c) (he : c.HasPlace e) : ¬RunsThroughItself c.model e := by
  rintro ⟨-, decl, x, hs, hd, h, y, hy, hident, htext⟩
  obtain ⟨loop, hp, hloop, -⟩ := Node.exists_loop h
  obtain ⟨hvar, hmentions⟩ := Compilation.mentions_of_symbol? ⟨hd, hp, hloop⟩ he hs
  exact hloops loop decl x (he.of_mem_ancestors hmentions.inLoop) hvar h y hy hident htext

private theorem precedes_of_passedFrom (hloops : LoopsAreSimple c) (he : c.HasPlace e) (h : PassedFrom c.model e x) :
    Precedes e x :=
  (precedes_or_runsThroughItself he h).resolve_right (not_runsThroughItself hloops he)

end

/-- Numbers of the expressions that decrease from each one to those that it takes its value from. -/
structure IsNumbering (c : Compilation) (number : Node → Nat) : Prop where
  pos : ∀ {e}, c.HasPlace e → 0 < number e
  le_size : ∀ {e}, c.HasPlace e → number e ≤ c.size
  lt_of_passedFrom : ∀ {e x}, c.HasPlace e → PassedFrom c.model e x → number x < number e

theorem IsNumbering.stripConversions_le {c : Compilation} {number : Node → Nat} (h : IsNumbering c number) {e : Node}
    (he : c.HasPlace e) : number e.stripConversions ≤ number e := by
  refine Node.follow_induction (motive := fun n => c.HasPlace n → number e.stripConversions ≤ number n)
    Node.mem_children_of_insideConversion? (fun n x hx ih hn => ?_) (fun _ => Nat.le_refl _) he
  have hle := ih (.child hn (Node.mem_children_of_insideConversion? n x hx))
  exact Nat.le_trans hle (Nat.le_of_lt (h.lt_of_passedFrom hn (.conversion hx)))

theorem exists_isNumbering {c : Compilation} (hc : c.IsRead) (hloops : LoopsAreSimple c) :
    ∃ number, IsNumbering c number := by
  have hin : ∀ e x, e ∈ c.places → PassedFrom c.model e x → x ∈ c.places := by
    intro e x he hx
    exact (hasPlace_of_passedFrom hc (Compilation.mem_places_iff.1 he) hx).mem_places
  have hdown : ∀ e x, c.HasPlace e → TransGen (PassedFrom c.model) e x → Precedes e x ∧ c.HasPlace x := by
    intro e x he h
    induction h with
    | single h => exact ⟨precedes_of_passedFrom hloops he h, hasPlace_of_passedFrom hc he h⟩
    | tail _ h ih =>
      obtain ⟨hprec, hy⟩ := ih
      have hstep := precedes_of_passedFrom hloops hy h
      refine ⟨?_, hasPlace_of_passedFrom hc hy h⟩
      unfold Precedes at *
      omega
  have hacyclic : ∀ e, e ∈ c.places → ¬TransGen (PassedFrom c.model) e e := by
    intro e he h
    obtain ⟨hprec, -⟩ := hdown e e (Compilation.mem_places_iff.1 he) h
    unfold Precedes at hprec
    omega
  obtain ⟨number, hrange, hlt⟩ := Search.exists_rank hin hacyclic
  rw [c.length_places] at hrange
  exact ⟨number, fun he => (hrange _ he.mem_places).1, fun he => (hrange _ he.mem_places).2,
    fun he hx => hlt _ _ he.mem_places hx⟩

/-! ### From searches to ways -/

/-- Ways through symbols are ways from value to value. -/
private theorem flows_of_next {m : Model} {v : Vertex} {x : Node} (h : ReflTransGen (Next m) v (.value x)) :
    match v with
    | .value e => ReflTransGen (Flows m) e x
    | .symbol s => ∃ y, Yields m s y ∧ ReflTransGen (Flows m) y x := by
  induction h using ReflTransGen.head_induction_on with
  | refl => exact .refl
  | head h _ ih =>
    cases h with
    | passed h => exact .head (.inl h) ih
    | enters h =>
      obtain ⟨y, hy, hyx⟩ := ih
      exact .head (.inr ⟨_, h, hy⟩) hyx
    | yields h => exact ⟨_, h, ih⟩

private theorem next_of_flows {m : Model} {e x : Node} (h : ReflTransGen (Flows m) e x) :
    ReflTransGen (Next m) (.value e) (.value x) := by
  induction h with
  | refl => exact .refl
  | tail _ h ih =>
    rcases h with h | ⟨s, hs, hx⟩
    · exact ih.tail (.passed h)
    · exact (ih.tail (.enters hs)).tail (.yields hx)

/-- What a search finds is at the end of a way. -/
theorem Finds.flows {m : Model} {path : List Symbol} {e : Node} (h : Finds m path (.value e)) :
    ∃ x, ReflTransGen (Flows m) e x ∧ IsForeign m x := by
  obtain ⟨v, hv, hevidence⟩ := Search.Finds.reaches h
  cases v with
  | value x => exact ⟨x, flows_of_next hv, hevidence⟩
  | symbol s => cases hevidence

section

variable {c : Compilation}

theorem hasPlace_of_yields (hc : c.IsRead) {s : Symbol} (hin : s.IsIn c) {x : Node} (h : Yields c.model s x) :
    c.HasPlace x := by
  cases h with
  | returned h => exact (hin _ rfl).of_returnedExpressions h
  | @written _ scope w _ hs hscope hw hx =>
    refine Model.hasPlace_of_mem_writes (m := c.model) hc hin ?_ hw hx
    rintro n rfl
    cases s with
    | localVar decl =>
      obtain ⟨region, hr, h⟩ := Option.map_eq_some_iff.1 hscope
      cases h
      exact (hin decl rfl).of_nearest? hr
    | field f | property f =>
      obtain ⟨t, -, h⟩ := Option.map_eq_some_iff.1 hscope
      cases h
    | _ => cases hs

/-- A value at a place of the compilation, or a symbol declared at one. -/
def Vertex.IsIn (c : Compilation) : Vertex → Prop
  | value e => c.HasPlace e
  | symbol s => s.node?.isSome = true ∧ s.IsIn c

private theorem isIn_of_enters (hc : c.IsRead) {e : Node} (he : c.HasPlace e) {s : Symbol} (h : Enters c.model e s) :
    (Vertex.symbol s).IsIn c := by
  cases h with
  | call _ _ _ _ hs | property _ hs | field _ hs | localVar _ hs => exact ⟨rfl, hc.isIn_symbol? he hs⟩
  | getter _ hs => exact ⟨rfl, Symbol.isIn_of_eq rfl (Ownership.hasPlace_getterBody (hc.isIn_symbol? he hs _ rfl))⟩
  | setterValue _ hs => exact ⟨rfl, Symbol.isIn_of_eq rfl (hc.isIn_symbol? he hs _ rfl)⟩

private theorem isIn_of_next (hc : c.IsRead) {v w : Vertex} (hv : v.IsIn c) (h : Next c.model v w) : w.IsIn c := by
  cases h with
  | passed h => exact hasPlace_of_passedFrom hc hv h
  | enters h => exact isIn_of_enters hc hv h
  | yields h => exact hasPlace_of_yields hc hv.2 h

/-- A search loses nothing by not entering a method or variable twice. -/
theorem finds_nil_iff_flows (hc : c.IsRead) {e : Node} (he : c.HasPlace e) :
    Finds c.model [] (.value e) ↔ ∃ x, ReflTransGen (Flows c.model) e x ∧ IsForeign c.model x := by
  have hv : (Vertex.value e).IsIn c := he
  have hin : ∀ v w, v.IsIn c → Next c.model v w → w.IsIn c := fun v w => isIn_of_next hc
  have hkey : ∀ (v w : Vertex) k l, v.IsIn c → w.IsIn c → v.key? = some k → w.key? = some l → (k == l) = true →
      v = w := by
    intro v w k l hv hw hk hl hkl
    cases v with
    | value => cases hk
    | symbol s =>
      cases w with
      | value => cases hl
      | symbol t =>
        cases hk
        cases hl
        rw [Symbol.eq_of_beq_of_isSome hv.1 hv.2 hw.2 hkl]
  constructor
  · exact Finds.flows
  · rintro ⟨x, hx, hforeign⟩
    exact (Search.finds_nil_iff hin hkey hv).2 ⟨.value x, next_of_flows hx, hforeign⟩

end

end Disposal.Sharing

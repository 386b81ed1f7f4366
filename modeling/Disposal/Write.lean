import Disposal.Symbol.Resolve

/-!
# Writes and references

Where a variable is written and where it is mentioned, within the body or type that it belongs to.
-/

namespace Disposal

/-- How a variable is written. -/
inductive WriteKind where
  /-- `= value` in the declaration. -/
  | initializer
  /-- `x = value` and `x ??= value`. -/
  | assign
  /-- `x += value` and the like. -/
  | compound
  | out
  | ref
  /-- `x++`, `--x`. -/
  | increment
  deriving DecidableEq, Repr

/-- A write: the declaration, assignment, argument or operation, and the value written if it is an expression. -/
structure Write where
  kind : WriteKind
  node : Node
  value? : Option Node

/-- Whether the write happens only if the variable is null. -/
def Write.isConditional (w : Write) : Bool :=
  w.kind == .assign && w.node.assignment?.any (·.operator == "??=")

/-- Where the writes of a variable are looked for. -/
inductive Scope where
  | node (n : Node)
  /-- All members of all parts of a type. -/
  | type (t : TypeDecl)

namespace Scope

/-- The body of a local or parameter, the type of a field or property. -/
def ofSymbol? (c : Compilation) : Symbol → Option Scope
  | .localVar n | .parameter n => n.region?.map .node
  | s@(.field _) | s@(.property _) => (s.owner? c).map .type
  | _ => none

/-- The nodes that a scope consists of. -/
def roots (c : Compilation) : Scope → List Node
  | node n => [n]
  | type t => c.members t

/-- All nodes of a scope. -/
def nodes (c : Compilation) (s : Scope) : List Node := (s.roots c).flatMap Node.preorder

end Scope

namespace Model

/-- Whether an expression is a declaration or a mention of the symbol, which has the given name. -/
def refersTo (m : Model) (expr : Node) (s : Symbol) (name : String) : Bool :=
  let e := expr.stripParens
  s.node?.any (· == e) || (e.simpleName?.any (·.text == name) && s.isAnswer (m.symbol? e))

/-- The elements of a tuple expression. -/
def tupleElements (n : Node) : List Node := n.named.filterMap Node.argumentExpression?

/-- The variables that an assignment assigns to, each with the value it gets: `(a, b) = (x, y)` assigns twice. -/
def targetsWithin : Nat → Node → Option Node → List (Node × Option Node)
  | 0, target, value? => [(target.stripParens, value?)]
  | fuel + 1, target, value? =>
    let t := target.stripParens
    if t.is .tupleExpression then
      let values := match (value?.map Node.stripParens).filter (·.is .tupleExpression) with
        | some v => tupleElements v
        | none => []
      (tupleElements t).zipIdx.flatMap fun (e, i) => targetsWithin fuel e values[i]?
    else [(t, value?)]

/-- The elementary assignments of an assignment. -/
def targets (target : Node) (value? : Option Node) : List (Node × Option Node) :=
  targetsWithin target.here.height target value?

/-- The value that a declaration gives to its symbol. -/
def declaredValue? : Symbol → Option Write
  | .localVar d | .field d =>
    if d.is .variableDeclarator then d.initializer?.map fun v => ⟨.initializer, d, some v⟩ else none
  | .property p => p.initializer?.map fun v => ⟨.initializer, p, some v⟩
  | _ => none

/-- The writes of a symbol by one node. -/
def writesAt (m : Model) (s : Symbol) (name : String) (n : Node) : List Write :=
  match n.kind? with
  | some .assignmentExpression =>
    match n.assignment? with
    | none => []
    | some a =>
      let kind : WriteKind := if a.operator == "=" || a.operator == "??=" then .assign else .compound
      let value? := if kind = .assign then some a.right else none
      ((targets a.left value?).filter fun (t, _) => m.refersTo t s name).map fun (_, v?) => ⟨kind, n, v?⟩
  | some .argument =>
    let kind? : Option WriteKind := match n.passing? with
      | some .out => some .out
      | some .ref => some .ref
      | _ => none
    match kind? with
    | some kind => if n.argumentExpression?.any (m.refersTo · s name) then [⟨kind, n, none⟩] else []
    | none => []
  | some .prefixUnaryExpression | some .postfixUnaryExpression =>
    if ["++", "--"].contains n.unaryOperator && n.firstNamed?.any (m.refersTo · s name) then
      [⟨.increment, n, none⟩]
    else []
  | _ => []

/-- All writes of a symbol in a scope: that of its declaration, then the others in order. -/
def writes (m : Model) (s : Symbol) (scope : Scope) : List Write :=
  (declaredValue? s).toList ++
    match s.name? with
    | some name => (scope.nodes m.compilation).flatMap (m.writesAt s name)
    | none => []

/-- The expression that mentions a symbol by an identifier: the access that the identifier is the name of, or the
identifier itself. -/
def mention (identifier parent : Node) : Node :=
  match parent.kind? with
  | some .memberAccessExpression => if parent.memberName?.any (· == identifier) then parent else identifier
  | some .memberBindingExpression => parent
  | _ => identifier

/-- Whether an identifier is the name in the declaration of a symbol. -/
def isDeclarationName (s : Symbol) (identifier : Node) : Bool :=
  (s.node?.bind Node.nameOf?).any (· == identifier) || s.node?.any (· == identifier)

/-- The mention of a symbol by a node, if the node is an identifier that mentions it. -/
def mentionAt? (m : Model) (s : Symbol) (name : String) (n : Node) : Option Node := do
  if n.is .identifier && n.text == name && !isDeclarationName s n then
    let e := mention n (← n.parent?)
    if s.isAnswer (m.symbol? e) then some e else none
  else none

/-- Adds a node to a list that it is not in. -/
def addNew (found : List Node) (n : Node) : List Node := if found.any (· == n) then found else found ++ [n]

/-- The expressions of a scope that mention a symbol, without its declaration. -/
def references (m : Model) (s : Symbol) (scope : Scope) : List Node :=
  match s.name? with
  | some name => ((scope.nodes m.compilation).filterMap (m.mentionAt? s name)).foldl addNew []
  | none => []

end Model

end Disposal

import Disposal.Node

/-!
# Expressions

How the parts of an expression are found in the tree: operators, assignments, calls with their arguments, and the
names at the end of a chain of accesses. A part is looked up by its field and, failing that, by its place.
-/

namespace Disposal.Node

/-! ### Conversions -/

/-- From a parenthesis to what it encloses. -/
def insideParens? (n : Node) : Option Node :=
  if n.is .parenthesizedExpression then n.firstNamed? else none

/-- The expression without parentheses around it. -/
def stripParens (n : Node) : Node := n.follow insideParens?

/-- The trimmed text between the first and the last operand. -/
def binaryOperator? (n : Node) : Option String := do
  let left ← n.firstNamed?
  let right ← n.lastNamed?
  (n.textBetween? left.stop right.start).map Text.trim

/-- Whether the node is the assertion `e!` that a value is not null. -/
def isNullForgiving (n : Node) : Bool :=
  n.is .postfixUnaryExpression && (Text.trimEnd n.text.toList).getLast? == some '!'

/-- Whether the node is `e as T`. -/
def isAsOperator (n : Node) : Bool :=
  n.is .binaryExpression && n.binaryOperator? == some "as"

/-- From a parenthesis, a cast, `as`, `!` or `await` to its operand. -/
def insideConversion? (n : Node) : Option Node :=
  match n.kind? with
  | some .parenthesizedExpression => n.firstNamed?
  | some .castExpression => n.lastNamed?
  | some .asExpression | some .awaitExpression => n.firstNamed?
  | some .binaryExpression => if n.isAsOperator then n.firstNamed? else none
  | some .postfixUnaryExpression => if n.isNullForgiving then n.firstNamed? else none
  | _ => none

/-- The expression without conversions around it. -/
def stripConversions (n : Node) : Node := n.follow insideConversion?

/-! ### Operators -/

/-- The operator of a prefix or postfix expression, as it is written. -/
def unaryOperator (n : Node) : String :=
  match n.firstNamed? with
  | none => ""
  | some operand =>
    let written :=
      if n.is .prefixUnaryExpression then n.textBetween? n.start operand.start
      else n.textBetween? operand.stop (n.start + n.text.utf8ByteSize)
    Text.trim (written.getD "")

/-- The first token among the children. -/
def operatorToken (n : Node) : String :=
  ((n.children.find? fun c => !c.isNamed).map (·.label.text)).getD ""

/-- The two sides of an assignment and what stands between them. -/
structure Assignment where
  left : Node
  operator : String
  right : Node

/-- The parts of an assignment expression. -/
def assignment? (n : Node) : Option Assignment := do
  if n.is .assignmentExpression then
    let left ← n.field .left <|> n.firstNamed?
    let right ← n.field .right <|> n.lastNamed?
    let operator ← n.textBetween? left.stop right.start
    return ⟨left, Text.trim operator, right⟩
  else none

/-! ### Names -/

/-- From a qualified or generic name, or an access, to the part that holds its last name. -/
def towardsName? (n : Node) : Option Node :=
  match n.kind? with
  | some .genericName => n.firstNamed?
  | some .qualifiedName | some .aliasQualifiedName | some .memberBindingExpression => n.lastNamed?
  | some .memberAccessExpression => n.field .name <|> n.lastNamed?
  | _ => none

/-- The identifier at the end of a name: `Foo` of `Foo`, `Foo<T>`, `A.B.Foo` and `a.Foo`. -/
def simpleName? (n : Node) : Option Node :=
  let last := n.follow towardsName?
  if last.is .identifier then some last else none

/-- What stands in front of the dot of a member access. -/
def memberReceiver? (n : Node) : Option Node := n.field .expression <|> n.firstNamed?

/-- The identifier of the member that is accessed. -/
def memberName? (n : Node) : Option Node := (n.field .name <|> n.lastNamed?).bind simpleName?

/-! ### Calls -/

/-- The called expression. -/
def function? (n : Node) : Option Node := n.field .function <|> n.firstNamed?

def argumentList? (n : Node) : Option Node := n.field .arguments <|> n.childOf? [.argumentList]

def arguments (n : Node) : List Node :=
  match n.argumentList? with
  | some list => list.namedOf .argument
  | none => []

/-- The expression that is passed. -/
def argumentExpression? (n : Node) : Option Node :=
  if n.is .argument then n.lastNamed? else some n

/-- How an argument is passed, if not by value. -/
inductive Passing where
  | out
  | ref
  | readOnly
  deriving DecidableEq, Repr

/-- The part of a text after its last colon. -/
def afterColon (text : String) : String :=
  String.ofList (text.toList.reverse.takeWhile (· ≠ ':')).reverse

/-- The word in front of the expression of an argument. -/
def passing? (n : Node) : Option Passing := do
  let e ← n.lastNamed?
  let written ← n.textBetween? n.start e.start
  match Text.trim (afterColon written) with
  | "out" => some .out
  | "ref" => some .ref
  | "in" => some .readOnly
  | _ => none

/-- For `x?.M()`, where the call follows `x` in a conditional access, the `x`. -/
def conditionalReceiver? (n : Node) : Option Node := do
  let parent ← n.parent?
  if parent.is .conditionalAccessExpression then
    let first ← parent.firstNamed?
    if first == n then none else some first
  else none

/-- The name of the called member and what it is called on; `M()` has no receiver. -/
def invoked? (n : Node) : Option (Node × Option Node) := do
  let function := (← n.function?).stripParens
  match function.kind? with
  | some .identifier | some .genericName => return (← function.simpleName?, none)
  | some .memberAccessExpression => return (← function.memberName?, function.memberReceiver?)
  | some .memberBindingExpression => return (← function.simpleName?, n.conditionalReceiver?)
  | some .conditionalAccessExpression => return (← (← function.lastNamed?).simpleName?, function.firstNamed?)
  | _ => none

/-! ### Surroundings -/

def typeDeclarations : List Kind :=
  [.classDeclaration, .structDeclaration, .recordDeclaration, .recordStructDeclaration, .interfaceDeclaration]

def isTypeDeclaration (n : Node) : Bool := n.isAny typeDeclarations

/-- Functions that can stand inside a body. -/
def lambdas : List Kind :=
  [.lambdaExpression, .anonymousMethodExpression, .localFunctionStatement]

def isLambda (n : Node) : Bool := n.isAny lambdas

/-- The nodes that own a body; questions about the order of execution stay within one. -/
def regions : List Kind :=
  [.methodDeclaration, .constructorDeclaration, .destructorDeclaration, .operatorDeclaration,
   .conversionOperatorDeclaration, .accessorDeclaration, .propertyDeclaration, .indexerDeclaration,
   .fieldDeclaration, .lambdaExpression, .anonymousMethodExpression, .localFunctionStatement]

def isRegion (n : Node) : Bool := n.isAny regions

/-- The nearest region around a node. -/
def region? (n : Node) : Option Node := n.nearest? regions

/-- Whether the node bounds the members of a type. -/
def boundsMembers (n : Node) : Bool := n.isTypeDeclaration || n.is .declarationList

/-- The last node before a member list on a way up, unless a type comes first. -/
def memberBelow? (n : Node) : List Node → Option Node
  | [] => none
  | p :: ps => if p.is .declarationList then some n else if p.isTypeDeclaration then none else memberBelow? p ps

/-- The member of a type that the node lies in. -/
def containingMember? (n : Node) : Option Node := n.memberBelow? n.ancestors

/-- Whether a function lies between the node and `boundary`, or above the node if `boundary` is not. -/
def inNestedLambda (n boundary : Node) : Bool :=
  (n.ancestors.takeWhile fun a => !(a == boundary)).any isLambda

/-- The nearest statement that is or holds the node, within its member. -/
def enclosingStatement? (n : Node) : Option Node :=
  if n.label.isStatement then some n
  else (n.ancestors.takeWhile fun a => !a.boundsMembers).find? (·.label.isStatement)

end Disposal.Node

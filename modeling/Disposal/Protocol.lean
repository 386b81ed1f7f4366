import Disposal.Ownership.Sharing

/-!
# The dispose pattern

The methods by which a type releases what it owns, the calls that release a value, and the statements of a method
`Dispose(bool disposing)` that run only when it is called to release managed resources.
-/

namespace Disposal

/-- The shapes of a dispose method. -/
inductive DisposeKind where
  /-- `Dispose()`. -/
  | dispose
  /-- `Dispose(bool disposing)`. -/
  | disposeBool
  | disposeAsync
  | disposeAsyncCore
  deriving DecidableEq, Repr

namespace DisposeKind

/-- The name of the methods of a shape. -/
def methodName : DisposeKind → String
  | dispose | disposeBool => "Dispose"
  | disposeAsync => "DisposeAsync"
  | disposeAsyncCore => "DisposeAsyncCore"

/-- The shape of a method, if it is a dispose method. -/
def of? (method : Node) : Option DisposeKind := do
  if method.is .methodDeclaration then
    match ← method.nameText?, method.parameters with
    | "Dispose", [] => some dispose
    | "Dispose", [p] => if (p.declaredTypeNode?.map (·.text)) == some "bool" then some disposeBool else none
    | "DisposeAsync", [] => some disposeAsync
    | "DisposeAsyncCore", [] => some disposeAsyncCore
    | _, _ => none
  else none

end DisposeKind

/-- A dispose method. -/
structure DisposeMethod where
  kind : DisposeKind
  node : Node

namespace Compilation

/-- The dispose methods that a type declares itself. -/
def disposeMethods (c : Compilation) (t : TypeDecl) : List DisposeMethod :=
  (c.members t).filterMap fun m => (DisposeKind.of? m).map fun kind => ⟨kind, m⟩

/-- The order in which a dispose method is chosen to release another member. -/
def primaryKinds : List DisposeKind := [.disposeBool, .dispose, .disposeAsyncCore, .disposeAsync]

/-- The dispose method of a type that is the one to release another member. -/
def primaryDisposeMethod? (c : Compilation) (t : TypeDecl) : Option DisposeMethod :=
  primaryKinds.findSome? fun kind => (c.disposeMethods t).find? (·.kind == kind)

/-- The dispose methods that may release members of a type: its own and those of its base and derived classes. -/
def protocolMethods (c : Compilation) (t : TypeDecl) : List DisposeMethod :=
  (t :: c.baseChain t ++ c.derivedTypes t).flatMap c.disposeMethods

/-- Whether a type can be disposed or declares a dispose method. -/
def hasDisposeProtocol (c : Compilation) (t : TypeDecl) : Bool :=
  c.isDisposableName t.name || !(c.disposeMethods t).isEmpty

end Compilation

/-! ### Calls -/

namespace Node

/-- What `x.Dispose()`, `x?.Dispose()` or `x.DisposeAsync()` releases. -/
def disposeReceiver? (call : Node) : Option Node := do
  if call.is .invocationExpression then
    let (name, receiver?) ← call.invoked?
    if ["Dispose", "DisposeAsync"].contains name.text && call.arguments.isEmpty then
      receiver?.filter fun r => !r.isAny [.thisExpression, .baseExpression]
    else none
  else none

/-- The name of the method that a call calls on `base`. -/
def baseCall? (call : Node) : Option String := do
  if call.is .invocationExpression then
    let (name, receiver?) ← call.invoked?
    if receiver?.any (·.is .baseExpression) then some name.text else none
  else none

/-- The nodes of a body outside of the functions in it. -/
def outsideLambdas (body : Node) : List Node := (body.walk fun n => !n.isLambda).filter fun n => !n.isLambda

/-- The nodes of a region outside of the functions in it; the region may itself be a function. -/
def ofRegion (region : Node) : List Node :=
  let enter (n : Node) : Bool := !(n.isLambda && !(n == region))
  (region.walk enter).filter enter

/-- The first statement of a method that calls a method of the base class. -/
def baseCallStatement? (method : Node) : Option Node := do
  let block ← method.blockBody?
  block.statements.find? fun s => s.is .expressionStatement && s.firstNamed?.any (·.baseCall?.isSome)

end Node

/-- Whether a dispose method calls the method that it overrides. -/
def DisposeMethod.callsBase (d : DisposeMethod) : Bool :=
  d.node.body?.any fun body => body.outsideLambdas.any fun n => n.baseCall? == some d.kind.methodName

/-! ### Guards -/

/-- What a condition says about the parameter `disposing`. -/
inductive Guard where
  /-- It holds only if `disposing` is true. -/
  | disposing
  /-- It fails only if `disposing` is true. -/
  | notDisposing
  deriving DecidableEq, Repr

def Guard.negate : Guard → Guard
  | disposing => notDisposing
  | notDisposing => disposing

namespace Guard

/-- What a condition says, looking through so many levels of it. -/
def within (m : Model) (param : Node) : Nat → Node → Option Guard
  | 0, _ => none
  | fuel + 1, condition => do
    let n := condition.stripParens
    let operand (side? : Option Node) : Option Guard := side?.bind (within m param fuel)
    match n.kind? with
    | some .identifier => if (Symbol.parameter param).isAnswer (m.symbol? n) then some disposing else none
    | some .prefixUnaryExpression => if n.unaryOperator == "!" then (operand n.firstNamed?).map negate else none
    | some .binaryExpression =>
      match ← n.binaryOperator? with
      | "&&" => (operand n.firstNamed?).filter (· == disposing) <|> (operand n.lastNamed?).filter (· == disposing)
      | "||" =>
        (operand n.firstNamed?).filter (· == notDisposing) <|> (operand n.lastNamed?).filter (· == notDisposing)
      | "==" => comparison n operand true
      | "!=" => comparison n operand false
      | _ => none
    | _ => none
where
  /-- What a comparison with a literal says: `==` and `true` keep the meaning, each of the others turns it round. -/
  comparison (n : Node) (operand : Option Node → Option Guard) (equal : Bool) : Option Guard := do
    let left ← n.firstNamed?
    let right ← n.lastNamed?
    let (side, literal) := if left.is .booleanLiteral then (right, left) else (left, right)
    if literal.is .booleanLiteral then
      let g ← operand (some side)
      return if (literal.text == "true") == equal then g else g.negate
    else none

/-- What a condition says about the parameter. -/
def of? (m : Model) (param condition : Node) : Option Guard := within m param condition.here.height condition

end Guard

/-! ### The disposing branch -/

namespace Node

/-- Condition and branches of an `if` statement. -/
def ifCondition? (n : Node) : Option Node := n.field .condition <|> n.firstNamed?

def ifConsequence? (n : Node) : Option Node := n.field .consequence <|> n.named[1]?

def ifAlternative? (n : Node) : Option Node := n.field .alternative <|> n.named[2]?

/-- The statement that an `else` holds. -/
def insideElse (n : Node) : Node := if n.is .elseClause then n.lastNamed?.getD n else n

/-- From a block to its last statement. -/
def lastStatement? (n : Node) : Option Node := if n.is .block then n.lastNamed? else none

/-- Whether a statement ends with `return` or `throw`. -/
def exits (n : Node) : Bool := (n.follow lastStatement?).isAny [.returnStatement, .throwStatement]

/-- The blocks of a `try` statement that run without an exception being caught. -/
def tryBlocks (n : Node) : List Node :=
  n.named.filterMap fun part =>
    if part.is .block then some part else if part.is .finallyClause then part.lastNamed? else none

end Node

namespace Model

/-- The parts of a statement that run only when `disposing`; `none` stands for all statements that follow it. -/
def disposingIn (guard? : Node → Option Guard) (inner : List Node → List Node) (s : Node) : Option (List Node) :=
  match s.kind? with
  | some .ifStatement =>
    match s.ifCondition?.bind guard? with
    | some .disposing => some s.ifConsequence?.toList
    | some .notDisposing => if s.ifConsequence?.any Node.exits then none else some s.ifAlternative?.toList
    | none =>
      some ((s.ifConsequence?.toList ++ s.ifAlternative?.toList).flatMap fun b => inner b.insideElse.statements)
  | some .block => some (inner s.statements)
  | some .tryStatement => some (s.tryBlocks.flatMap fun b => inner b.statements)
  | some .lockStatement | some .usingStatement =>
    some ((s.field .body <|> s.lastNamed?).toList.flatMap fun b => inner b.statements)
  | _ => some []

/-- The parts of statements that follow each other which run only when `disposing`. -/
def disposingAmong (guard? : Node → Option Guard) (inner : List Node → List Node) : List Node → List Node
  | [] => []
  | s :: rest =>
    match disposingIn guard? inner s with
    | some parts => parts ++ disposingAmong guard? inner rest
    | none => rest

/-- The same down to so many levels of statements. -/
def disposingWithin (guard? : Node → Option Guard) : Nat → List Node → List Node
  | 0, _ => []
  | depth + 1, statements => disposingAmong guard? (disposingWithin guard? depth) statements

/-- The parts of `Dispose(bool disposing)` that run only when `disposing` is true. -/
def disposingScope (m : Model) (method : Node) : List Node :=
  match method.parameters.head?, method.blockBody? with
  | some param, some block => disposingWithin (Guard.of? m param) block.here.height block.statements
  | _, _ => []

/-- The parts of a dispose method that release managed resources. -/
def releaseScope (m : Model) (d : DisposeMethod) : List Node :=
  match d.kind with
  | .disposeBool => m.disposingScope d.node
  | _ => d.node.body?.toList

/-- Where a method `Dispose(bool)` already tells its managed resources apart. -/
inductive DisposingBranch where
  /-- After `if (!disposing) return;`. -/
  | earlyReturn (statement : Node)
  /-- In the block of `if (disposing)`. -/
  | block (block : Node)

/-- The disposing branch that a statement opens. -/
def branchAt? (m : Model) (param s : Node) : Option DisposingBranch := do
  if s.is .ifStatement then
    let condition ← s.ifCondition?
    let consequence ← s.ifConsequence?
    match ← Guard.of? m param condition with
    | .notDisposing => if consequence.exits && s.ifAlternative?.isNone then some (.earlyReturn s) else none
    | .disposing => if consequence.is .block then some (.block consequence) else none
  else none

/-- The first disposing branch among the statements of a method. -/
def disposingBranch? (m : Model) (method : Node) : Option DisposingBranch := do
  let param ← method.parameters.head?
  let block ← method.blockBody?
  block.statements.findSome? (m.branchAt? param)

end Model

end Disposal

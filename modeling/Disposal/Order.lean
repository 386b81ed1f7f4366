import Disposal.Node.Declaration

/-!
# Order of execution

Does one node of a body run before another? The two nodes are split at the lowest node above both, and the construct
found there orders its children. An answer `always` is weakened when the first node runs on some paths only, and an
answer `never` when a loop can bring the first node in front of the second again.
-/

namespace Disposal

/-- Whether one node runs before another. -/
inductive Order where
  /-- On every path to the second node the first ran before. -/
  | always
  /-- The first node never runs before the second. -/
  | never
  | sometimes
  deriving DecidableEq, Repr

namespace Order

def isAlways (o : Order) : Bool := o == always

def isPossible (o : Order) : Bool := o != never

/-- The lowest node above two nodes, with its children on the ways to them. -/
structure Fork where
  top : Node
  left : Node
  right : Node

/-- The element of a way up that comes just before `a`. -/
def below? (a : Node) : List Node → Option Node
  | x :: y :: rest => if y == a then some x else below? a (y :: rest)
  | _ => none

/-- The first node of a way up that also lies on the way `path`. -/
def forkFrom? (path : List Node) (right : Node) : List Node → Option Fork
  | [] => none
  | a :: rest =>
    match below? a path with
    | some left => some ⟨a, left, right⟩
    | none => forkFrom? path a rest

/-- Where the ways up from two nodes meet. -/
def fork? (a b : Node) : Option Fork :=
  forkFrom? (a :: a.ancestors) b b.ancestors

/-- Whether the node is the given part of a construct. -/
def isPart (n : Node) (part? : Option Node) : Bool :=
  match part? with
  | some part => part == n
  | none => false

def condition? (n : Node) : Option Node := n.field .condition <|> n.firstNamed?

def loopBody? (n : Node) : Option Node := n.field .body <|> n.lastNamed?

def loops : List Kind :=
  [.whileStatement, .doStatement, .forStatement, .forEachStatement, .foreachStatement]

/-- Of two children that run one after the other the earlier runs first. -/
def byPlace (a b : Node) : Order := if a.start < b.start then always else never

/-- The parts of a `for` loop. -/
inductive ForPart where
  | initializer
  | condition
  | update
  | body
  deriving DecidableEq, Repr

/-- The part of a `for` loop that a child belongs to, told by the semicolons. -/
def forPart (loop child : Node) : ForPart :=
  if isPart child (loopBody? loop) then .body
  else
    match (loop.children.filter (·.isToken ";")).map (·.start) with
    | [] => .update
    | first :: rest =>
      if child.stop ≤ first then .initializer
      else
        match rest with
        | second :: _ => if child.stop ≤ second then .condition else .update
        | [] => .update

/-- A part that runs first and then never again, against the other parts of a construct. -/
def headFirst (a b : Node) (head? : Option Node) : Order :=
  if isPart a head? then always else if isPart b head? then never else sometimes

/-- The order of two children of a node. -/
def ofChildren (top a b : Node) : Order :=
  match top.kind? with
  | some .ifStatement | some .conditionalExpression => headFirst a b (condition? top)
  | some .whileStatement => if isPart a (condition? top) then always else sometimes
  | some .doStatement =>
    if isPart a (loopBody? top) && isPart b (top.field .condition) then always else sometimes
  | some .forStatement =>
    match forPart top a, forPart top b with
    | .initializer, _ => always
    | _, .initializer => never
    | .condition, .body => always
    | _, _ => sometimes
  | some .forEachStatement | some .foreachStatement => headFirst a b (top.field .right)
  | some .tryStatement => if a.is .finallyClause && b.is .block then never else sometimes
  | some .usingStatement | some .lockStatement | some .fixedStatement =>
    let body? := loopBody? top
    if isPart b body? then always else if isPart a body? then never else byPlace a b
  | some .switchStatement | some .switchExpression => headFirst a b (top.field .value <|> top.firstNamed?)
  | some .switchBody => sometimes
  | _ => byPlace a b

/-- Whether a child runs on some executions of its parent only. -/
def isConditionalChild (parent child : Node) : Bool :=
  match parent.kind? with
  | some .ifStatement | some .conditionalExpression | some .whileStatement => !isPart child (condition? parent)
  | some .binaryExpression =>
    ["&&", "||", "??"].contains parent.operatorToken && isPart child parent.lastNamed?
  | some .assignmentExpression => parent.operatorToken == "??=" && isPart child parent.lastNamed?
  | some .conditionalAccessExpression => !isPart child parent.firstNamed?
  | some .forStatement => forPart parent child != .initializer
  | some .forEachStatement | some .foreachStatement => isPart child (loopBody? parent)
  | some .tryStatement => child.is .catchClause
  | some .catchClause | some .switchSection | some .switchExpressionArm | some .switchBody => true
  | _ => false

/-- Whether, on a way up to `stop`, a node is a conditional child. -/
def conditionalOn (stop child : Node) : List Node → Bool
  | [] => false
  | parent :: rest =>
    if parent == stop then false
    else isConditionalChild parent child || conditionalOn stop parent rest

/-- Whether `stop` can run without running the node below it. -/
def isConditional (n stop : Node) : Bool := conditionalOn stop n n.ancestors

/-- The loop or `switch` that a `break` or `continue` leaves. -/
def jumpTarget? (jump : Node) : Option Node :=
  (jump.ancestors.takeWhile fun a => !a.isRegion).find? fun a =>
    a.isAny loops || (!jump.is .continueStatement && a.is .switchStatement)

/-- Whether a jump inside `scope` ends before the node starts, not counting functions inside `scope`. -/
def jumpAhead (scope n : Node) (isJump : Node → Bool) : Bool :=
  let enter (m : Node) : Bool := m.start < n.start && !(m.isLambda && !(m == scope))
  (scope.walk enter).any fun m => enter m && isJump m && m.stop ≤ n.start

def hasCatch (n : Node) : Bool := n.named.any (·.is .catchClause)

/-- Whether a jump ahead of `n` leaves `parent`, on whose child the way to `n` goes on, without running `n`. -/
def leavesBefore (n parent child : Node) : Bool :=
  if parent.isAny loops || parent.is .switchStatement then
    jumpAhead parent n fun j => j.isAny [.breakStatement, .continueStatement] && isPart parent (jumpTarget? j)
  else if parent.is .tryStatement && child.is .block && hasCatch parent then
    jumpAhead child n (·.isAny [.throwStatement, .throwExpression])
  else false

/-- Whether, on a way up to `stop`, a construct can be left before `n` runs. -/
def skippedOn (n stop child : Node) : List Node → Bool
  | [] => false
  | parent :: rest =>
    if parent == stop || parent.isRegion then false
    else leavesBefore n parent child || skippedOn n stop parent rest

/-- Whether a jump can leave a construct below `stop` without running the node. -/
def isSkipped (n stop : Node) : Bool := skippedOn n stop n n.ancestors

/-- Whether a region contains `goto`, which can reach any of its labels. -/
def hasGoto (region : Node) : Bool :=
  (region.walk fun m => !(m.isLambda && !(m == region))).any (·.is .gotoStatement)

/-- Whether a loop of its region can run the node again. -/
def inLoop (n : Node) : Bool :=
  (n.ancestors.takeWhile fun a => !a.isRegion).any (·.isAny loops)

/-- The order of two places of one region, neither of which holds the other. -/
def within (region a b : Node) : Order :=
  match fork? a b with
  | none => sometimes
  | some fork =>
    match ofChildren fork.top fork.left fork.right with
    | always => if isConditional a fork.top || isSkipped a fork.top || hasGoto region then sometimes else always
    | never => if inLoop fork.top then sometimes else never
    | sometimes => sometimes

/-- Whether `a` runs before `b`. -/
def executedBefore (a b : Node) : Order :=
  if a == b then never
  else if a.contains b || b.contains a then sometimes
  else
    match a.region?, b.region? with
    | some ra, some rb => if ra == rb then within ra a b else sometimes
    | _, _ => sometimes

end Order

end Disposal

import Disposal.Order
import Disposal.Ownership
import Disposal.Write

/-!
# Who owns an expression

`Model.classify?` follows the value of an expression through branches, conversions, calls, getters and locals to the
places where it comes from. A method or local that is met again on the way to itself tells nothing.

The walk is bounded by a number of nested questions. Running out of it is an answer of its own, `none`, and apart
from `some none`, which says that nothing was found out.
-/

namespace Disposal

namespace Node

/-- The `get` accessor of a property. -/
def getter? (property : Node) : Option Node :=
  property.accessors.find? fun a => a.children.any (·.label.text == "get")

/-- The part of a property that returns its value. -/
def getterBody (property : Node) : Node := property.getter?.getD property

/-- Whether the value of a property is stored with the property. -/
def isStored (property : Node) : Bool :=
  property.isAutoProperty || (property.accessors.isEmpty && property.arrowBody?.isNone)

/-- The values that the branches of a conditional expression give. -/
def branches (n : Node) : List Node := n.named.drop 1

/-- The values that the arms of a `switch` expression give. -/
def armValues (n : Node) : List Node := (n.namedOf .switchExpressionArm).filterMap lastNamed?

/-- Whether the access reads a part of a tuple or the value of a wrapper. -/
def isUnwrapping (access : Node) : Bool :=
  access.memberName?.any fun n => (tupleSlot? n.text).isSome || n.text == "Value"

end Node

/-- What was found out about the owner of a value, if anything. -/
abbrev Verdict := Option Ownership

namespace Ownership

/-- A question about owners: who owns the value of an expression as it is used at a place, or what a method returns. -/
inductive Query where
  | value (expr use : Node)
  | returns (method : Node)

/-- The answers to nested questions, given the symbols that are being asked about; `none` when there are too many. -/
abbrev Answers := List Symbol → Query → Option Verdict

/-- The verdict on several values together. -/
def together (verdicts : List Verdict) : Verdict := combine (verdicts.filterMap fun v => v)

section

variable (m : Model) (ask : Answers) (path : List Symbol)

/-- The owner of the value of an optional part of an expression. -/
def ofPart (part? : Option Node) (use : Node) : Option Verdict :=
  match part? with
  | some part => ask path (.value part use)
  | none => some none

/-- The owner of a converted value. -/
def ofConversion (part? : Option Node) (use : Node) : Option Verdict :=
  (ofPart ask path part? use).map fun v => v.map converted

/-- The owner of one of several values. -/
def ofAny (parts : List Node) (use : Node) : Option Verdict :=
  (parts.mapM fun part => ask path (.value part use)).map together

/-- Whether a returned expression reads a field or property, whose value outlives the call. -/
def returnsMember (expr : Node) : Bool :=
  let e := expr.stripParens
  e.isAny [.identifier, .memberAccessExpression] && (m.symbol? e).any (·.isMember)

/-- The owner of what a method returns. -/
def ofReturns (method : Node) : Option Verdict :=
  if path.contains (.method method) then some none
  else
    match method.returnedExpressions with
    | [] => some (some .injected)
    | es =>
      let path := .method method :: path
      (es.mapM fun e => if returnsMember m e then some (some .cached) else ask path (.value e e)).map together

/-- The owner of the value of a local where it is used: of one of the values written to it before. -/
def ofLocal (decl use : Node) : Option Verdict :=
  if decl.is .identifier then some (some .injected)
  else
    match decl.region? with
    | none => some none
    | some region =>
      let s : Symbol := .localVar decl
      if use.inNestedLambda region then some (some .injected)
      else if path.contains s then some none
      else
        let before := (m.writes s (.node region)).filter fun w => (Order.executedBefore w.node use).isPossible
        let ofWrite (w : Write) : Option Verdict :=
          match w.value? with
          | some value => ask (s :: path) (.value value w.node)
          | none => some (some .injected)
        (before.mapM ofWrite).map together

/-- The owner of what a computed property returns: a value that its getter does not make is not the caller's. -/
def ofGetter (property : Node) : Option Verdict :=
  (ask path (.returns property.getterBody)).map fun v => v.map fun o =>
    match o with
    | .created => .created
    | .cached => .cached
    | _ => .injected

/-- The owner of what a name stands for. -/
def ofSymbol (expr use : Node) : Option Verdict :=
  match m.symbol? expr with
  | none => some none
  | some s =>
    match s with
    | .localVar decl => ofLocal m ask path decl use
    | .field _ => some (some (if s.isStatic then .cached else .injected))
    | .property p =>
      if s.isStatic then some (some .cached)
      else if p.isStored then some (some .injected)
      else ofGetter ask path p
    | _ => some (some .injected)

/-- The owner of the result of a call by what it is called on, as far as that decides it. -/
def ofReceiver (call receiver use : Node) (name : String) : Option (Option Verdict) :=
  if name == "ConfigureAwait" then some (ask path (.value receiver use))
  else if Framework.isElementProjection name then some (some (some .borrowed))
  else if name == "Create" && ["Tuple", "ValueTuple"].contains receiver.stripParens.text then
    some (ofAny ask path (call.arguments.filterMap Node.argumentExpression?) use)
  else
    (m.frameworkCall? call).map fun known => some (some (if known.creates then .created else .injected))

/-- The owner of what the called method returns; what other code returns is its own. -/
def ofMethod (call : Node) : Option Verdict :=
  match m.symbol? call with
  | some (.method method) => ask path (.returns method)
  | _ => some (some .injected)

/-- The owner of the result of a call. -/
def ofCall (call use : Node) : Option Verdict :=
  match call.invoked? with
  | none => some none
  | some (name, receiver?) =>
    match receiver?.bind fun receiver => ofReceiver m ask path call receiver use name.text with
    | some answer => answer
    | none => ofMethod m ask path call

/-- The owner of the value of a member access: unwrapping keeps the owner of the wrapper. -/
def ofAccess (access use : Node) : Option Verdict :=
  if access.memberName?.isNone then some none
  else if access.isUnwrapping then
    match access.memberReceiver? with
    | none => some none
    | some receiver =>
      match ask path (.value receiver use) with
      | none => none
      | some (some o) => some (some o)
      | some none => ofSymbol m ask path access use
  else ofSymbol m ask path access use

/-- The owner of the value of an operation with two operands. -/
def ofOperation (e use : Node) : Option Verdict :=
  match e.binaryOperator? with
  | some "as" => ofConversion ask path e.firstNamed? use
  | some "??" => ofAny ask path (e.firstNamed?.toList ++ e.lastNamed?.toList) use
  | _ => some none

/-- The owner of the value of an expression. -/
def ofExpression (expr use : Node) : Option Verdict :=
  let e := expr.stripParens
  match e.kind? with
  | some .objectCreationExpression | some .implicitObjectCreationExpression => some (some .created)
  | some .castExpression => ofConversion ask path e.lastNamed? use
  | some .asExpression => ofConversion ask path e.firstNamed? use
  | some .binaryExpression => ofOperation ask path e use
  | some .postfixUnaryExpression | some .awaitExpression => ofPart ask path e.firstNamed? use
  | some .conditionalExpression => ofAny ask path e.branches use
  | some .switchExpression => ofAny ask path e.armValues use
  | some .assignmentExpression => ofPart ask path e.lastNamed? use
  | some .elementAccessExpression => some (some .injected)
  | some .tupleExpression => ofAny ask path (Model.tupleElements e) use
  | some .invocationExpression => ofCall m ask path e use
  | some .memberAccessExpression => ofAccess m ask path e use
  | some .identifier | some .genericName | some .memberBindingExpression | some .conditionalAccessExpression =>
    ofSymbol m ask path e use
  | some .thisExpression | some .baseExpression => some (some .injected)
  | _ => some none

/-- Answers one question, leaving to `ask` those that it leads to. -/
def answer : Query → Option Verdict
  | .value expr use => ofExpression m ask path expr use
  | .returns method => ofReturns m ask path method

end

/-- Answers a question by so many nested ones at most. -/
def answerWithin (m : Model) : Nat → Answers
  | 0, _, _ => none
  | depth + 1, path, query => answer m (answerWithin m depth) path query

end Ownership

namespace Model

/-- Who owns the value of an expression, if that can be found out. -/
def classify? (m : Model) (expr : Node) : Verdict :=
  (Ownership.answerWithin m m.limit [] (.value expr expr)).join

/-- Who owns what a method returns, if that can be found out. -/
def classifyReturns? (m : Model) (method : Node) : Verdict :=
  (Ownership.answerWithin m m.limit [] (.returns method)).join

end Model

end Disposal

import Disposal.Protocol

/-!
# Handing off a value

Whether a local is released where it is declared, or its value is handed to something that outlives it: returned,
stored, captured, or passed to a method that does one of these with its parameter.
-/

namespace Disposal

namespace Node

/-- Whether the value of a part of a node is also the value of the node. -/
def passesValueOf (parent part : Node) : Bool :=
  match parent.kind? with
  | some .parenthesizedExpression | some .castExpression | some .switchExpressionArm => true
  | some .postfixUnaryExpression => parent.text.toList.getLast? == some '!'
  | some .binaryExpression => parent.binaryOperator? == some "??" || parent.binaryOperator? == some "as"
  | some .conditionalExpression | some .switchExpression => !parent.firstNamed?.any (· == part)
  | _ => false

/-- The nodes that keep the value of a part. -/
def keepers : List Kind :=
  [.equalsValueClause, .variableDeclarator, .returnStatement, .arrowExpressionClause, .yieldStatement,
   .usingStatement, .arrayCreationExpression, .implicitArrayCreationExpression, .initializerExpression,
   .collectionExpression, .anonymousObjectCreationExpression, .anonymousObjectMemberDeclarator,
   .lambdaExpression]

/-- The nodes that keep the values of their arguments. -/
def argumentKeepers : List Kind :=
  [.objectCreationExpression, .implicitObjectCreationExpression, .constructorInitializer]

/-- The parameter that an argument of a call is bound to, by name or by place. -/
def boundParameter? (method call argument : Node) : Option Node :=
  match argument.named.head?.filter (·.is .nameColon) with
  | some label =>
    let word? := label.firstNamed?.map (·.text)
    method.parameters.find? fun p => p.nameText? == word?
  | none => (call.arguments.findIdx? (· == argument)).bind fun i => method.parameters[i]?

end Node

/-- What becomes of a value that is passed on from node to node upwards. -/
inductive Fate where
  | kept
  | dropped
  /-- It is an argument of a call. -/
  | passed (call argument : Node)

namespace Fate

/-- The fate of an argument of a list that a call has. -/
def ofArgument (argument call : Node) : Fate :=
  if call.isAny Node.argumentKeepers then kept
  else if call.is .invocationExpression then
    if call.invoked?.any fun (name, _) => Framework.isCollectionAdder name.text then kept
    else passed call argument
  else dropped

/-- The fate of the value of a node, by the nodes above it; a tuple that holds it as an element takes it along. -/
def along (part : Node) : List Node → Fate
  | [] => dropped
  | parent :: rest =>
    if parent.passesValueOf part then along parent rest
    else if parent.isAny Node.keepers then kept
    else if parent.is .assignmentExpression then
      if parent.assignment?.any (·.right == part) then kept else dropped
    else if parent.is .argument then
      match parent.passing?, rest with
      | some .ref, _ => kept
      | some .out, _ => dropped
      | _, list :: above =>
        if list.is .tupleExpression then along list above
        else
          match above with
          | call :: _ => ofArgument parent call
          | [] => dropped
      | _, [] => dropped
    else dropped

/-- The fate of the value that an expression reads. -/
def of (e : Node) : Fate := along e e.ancestors

end Fate

namespace Model

/-- Whether a dispose call of a region releases a variable. -/
def releasedIn (m : Model) (s : Symbol) (name : String) (region : Node) : Bool :=
  (region.preorder.filterMap Node.disposeReceiver?).any fun r => m.refersTo r.stripConversions s name

/-- Whether the value read by an expression is handed off; `follow` tells it of a parameter of a method. -/
def escapes (m : Model) (follow : Node → Node → Bool) (path : List Node) (e : Node) : Bool :=
  match Fate.of e with
  | .kept => true
  | .dropped => false
  | .passed call argument =>
    match m.symbol? call with
    | some (.method method) =>
      if path.any (· == method) then false
      else
        match Node.boundParameter? method call argument with
        | some param => follow method param
        | none => true
    | _ => false

/-- Whether a variable of a region is released or handed off, following calls to so many methods; a method that is
being followed is not followed again. -/
def handedOffWithin (m : Model) : Nat → List Node → Symbol → Node → Bool
  | 0, _, _, _ => false
  | depth + 1, path, s, region =>
    match s.name? with
    | none => true
    | some name =>
      let follow (method param : Node) : Bool :=
        handedOffWithin m depth (method :: path) (.parameter param) method
      m.releasedIn s name region ||
        (m.references s (.node region)).any fun r => r.inNestedLambda region || m.escapes follow path r

/-- Whether a local of a region is released there or handed off. -/
def isHandedOff (m : Model) (s : Symbol) (region : Node) : Bool := m.handedOffWithin (m.limit + 1) [] s region

end Model

end Disposal

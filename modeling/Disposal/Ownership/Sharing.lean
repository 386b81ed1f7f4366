import Disposal.Ownership.Classify

/-!
# Values that may be shared

`Model.mayBeShared` asks of a value that is about to be disposed whether it may come from outside or be kept
elsewhere. Only evidence for that counts; a call into unknown code proves nothing.

The walk is bounded by a number of nested questions. It runs out of it where it goes round in a circle, which it would
do for ever, and `none` says so.
-/

namespace Disposal

namespace Node

/-- What is unwrapped by `wrapper.Item1` or `wrapper.Value`. -/
def wrapper? (access : Node) : Option Node :=
  if access.isUnwrapping then
    access.memberReceiver?.filter fun r => !r.isAny [.thisExpression, .baseExpression]
  else none

/-- The words among the modifiers of a declaration. -/
def modifierWords (decl : Node) : List String :=
  (decl.children.filter (·.is .modifier)).map fun c => Text.trim c.text

/-- The `set` or `init` accessor of a property. -/
def setter? (property : Node) : Option Node :=
  property.accessors.find? fun a => ["set", "init"].contains a.accessorKeyword

/-- Whether only the type itself can set a property. -/
def hasPrivateSetter (property : Node) : Bool :=
  match property.setter? with
  | none => false
  | some setter =>
    match setter.modifierWords with
    | [] => !property.modifierWords.any ["public", "protected", "internal"].contains
    | words => words == ["private"]

/-- Whether a parameter is an `out` parameter, which brings nothing in. -/
def isOutParameter (parameter : Node) : Bool :=
  "out ".toList.isPrefixOf (Text.trimStart parameter.text.toList)

/-- The collection that a loop variable runs through. -/
def loopCollection? (loopVariable : Node) : Option Node := do
  let loop ← loopVariable.parent?
  if loop.isAny [.forEachStatement, .foreachStatement] then
    loop.field .right <|> (loop.named.reverse.drop 1).head?
  else none

end Node

namespace Sharing

/-- A question about sharing: of the value of an expression, or of what a method returns. -/
inductive Query where
  | value (expr : Node)
  | returns (method : Node)

/-- The answers to nested questions, given the symbols that are being asked about; `none` when there are too many. -/
abbrev Answers := List Symbol → Query → Option Bool

section

variable (m : Model) (ask : Answers) (path : List Symbol)

/-- Whether the value of one of some expressions may be shared. -/
def ofAny (es : List Node) : Option Bool := es.anyM fun e => ask path (.value e)

/-- Whether what a method returns may be shared; a method that leads back to itself adds nothing. -/
def ofReturns (method : Node) : Option Bool :=
  if path.contains (.method method) then some false
  else ofAny ask (.method method :: path) method.returnedExpressions

/-- Whether a value assigned to a variable may be shared; a variable that leads back to itself adds nothing. -/
def ofVariable (s : Symbol) : Option Bool :=
  if path.contains s then some false
  else
    match Scope.ofSymbol? m.compilation s with
    | some scope => ofAny ask (s :: path) ((m.writes s scope).filterMap (·.value?))
    | none => some false

/-- Whether what a local holds may be shared; a loop variable holds what its collection holds. -/
def ofLocal (decl : Node) : Option Bool :=
  if decl.is .identifier then ofAny ask path decl.loopCollection?.toList
  else ofVariable m ask path (.localVar decl)

/-- Whether what a symbol stands for may be shared. -/
def ofSymbol (s : Symbol) : Option Bool :=
  match s with
  | .parameter p => some !p.isOutParameter
  | .setterValue p =>
    if p.is .propertyDeclaration && p.hasPrivateSetter then ofVariable m ask path (.property p) else some true
  | .field _ => if s.isStatic then some true else ofVariable m ask path s
  | .property p =>
    if s.isStatic then some true
    else if !p.isAutoProperty && p.initializer?.isNone then ask path (.returns p.getterBody)
    else ofVariable m ask path s
  | .localVar decl => ofLocal m ask path decl
  | .method _ | .type _ | .framework _ | .external => some false

/-- Whether the value of a name may be shared. -/
def ofName (e : Node) : Option Bool :=
  match m.symbol? e with
  | some s => ofSymbol m ask path s
  | none => some false

/-- Whether what the called method returns may be shared. -/
def ofMethod (call : Node) : Option Bool :=
  match m.symbol? call with
  | some (.method method) => ask path (.returns method)
  | _ => some false

/-- Whether the result of a call may be shared. -/
def ofCall (call : Node) : Option Bool :=
  match call.invoked? with
  | none => some false
  | some (_, none) => ofMethod m ask path call
  | some (name, some receiver) =>
    if name.text == "ConfigureAwait" || Framework.isElementProjection name.text then ask path (.value receiver)
    else if (m.frameworkCall? call).isSome then some false
    else ofMethod m ask path call

/-- Whether the value of an expression without conversions may be shared. -/
def ofBare (e : Node) : Option Bool :=
  match e.kind? with
  | some .elementAccessExpression | some .elementBindingExpression => some true
  | some .conditionalExpression => ofAny ask path e.branches
  | some .switchExpression => ofAny ask path e.armValues
  | some .binaryExpression => if e.binaryOperator? == some "??" then ofAny ask path e.named else some false
  | some .assignmentExpression => ofAny ask path e.lastNamed?.toList
  | some .invocationExpression => ofCall m ask path e
  | some .memberAccessExpression =>
    match e.wrapper? with
    | some wrapper => ask path (.value wrapper)
    | none => ofName m ask path e
  | some .identifier | some .genericName | some .memberBindingExpression | some .conditionalAccessExpression =>
    ofName m ask path e
  | _ => some false

/-- Whether the value of an expression may be shared. -/
def ofExpression (expr : Node) : Option Bool := ofBare m ask path expr.stripConversions

/-- Answers one question, leaving to `ask` those that it leads to. -/
def answer : Query → Option Bool
  | .value expr => ofExpression m ask path expr
  | .returns method => ofReturns ask path method

end

/-- Answers a question by so many nested ones at most. -/
def answerWithin (m : Model) : Nat → Answers
  | 0, _, _ => none
  | depth + 1, path, query => answer m (answerWithin m depth) path query

end Sharing

/-- Whether the value of an expression may come from outside or be kept elsewhere. There is no answer where the walk
never ends. -/
def Model.mayBeShared (m : Model) (expr : Node) : Option Bool := Sharing.answerWithin m m.limit [] (.value expr)

end Disposal

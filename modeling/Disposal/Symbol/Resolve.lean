import Disposal.Symbol.Lookup

/-!
# Resolving expressions

What an expression stands for and which type it has. The two questions depend on each other and on themselves, and a
program may ask them in a circle (`var a = b; var b = a;`), so that each answer is found in a bounded number of
steps: `Resolver.step` answers one question by a resolver that answers those it leads to, and `Resolver.within` goes
through that a given number of times.
-/

namespace Disposal

/-- Answers to the questions what an expression stands for, which type it has, and with which type a symbol is
declared. -/
structure Resolver where
  symbol? : Node → Option Symbol
  type? : Node → Option TypeRef
  declaredType? : Symbol → Option TypeRef

namespace TypeRef

/-- The type if something is known of it. -/
def known? (t : TypeRef) : Option TypeRef := if t.isKnown then some t else none

/-- The type that a node writes, if something is known of it. -/
def knownOf? (n : Node) : Option TypeRef := (ofNode n).known?

end TypeRef

/-- The index of the part of a tuple that `ItemN` names. -/
def tupleSlot? (name : String) : Option Nat := do
  let digits ← "Item".toList.isPrefixOf? name.toList
  if digits.isEmpty || digits.any (fun d => !d.isDigit) then none
  else
    let n := digits.foldl (fun n d => 10 * n + (d.toNat - '0'.toNat)) 0
    if n = 0 || UInt64.size ≤ n then none else some (n - 1)

namespace Resolver

/-- The resolver that answers nothing. -/
def silent : Resolver := ⟨fun _ => none, fun _ => none, fun _ => none⟩

/-! ### Symbols -/

/-- The access or generic name that an identifier is the name of. -/
def namedAccess? (n simple : Node) : Option Node := do
  let parent ← n.parent?
  match parent.kind? with
  | some .memberAccessExpression =>
    if parent.memberName?.any (· == simple) && parent.memberReceiver?.any (fun r => !(r == n)) then some parent
    else none
  | some .memberBindingExpression | some .genericName => some parent
  | _ => none

/-- The member with a name of a type, or something unknown. -/
def memberOf (c : Compilation) (t : TypeDecl) (name : String) (arity? : Option Nat) : Symbol :=
  (c.lookupMember? t name arity?).getD .external

/-- The member with a name of what a receiver stands for. -/
def memberOn? (c : Compilation) (r : Resolver) (receiver : Node) (name : String) (arity? : Option Nat) :
    Option Symbol :=
  match receiver.kind? with
  | some .thisExpression => (c.containingType? receiver).map fun t => memberOf c t name arity?
  | some .baseExpression =>
    ((c.containingType? receiver).bind c.baseClass?).map fun t => memberOf c t name arity?
  | some .predefinedType => some .external
  | _ =>
    match r.symbol? receiver with
    | some (.type t) => some (memberOf c t name arity?)
    | some (.framework _) => some .external
    | _ =>
      match ((r.type? receiver).bind (·.name?)).bind c.classNamed? with
      | some t => some (memberOf c t name arity?)
      | none => some .external

/-- What an expression stands for. -/
def symbolStep (c : Compilation) (r : Resolver) (e : Node) : Option Symbol :=
  let n := e.stripParens
  match n.kind? with
  | some .identifier | some .genericName => do
    let simple ← n.simpleName?
    match namedAccess? n simple with
    | some access => r.symbol? access
    | none => c.declaredAt? simple <|> some (c.lookupName n simple.text n.callArity?)
  | some .memberAccessExpression => do
    memberOn? c r (← n.memberReceiver?).stripParens (← n.memberName?).text n.callArity?
  | some .memberBindingExpression => do
    memberOn? c r (← n.bindingReceiver?) (← n.simpleName?).text n.callArity?
  | some .conditionalAccessExpression => n.lastNamed?.bind r.symbol?
  | some .invocationExpression => n.function?.bind r.symbol?
  | _ => none

/-! ### Types of symbols -/

/-- The type with which a variable of a list is declared; that of `var` is the type of its value. -/
def variableType? (r : Resolver) (declarator : Node) : Option TypeRef := do
  let written ← declarator.parent?.bind Node.variableTypeNode?
  match TypeRef.ofNode written with
  | .inferred => declarator.initializer?.bind r.type?
  | t => t.known?

/-- The type of a loop or `catch` variable; that of `var` is the type of the elements. -/
def loopVariableType? (r : Resolver) (variableName : Node) : Option TypeRef := do
  let owner ← variableName.parent?
  let written ← owner.field .type <|> owner.firstNamed?.filter fun t => !(t == variableName)
  match TypeRef.ofNode written with
  | .inferred => ((← owner.field .right) |> r.type?).bind (·.element?)
  | t => t.known?

/-- The type with which a symbol is declared. -/
def declaredTypeStep (r : Resolver) : Symbol → Option TypeRef
  | .localVar n =>
    match n.kind? with
    | some .variableDeclarator => variableType? r n
    | some .declarationExpression | some .declarationPattern => n.firstNamed?.bind TypeRef.knownOf?
    | _ => loopVariableType? r n
  | .parameter p => if p.is .parameter then p.declaredTypeNode?.bind TypeRef.knownOf? else none
  | .field n => (n.parent?.bind Node.variableTypeNode?).bind TypeRef.knownOf?
  | .setterValue p | .property p | .method p => p.declaredTypeNode?.bind TypeRef.knownOf?
  | .type t => some (.simple t.name)
  | .framework _ | .external => none

/-! ### Types of expressions -/

/-- The type of what a name stands for. -/
def symbolType? (r : Resolver) (e : Node) : Option TypeRef :=
  match r.symbol? e with
  | none | some (.method _) | some (.framework _) | some .external => none
  | some s => r.declaredType? s

/-- The type that `new()` takes from the place it stands at. -/
def targetType? (r : Resolver) (e : Node) : Option TypeRef := do
  let parent ← e.parent?
  match parent.kind? with
  | some .equalsValueClause =>
    let owner ← parent.parent?
    match owner.kind? with
    | some .variableDeclarator => r.declaredType? owner.variableSymbol
    | some .propertyDeclaration => r.declaredType? (.property owner)
    | _ => none
  | some .propertyDeclaration => r.declaredType? (.property parent)
  | some .variableDeclarator => r.declaredType? parent.variableSymbol
  | some .assignmentExpression => (parent.field .left <|> parent.firstNamed?).bind r.type?
  | _ => none

/-- The types of some expressions. -/
def typesOf (r : Resolver) (es : List Node) : List TypeRef :=
  es.map fun e => (r.type? e).getD .unknown

/-- The type of `Tuple.Create(…)` and `ValueTuple.Create(…)`. -/
def tupleCreation? (r : Resolver) (call receiver : Node) (name : String) : Option TypeRef :=
  if name == "Create" then
    let args := typesOf r (call.arguments.filterMap Node.argumentExpression?)
    match receiver.stripParens.simpleName?.map (·.text) with
    | some "Tuple" => some (.named "Tuple" args)
    | some "ValueTuple" => some (.tuple args)
    | _ => none
  else none

/-- The type of a call by what it is called on, as far as that decides it. -/
def receiverType? (r : Resolver) (framework : Node → Option Framework.Call) (call receiver : Node) (name : String) :
    Option TypeRef :=
  let element? := if Framework.isElementProjection name then (r.type? receiver).bind (·.element?) else none
  element? <|> tupleCreation? r call receiver name <|> (framework call).map fun known => .ofText known.returns

/-- The type of what the called method returns. -/
def methodType? (r : Resolver) (call : Node) : Option TypeRef :=
  match r.symbol? call with
  | some (.method m) => r.declaredType? (.method m)
  | _ => none

/-- The type of a call. -/
def callType? (r : Resolver) (framework : Node → Option Framework.Call) (call : Node) : Option TypeRef := do
  let (name, receiver?) ← call.invoked?
  match receiver? with
  | some receiver =>
    if name.text == "ConfigureAwait" then r.type? receiver
    else receiverType? r framework call receiver name.text <|> methodType? r call
  | none => methodType? r call

/-- The type of a part of a tuple, if the access reads one. -/
def slotType? (r : Resolver) (receiver : Node) (name : String) : Option (Option TypeRef) := do
  let slot ← tupleSlot? name
  let slots ← (r.type? receiver).bind (·.slots?)
  return slots[slot]?.bind (·.known?)

/-- The type of a member access. -/
def accessType? (r : Resolver) (e : Node) : Option TypeRef := do
  let name := (← e.memberName?).text
  let receiver ← e.memberReceiver?
  match slotType? r receiver name with
  | some t? => t?
  | none =>
    let shared? := match r.symbol? receiver with
      | some (.framework f) => (Framework.staticMember? f name).map TypeRef.ofText
      | _ => none
    shared? <|> symbolType? r e

def booleanOperators : List String := ["==", "!=", "<", ">", "<=", ">=", "&&", "||"]

/-- The type of an operation. -/
def operationType? (r : Resolver) (e : Node) : Option TypeRef := do
  let operator ← e.binaryOperator?
  if operator == "as" then e.lastNamed?.bind TypeRef.knownOf?
  else if operator == "??" then e.firstNamed?.bind r.type? <|> e.lastNamed?.bind r.type?
  else if booleanOperators.contains operator then some (.simple "bool")
  else none

/-- The type of an expression. -/
def typeStep (c : Compilation) (framework : Node → Option Framework.Call) (r : Resolver) (expr : Node) :
    Option TypeRef :=
  let e := expr.stripParens
  match e.kind? with
  | some .identifier | some .genericName | some .memberBindingExpression | some .conditionalAccessExpression =>
    symbolType? r e
  | some .memberAccessExpression => accessType? r e
  | some .invocationExpression => callType? r framework e
  | some .objectCreationExpression | some .castExpression | some .arrayCreationExpression =>
    (e.field .type <|> e.firstNamed?).bind TypeRef.knownOf?
  | some .implicitObjectCreationExpression => targetType? r e
  | some .asExpression => (e.field .right <|> e.lastNamed?).bind TypeRef.knownOf?
  | some .binaryExpression => operationType? r e
  | some .conditionalExpression => e.named[1]?.bind r.type? <|> e.named[2]?.bind r.type?
  | some .awaitExpression => (e.firstNamed?.bind r.type?).bind (·.awaited?)
  | some .tupleExpression => some (.tuple (typesOf r (e.named.filterMap Node.argumentExpression?)))
  | some .assignmentExpression => (e.field .left <|> e.firstNamed?).bind r.type?
  | some .elementAccessExpression => ((e.field .expression <|> e.firstNamed?).bind r.type?).bind (·.element?)
  | some .thisExpression => (c.containingType? e).map fun t => .simple t.name
  | some .stringLiteral | some .verbatimStringLiteral | some .rawStringLiteral
  | some .interpolatedStringExpression => some (.simple "string")
  | some .integerLiteral => some (.simple "int")
  | some .booleanLiteral => some (.simple "bool")
  | some .implicitArrayCreationExpression => some (.array .unknown)
  | _ => none

/-- Answers by one step each, leaving to `r` the questions that the step leads to. -/
def step (c : Compilation) (framework : Node → Option Framework.Call) (r : Resolver) : Resolver where
  symbol? := symbolStep c r
  type? := typeStep c framework r
  declaredType? := declaredTypeStep r

/-- The resolver that goes through so many steps before it gives up. -/
def within (c : Compilation) (framework : Node → Option Framework.Call) : Nat → Resolver
  | 0 => silent
  | steps + 1 => step c framework (within c framework steps)

/-- The library method that a call calls, told by its name and by what it is called on. -/
def frameworkCall? (r : Resolver) (call : Node) : Option Framework.Call := do
  let (name, receiver?) ← call.invoked?
  let receiver := (← receiver?).stripParens
  match r.symbol? receiver with
  | some (.framework f) => Framework.call? f name.text
  | some .external => Framework.call? (← receiver.simpleName?).text name.text
  | _ => Framework.call? (← (r.type? receiver).bind (·.name?)) name.text

/-- The library method that a call calls; finding the type of its receiver may lead to so many further calls. A question
that leads back to itself, as the one about `x.Start()` in `var x = x.Start();`, would be asked again and again without
end; here the last of so many has the answer `none`. -/
def frameworkWithin (c : Compilation) : Nat → Node → Option Framework.Call
  | 0, _ => none
  | calls + 1, call => frameworkCall? (within c (frameworkWithin c calls) Compilation.lookupDepth) call

end Resolver

/-- A compilation together with the answers to questions about its expressions. -/
structure Model extends Resolver where
  compilation : Compilation
  /-- The library method that a call calls. -/
  frameworkCall? : Node → Option Framework.Call
  /-- How deep the questions of an analysis may be nested. -/
  limit : Nat

/-- The answers that the texts of a compilation give. As long as no call is asked about while it is being asked about,
there are fewer nested questions about calls than nodes, and none is cut off. Where one is, as in `var x = x.Start();`,
looking up never ends; the model then has `none` for an answer that is never given. An analysis asks about no symbol
while it is asking about it; symbols of six sorts are declared by nodes, and from one to the next a question goes
through fewer expressions than there are nodes. -/
def Compilation.model (c : Compilation) : Model :=
  let size := c.size
  let framework := Resolver.frameworkWithin c (size + 1)
  { Resolver.within c framework Compilation.lookupDepth with
    compilation := c
    frameworkCall? := framework
    limit := 6 * (size + 1) * (size + 1) }

end Disposal

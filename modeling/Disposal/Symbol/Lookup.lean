import Disposal.Symbol

/-!
# Looking up names

A member is looked up in its type and then along the base classes. A simple name is looked up outwards from where it
is used: variables of blocks and statements, parameters, members of the types around, and at last type names.
-/

namespace Disposal

namespace Node

/-- Whether a variable is that of a field. -/
def isFieldVariable (declarator : Node) : Bool :=
  match declarator.parent?.bind parent? with
  | some f => f.isAny [.fieldDeclaration, .eventFieldDeclaration]
  | none => false

/-- The symbol that a variable declares. -/
def variableSymbol (declarator : Node) : Symbol :=
  if declarator.isFieldVariable then .field declarator else .localVar declarator

/-- The variable of a `foreach` loop, if it is a single one. -/
def foreachVariable? (loop : Node) : Option Node :=
  match loop.field .left with
  | some left => if left.is .identifier then some left else none
  | none =>
    if loop.children.any (·.isToken "in") then
      ((loop.children.takeWhile fun c => !c.isToken "in").reverse.find? (·.isNamed)).filter (·.is .identifier)
    else none

/-- The variable of a `catch` clause. -/
def catchVariable? (decl : Node) : Option Node :=
  match decl.field .name with
  | some name => some name
  | none =>
    match decl.named with
    | [_, name] => some name
    | _ => none

/-- The number of arguments, if the node is what a call calls. -/
def callArity? (n : Node) : Option Nat := do
  let target := match n.parent? with
    | some p =>
      if p.isAny [.memberAccessExpression, .memberBindingExpression, .genericName] && p.lastNamed?.any (· == n)
      then p else n
    | none => n
  let call ← target.parent?
  if call.is .invocationExpression && call.function?.any (· == target) then some call.arguments.length else none

/-- Whether the parameter takes any number of arguments. -/
def isVariadic (parameter : Node) : Bool :=
  "params ".toList.isPrefixOf (Text.trimStart parameter.text.toList)

/-- Whether a method can be called with this number of arguments. -/
def acceptsArity (method : Node) (n : Nat) : Bool :=
  let ps := method.parameters
  let required := ps.filter fun p => p.initializer?.isNone && !p.isVariadic
  required.length ≤ n && (ps.any isVariadic || n ≤ ps.length)

/-- The receiver of `.Name` in `receiver?.Name`. -/
def bindingReceiver? (binding : Node) : Option Node := do
  let access ← binding.ancestors.find? (·.is .conditionalAccessExpression)
  access.firstNamed?.filter fun r => !r.contains binding

/-- The parameter with a name. -/
def parameterNamed? (scope : Node) (name : String) : Option Node :=
  scope.parameters.find? fun p =>
    (if p.is .identifier then some p.text else p.nameText?) == some name

/-- The declaration of a name by a pattern or an `out` argument of a statement, ahead of its use; the last one
counts. -/
def patternDeclaration? (statement use : Node) (name : String) : Option Node :=
  let enter (n : Node) : Bool :=
    n.start < use.start && !n.isLambda && !(n.is .block && !n.contains use)
  let declares (n : Node) : Bool :=
    n.isAny [.declarationExpression, .declarationPattern] &&
      n.lastNamed?.any fun d => d.is .identifier && d.text == name
  ((statement.walk enter).filter fun n => enter n && declares n).getLast?

/-- The variable with a name among those of a list. -/
def variableNamed? (list : Node) (name : String) : Option Node :=
  list.declarators.find? fun d => d.nameText? == some name

/-- The local that a statement declares under a name, ahead of its use. -/
def localOfStatement? (statement use : Node) (name : String) : Option Node :=
  if statement.start ≤ use.start then
    patternDeclaration? statement use name <|>
      (if statement.is .localDeclarationStatement then
        statement.variableDeclaration?.bind (variableNamed? · name)
      else none)
  else none

/-- What a name stands for in a block: a function anywhere in it, or the last local declared ahead of its use. -/
def inBlock? (block use : Node) (name : String) : Option Symbol :=
  match block.named.find? fun s => s.is .localFunctionStatement && s.nameText? == some name with
  | some function => some (.method function)
  | none => (block.named.filterMap (localOfStatement? · use name)).getLast?.map .localVar

end Node

namespace Compilation

/-- The field, property or type with a name that a member declares. -/
def memberSymbol? (c : Compilation) (name : String) (member : Node) : Option Symbol :=
  match member.kind? with
  | some .fieldDeclaration =>
    ((fieldVariables member).find? fun d => d.nameText? == some name).map .field
  | some .propertyDeclaration => if member.nameText? == some name then some (.property member) else none
  | _ =>
    if member.isTypeDeclaration && member.nameText? == some name then (c.typeAt? member).map .type else none

/-- The method with a name, rather one that can be called with the number of arguments. -/
def methodFor? (methods : List Node) (arity? : Option Nat) : Option Node :=
  match arity? with
  | some n => methods.find? (·.acceptsArity n) <|> methods.head?
  | none => methods.head?

/-- The member with a name that a type declares itself. -/
def ownMember? (c : Compilation) (t : TypeDecl) (name : String) (arity? : Option Nat) : Option Symbol :=
  (c.members t).findSome? (c.memberSymbol? name) <|> (methodFor? (c.methodsNamed t name) arity?).map .method

/-- The member with a name of a type or the nearest base class that has one. -/
def lookupMember? (c : Compilation) (t : TypeDecl) (name : String) (arity? : Option Nat) : Option Symbol :=
  (t :: c.baseChain t).findSome? fun s => c.ownMember? s name arity?

/-- Accessors that have a `value`. -/
def settingWords : List String := ["set", "init", "add", "remove"]

/-- What a name stands for in one of the nodes around its use. -/
def inScope? (c : Compilation) (use : Node) (name : String) (arity? : Option Nat) (scope : Node) : Option Symbol :=
  match scope.kind? with
  | some .block | some .switchSection => scope.inBlock? use name
  | some .usingStatement | some .fixedStatement | some .forStatement =>
    ((scope.childOf? [.variableDeclaration]).bind (·.variableNamed? name)).map .localVar
  | some .forEachStatement | some .foreachStatement =>
    (scope.foreachVariable?.filter (·.text == name)).map .localVar
  | some .catchClause =>
    (((scope.childOf? [.catchDeclaration]).bind Node.catchVariable?).filter (·.text == name)).map .localVar
  | some .lambdaExpression | some .anonymousMethodExpression | some .localFunctionStatement
  | some .methodDeclaration | some .constructorDeclaration | some .destructorDeclaration
  | some .operatorDeclaration | some .conversionOperatorDeclaration | some .indexerDeclaration =>
    (scope.parameterNamed? name).map .parameter
  | some .accessorDeclaration =>
    if name == "value" && settingWords.contains scope.accessorKeyword then
      (scope.nearest? [.propertyDeclaration, .indexerDeclaration, .eventDeclaration]).map .setterValue
    else none
  | _ =>
    if scope.isTypeDeclaration then
      (scope.parameterNamed? name).map .parameter <|>
        (c.typeAt? scope).bind fun t => c.lookupMember? t name arity?
    else none

/-- What a simple name stands for where it is used. -/
def lookupName (c : Compilation) (use : Node) (name : String) (arity? : Option Nat) : Symbol :=
  match use.ancestors.findSome? (c.inScope? use name arity?) with
  | some s => s
  | none =>
    match c.classNamed? name with
    | some t => .type t
    | none => if Framework.isStaticType name then .framework name else .external

/-- The symbol that an identifier declares, if it is the name in a declaration. -/
def declaredAt? (c : Compilation) (identifier : Node) : Option Symbol := do
  let decl ← identifier.parent?
  let isName := decl.nameOf?.any (· == identifier)
  match decl.kind? with
  | some .variableDeclarator => if isName then some decl.variableSymbol else none
  | some .parameter => if isName then some (.parameter decl) else none
  | some .propertyDeclaration => if isName then some (.property decl) else none
  | some .methodDeclaration | some .localFunctionStatement => if isName then some (.method decl) else none
  | some .declarationExpression | some .declarationPattern =>
    if decl.lastNamed?.any (· == identifier) then some (.localVar decl) else none
  | some .forEachStatement | some .foreachStatement =>
    if decl.foreachVariable?.any (· == identifier) then some (.localVar identifier) else none
  | some .catchDeclaration =>
    if decl.catchVariable?.any (· == identifier) then some (.localVar identifier) else none
  | _ => if decl.isTypeDeclaration && isName then (c.typeAt? decl).map .type else none

end Compilation

end Disposal

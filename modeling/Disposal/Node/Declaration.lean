import Disposal.Node.Expression

/-!
# Declarations

How the parts of a declaration are found in the tree: its name, type, initial value, parameters, body, modifiers,
attributes and accessors.
-/

namespace Disposal.Node

/-! ### Names and types -/

/-- The kinds of node in front of which the name of a declaration stands. -/
def nameEnds : List Kind :=
  [.parameterList, .accessorList, .arrowExpressionClause, .block, .typeParameterList, .baseList, .declarationList]

/-- The node that names what a declaration declares. -/
def nameOf? (decl : Node) : Option Node :=
  match decl.field .name with
  | some n => n.simpleName? <|> some n
  | none =>
    match decl.kind? with
    | some .variableDeclarator => decl.firstNamed?.filter (·.is .identifier)
    | some .parameter => decl.named.reverse.find? (·.is .identifier)
    | _ =>
      if decl.named.any (·.isAny nameEnds) then
        (decl.named.takeWhile fun c => !c.isAny nameEnds).reverse.find? (·.is .identifier)
      else none

/-- The name of what a declaration declares. -/
def nameText? (decl : Node) : Option String := decl.nameOf?.map (·.text)

/-- The written type of a property, method or parameter. -/
def declaredTypeNode? (decl : Node) : Option Node :=
  match decl.field .type <|> decl.field .returns with
  | some t => some t
  | none => do
    let name ← decl.nameOf?
    let before := decl.named.takeWhile fun c => c.start < name.start
    (before.filter fun c => !c.isAny [.attributeList, .modifier, .explicitInterfaceSpecifier]).getLast?

/-! ### Variables -/

/-- The list of variables of a declaration, which may be the node itself. -/
def variableDeclaration? (n : Node) : Option Node :=
  if n.is .variableDeclaration then some n else n.childOf? [.variableDeclaration]

/-- The variables of a list of variables. -/
def declarators (n : Node) : List Node := n.namedOf .variableDeclarator

/-- The written type of a list of variables. -/
def variableTypeNode? (n : Node) : Option Node :=
  n.field .type <|> n.firstNamed?.filter fun c => !c.is .variableDeclarator

/-- The value after `=` of a variable or property. -/
def initializer? (decl : Node) : Option Node :=
  match decl.childOf? [.equalsValueClause] with
  | some clause => clause.firstNamed?
  | none =>
    let value := if decl.is .propertyDeclaration then decl.field .value else none
    match value.filter fun v => !v.is .arrowExpressionClause with
    | some v => some v
    | none =>
      match decl.children.dropWhile fun c => !c.isToken "=" with
      | [] => none
      | _ :: after => after.find? fun c => c.isNamed && !c.isTrivia

/-- The parameters of a method or function; that of `x => e` is an identifier. -/
def parameters (decl : Node) : List Node :=
  match decl.field .parameters <|> decl.childOf? [.parameterList, .bracketedParameterList] with
  | some list => list.namedOf .parameter
  | none =>
    if decl.is .lambdaExpression then (decl.firstNamed?.filter (·.is .identifier)).toList else []

/-! ### Bodies -/

def blockBody? (decl : Node) : Option Node :=
  (decl.field .body).filter (·.is .block) <|> decl.childOf? [.block]

/-- The expression that is the whole body. -/
def arrowBody? (decl : Node) : Option Node :=
  if decl.is .lambdaExpression then decl.lastNamed?.filter fun b => !b.is .block
  else (decl.childOf? [.arrowExpressionClause]).bind firstNamed?

/-- The block or expression that a member, accessor or function consists of. -/
def body? (decl : Node) : Option Node :=
  if decl.is .lambdaExpression then decl.lastNamed? else decl.blockBody? <|> decl.arrowBody?

/-- The statements of a block; any other node is its own only statement. -/
def statements (n : Node) : List Node := if n.is .block then n.named else [n]

/-- The expressions that a body returns, without those of functions inside it. -/
def returnedExpressions (decl : Node) : List Node :=
  match decl.arrowBody? with
  | some e => [e]
  | none =>
    match decl.blockBody? with
    | none => []
    | some block =>
      ((block.walk fun n => !n.isLambda).filter (·.is .returnStatement)).filterMap firstNamed?

/-! ### Modifiers and attributes -/

/-- The declaration that carries the modifiers: that of the whole list for a variable. -/
def modified (decl : Node) : Node :=
  if decl.is .variableDeclarator then (decl.parent?.bind parent?).getD decl else decl

/-- Whether a declaration has a modifier. -/
def hasModifier (decl : Node) (word : String) : Bool :=
  decl.modified.children.any fun c => (c.is .modifier && Text.trim c.text == word) || c.isToken word

/-- The attributes of a declaration. -/
def attributes (decl : Node) : List Node :=
  (decl.namedOf .attributeList).flatMap (·.namedOf .attributeUse)

/-- The text without the ending, if it has it. -/
def withoutEnding (ending text : String) : String :=
  match ending.toList.reverse.isPrefixOf? text.toList.reverse with
  | some rest => String.ofList rest.reverse
  | none => text

/-- The last name of an attribute, without the ending `Attribute`. -/
def attributeName? (attr : Node) : Option String := do
  let name ← attr.field .name <|> attr.firstNamed?
  return withoutEnding "Attribute" (name.simpleName?.getD name).text

/-- The names of the attributes of a declaration. -/
def attributeNames (decl : Node) : List String := decl.attributes.filterMap attributeName?

/-! ### Properties -/

def accessorWords : List String := ["get", "set", "init", "add", "remove"]

/-- The word that says what an accessor does. -/
def accessorKeyword (accessor : Node) : String :=
  let word? (c : Node) : Option String :=
    if accessorWords.contains c.label.text then some c.label.text
    else if c.is .identifier then some c.text
    else none
  (accessor.children.findSome? word?).getD ""

def accessors (property : Node) : List Node :=
  match property.field .accessors <|> property.childOf? [.accessorList] with
  | some list => list.namedOf .accessorDeclaration
  | none => []

/-- Whether a property has accessors and none of them has a body. -/
def isAutoProperty (property : Node) : Bool :=
  !property.accessors.isEmpty && property.accessors.all fun a => a.body?.isNone

end Disposal.Node

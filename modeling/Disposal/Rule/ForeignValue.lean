import Disposal.Protocol
import Disposal.Rule

/-!
# Foreign values

A value that came from outside, or is kept elsewhere, is not to be disposed here.
-/

namespace Disposal.ForeignValue

/-- Reports a node by the first line of its text. -/
def report (n : Node) : Report :=
  let shown := Text.trim ((Text.lines n.text).head?.getD n.text)
  { lint := .dontDisposeInjected
    node := n
    message := s!"Don't dispose injected: `{shown}` is owned elsewhere"
    help? := some "The value may still be used by its owner after it is disposed here"
    suggestion? := none }

/-- The values that the variables of a declaration are set to. -/
def declaredResources (n : Node) : List Node :=
  match n.variableDeclaration? with
  | some list => list.declarators.filterMap Node.initializer?
  | none => []

/-- Whether the node lies in a function inside a member, which may run when the value has another owner. -/
def insideLambda (n : Node) : Bool := (n.ancestors.takeWhile fun a => !a.isTypeDeclaration).any Node.isLambda

/-- What a `using` statement disposes at its end. -/
def resource? (n : Node) : Option Node :=
  let body? := n.field .body <|> n.lastNamed?
  n.named.find? fun c => !body?.any (· == c)

/-- The values that are disposed for a resource. -/
def resourceValues (resource : Node) : List Node :=
  if resource.is .variableDeclaration then declaredResources resource else [resource]

/-- Reports a node if one of the values that are disposed there may be shared. -/
def reportIfShared (m : Model) (values : List Node) (n : Node) : Option (List Report) :=
  (values.anyM m.mayBeShared).map fun isShared => if isShared then [report n] else []

def check (m : Model) (n : Node) : Option (List Report) :=
  match n.kind? with
  | some .usingStatement =>
    match resource? n with
    | some resource => reportIfShared m (resourceValues resource) resource
    | none => some []
  | some .localDeclarationStatement =>
    if n.children.any (·.isToken "using") then reportIfShared m (declaredResources n) n else some []
  | some .invocationExpression =>
    match n.disposeReceiver? with
    | some receiver =>
      if insideLambda n then some []
      else reportIfShared m [receiver] ((n.enclosingStatement?.filter (·.is .expressionStatement)).getD n)
    | none => some []
  | _ => some []

def rule : Rule :=
  ⟨.dontDisposeInjected,
    [Kind.usingStatement, Kind.localDeclarationStatement, Kind.invocationExpression].map Kind.name, check⟩

end Disposal.ForeignValue

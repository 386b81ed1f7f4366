import Disposal.HandOff
import Disposal.Rule
import Disposal.Rule.Placement

/-!
# Created locals

A local that holds a fresh disposable value has to be disposed or handed off.
-/

namespace Disposal.CreatedLocal

/-- The type of a local as it can be written for a field. -/
def writtenType? (m : Model) (declarator : Node) (s : Symbol) : Option String := do
  let written ← declarator.parent?.bind Node.variableTypeNode?
  if written.text ≠ "var" then return written.text
  match ← m.declaredType? s with
  | .inferred | .unknown => none
  | t => return t.text

/-- Whether a statement stands directly in the body of a constructor. -/
def inConstructorBody (statement region : Node) : Bool :=
  region.is .constructorDeclaration &&
    match statement.parent?, region.blockBody? with
    | some parent, some block => parent == block
    | _, _ => false

/-- Makes a field of a local of a constructor. -/
def asField? (m : Model) (source : String) (statement region declarator value : Node) (s : Symbol) :
    Option Suggestion := do
  let name ← s.name?
  let owner ← m.compilation.containingType? region
  if (m.compilation.lookupMember? owner name none).isSome then none
  else
    let type ← writtenType? m declarator s
    let field := Placement.beforeStatement source region s!"private readonly {type} {name};\n"
    let assign : Edit := ⟨statement.start, statement.stop, s!"this.{name} = {value.text};"⟩
    return ⟨"Assign to a new field", [field, assign], .maybeIncorrect⟩

/-- Puts `using` in front of a declaration, which has to stand in a block. -/
def asUsing? (statement : Node) : Option Suggestion :=
  if statement.parent?.any (·.is .block) then
    some ⟨"Add `using`", [.insertion statement.start "using "], .maybeIncorrect⟩
  else none

/-- Whether a local is set to a fresh disposable value that nothing takes care of. -/
def isLeaked (m : Model) (region value : Node) (s : Symbol) : Bool :=
  !value.stripParens.is .assignmentExpression && m.classify? value == some .created &&
    (m.isDisposableSymbol s || m.isDisposableValue value) && !m.isHandedOff s region

/-- The first variable of a list that leaks its value, with that value. -/
def leak? (m : Model) (region : Node) (declarators : List Node) : Option (Node × Node × Symbol) :=
  declarators.findSome? fun d => do
    let value ← d.initializer?
    let s ← d.nameOf?.bind m.symbol?
    if isLeaked m region value s then some (d, value, s) else none

def check (m : Model) (n : Node) : List Report :=
  if n.children.any (·.isToken "using") || n.hasModifier "const" then []
  else
    match n.region?, n.variableDeclaration? with
    | some region, some list =>
      match leak? m region list.declarators with
      | none => []
      | some (declarator, value, s) =>
        let name := s.name?.getD "?"
        let source := m.compilation.sourceOf n
        let suggestion? :=
          if list.declarators.length = 1 then
            if inConstructorBody n region then asField? m source n region declarator value s else asUsing? n
          else none
        [{ lint := .disposeCreated
           node := n
           message := s!"Dispose created: `{name}` is created here and never disposed"
           help? := some "Wrap it in `using`, dispose it, or hand it to an owner"
           suggestion? }]
    | _, _ => []

def rule : Rule := .ofReports .disposeCreated [.localDeclarationStatement] check

end Disposal.CreatedLocal

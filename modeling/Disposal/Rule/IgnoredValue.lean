import Disposal.Ownership.Classify
import Disposal.Rule

/-!
# Ignored values

A fresh disposable value that is the whole of a statement is lost.
-/

namespace Disposal.IgnoredValue

/-- Expressions that are statements for their effect. -/
def effects : List Kind := [.assignmentExpression, .prefixUnaryExpression, .postfixUnaryExpression]

def check (m : Model) (n : Node) : List Report :=
  match n.firstNamed? with
  | none => []
  | some e =>
    if !e.isAny effects && m.classify? e == some .created && m.isDisposableValue e then
      [{ lint := .dontIgnoreCreated
         node := e
         message := "Don't ignore created: the disposable value is never disposed"
         help? := some "Assign it to a `using` variable or dispose it"
         suggestion? := none }]
    else []

def rule : Rule := .ofReports .dontIgnoreCreated [.expressionStatement] check

end Disposal.IgnoredValue

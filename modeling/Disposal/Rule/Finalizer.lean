import Disposal.Rule

/-!
# Suppressed finalizers

The finalizer that a dispose method suppresses is that of its own object.
-/

namespace Disposal.Finalizer

/-- The only argument of a call of `GC.SuppressFinalize`. -/
def suppressed? (n : Node) : Option Node := do
  let (name, receiver?) ← n.invoked?
  let receiver ← receiver?
  if name.text == "SuppressFinalize" && ["GC", "System.GC"].contains receiver.text then
    match n.arguments with
    | [argument] => argument.argumentExpression?
    | _ => none
  else none

def check (_ : Model) (n : Node) : List Report :=
  match suppressed? n with
  | none => []
  | some e =>
    if !e.stripParens.is .thisExpression && n.containingMember?.any (!·.hasModifier "static") then
      [{ lint := .suppressFinalizeThis
         node := e
         message := s!"Call `GC.SuppressFinalize(this)` instead of `GC.SuppressFinalize({e.text})`"
         help? := none
         suggestion? := some ⟨"Use `this`", [⟨e.start, e.stop, "this"⟩], .machineApplicable⟩ }]
    else []

def rule : Rule := .ofReports .suppressFinalizeThis [.invocationExpression] check

end Disposal.Finalizer

import Disposal.Protocol
import Disposal.Rule
import Disposal.Rule.Placement

/-!
# Calls of the base class

A dispose method that overrides another has to call it.
-/

namespace Disposal.BaseCall

/-- Whether the overridden method has no body to call. -/
def isAbstract (m : Model) (d : DisposeMethod) : Bool :=
  match (m.compilation.containingType? d.node).bind m.compilation.baseClass? with
  | none => false
  | some base =>
    match m.compilation.lookupMember? base d.kind.methodName (some d.node.parameters.length) with
    | some (.method overridden) => overridden.hasModifier "abstract"
    | _ => false

/-- The statement that calls the overridden method. -/
def callText? (d : DisposeMethod) : Option String :=
  match d.kind with
  | .dispose => some "base.Dispose();"
  | .disposeBool => do
    let name ← (← d.node.parameters.head?).nameText?
    return s!"base.Dispose({name});"
  | .disposeAsyncCore =>
    if d.node.hasModifier "async" then some "await base.DisposeAsyncCore().ConfigureAwait(false);" else none
  | .disposeAsync => none

/-- Calls the overridden method at the end. -/
def repair? (source : String) (d : DisposeMethod) : Option Suggestion := do
  let call ← callText? d
  let edit ← Placement.atMethodEnd? source d.node [call]
  let shown := String.ofList (Text.dropEndWhile (· = ';') call.toList)
  return ⟨s!"Call `{shown}`", [edit], .machineApplicable⟩

def check (m : Model) (n : Node) : List Report :=
  match DisposeKind.of? n, n.nameOf? with
  | some kind, some name =>
    let d : DisposeMethod := ⟨kind, n⟩
    if kind != .disposeAsync && n.hasModifier "override" && !d.callsBase && !isAbstract m d then
      [{ lint := .callBaseDispose
         node := name
         message := s!"Call `base.{kind.methodName}` in the override"
         help? := some "Resources owned by the base class are leaked when the override does not chain to it"
         suggestion? := repair? (m.compilation.sourceOf n) d }]
    else []
  | _, _ => []

def rule : Rule := .ofReports .callBaseDispose [.methodDeclaration] check

end Disposal.BaseCall

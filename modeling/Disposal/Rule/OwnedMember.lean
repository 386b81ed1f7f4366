import Disposal.Member
import Disposal.Rule
import Disposal.Rule.Placement

/-!
# Owned members

A type has to dispose the fresh values that its fields and properties hold.
-/

namespace Disposal.OwnedMember

/-- The statements that release a member, one for each disposable part of a tuple. -/
def releaseStatements (m : Model) (member : Symbol) (name : String) : List String :=
  match (m.disposableMemberType? member).bind m.compilation.disposableSlots? with
  | some slots =>
    (slots.zipIdx.filter (·.1)).map fun (_, i) => let part := i + 1; s!"this.{name}.Item{part}?.Dispose();"
  | none => [s!"this.{name}?.Dispose();"]

/-- Puts lines where `Dispose(bool)` releases managed resources, before it calls the base class. -/
def inDisposeBool? (m : Model) (source : String) (method : Node) (lines : List String) : Option Edit :=
  match m.disposingBranch? method with
  | some (.earlyReturn s) =>
    some (Placement.afterStatement source s (Text.join ("\n" ++ Layout.indentationAt source s.start) lines))
  | some (.block block) => Placement.atBlockEnd? source block (Text.join " " lines)
  | none => do
    let name ← (← method.parameters.head?).nameText?
    let header := s!"if ({name})"
    match method.baseCallStatement? with
    | some s => return Placement.blockBeforeStatement source s header lines
    | none => Placement.blockAtBlockEnd? source (← method.blockBody?) header lines

/-- Releases a member in the dispose method of its type, if that stands in the same document. -/
def repair? (m : Model) (member : Symbol) (name : String) : Option Suggestion := do
  let owner ← member.owner? m.compilation
  let method ← m.compilation.primaryDisposeMethod? owner
  let decl ← member.node?
  if decl.doc ≠ method.node.doc then none
  else
    let source := m.compilation.sourceOf method.node
    let lines := releaseStatements m member name
    let edit ←
      if method.kind = .disposeBool then inDisposeBool? m source method.node lines
      else Placement.atMethodEnd? source method.node lines
    return ⟨s!"Dispose `{name}` in `{method.kind.methodName}`", [edit], .machineApplicable⟩

/-- Reports a member at a node, if its type has to release it and does not. -/
def checkMember (m : Model) (member : Symbol) (place : Node) : List Report :=
  if m.requiresDisposal member && !m.isMemberDisposed member then
    let name := member.name?.getD "?"
    [{ lint := .disposeMember
       node := place
       message := s!"Dispose member: `{name}` is created by this type and never disposed"
       help? := some "Dispose it in the type's `Dispose` method"
       suggestion? := repair? m member name }]
  else []

def check (m : Model) (n : Node) : List Report :=
  if n.is .propertyDeclaration then checkMember m (.property n) n
  else
    match n.variableDeclaration? with
    | none => []
    | some list =>
      match list.declarators with
      | [d] => checkMember m (.field d) n
      | ds => ds.flatMap fun d => checkMember m (.field d) d

def rule : Rule := .ofReports .disposeMember [.fieldDeclaration, .propertyDeclaration] check

end Disposal.OwnedMember

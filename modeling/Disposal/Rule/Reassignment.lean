import Disposal.Fixture
import Disposal.Protocol.Before
import Disposal.Rule
import Disposal.Rule.Placement

/-!
# Reassignments

A variable that may hold a fresh value has to be disposed before another is assigned to it.
-/

namespace Disposal.Reassignment

/-- Whether a node compares a variable with `null`. -/
def testsNull (m : Model) (s : Symbol) (name : String) (n : Node) : Bool :=
  let isTest := (n.is .binaryExpression && n.binaryOperator? == some "==") || n.is .isPatternExpression
  let isNull (e : Node) : Bool := Text.trim e.text == "null"
  match n.firstNamed?, n.lastNamed? with
  | some left, some right =>
    isTest && ((isNull right && m.refersTo left s name) || (isNull left && m.refersTo right s name))
  | _, _ => false

/-- Whether an assignment runs only under a test of its variable for `null`. -/
def isNullGuarded (m : Model) (n : Node) (s : Symbol) : Bool :=
  match s.name? with
  | none => false
  | some name =>
    (n.ancestors.takeWhile fun a => !a.isRegion).any fun a =>
      a.is .ifStatement && a.ifConsequence?.any (·.contains n) &&
        a.ifCondition?.any fun condition => condition.preorder.any (testsNull m s name)

/-- Whether a loop around an assignment does not hold the declaration, so that the assignment overwrites itself. -/
def repeatsWithout (n decl : Node) : Bool :=
  (n.ancestors.takeWhile fun a => !a.isRegion).any fun a => a.isAny Order.loops && !a.contains decl

/-- Whether a write other than `n` stores a fresh value. -/
def storesFresh (m : Model) (n : Node) (w : Write) : Bool :=
  !(w.node == n) && w.value?.any fun v => m.classify? v == some .created

/-- The constructor or set-up method in which an assignment is the first to an object. -/
def initialRegion? (n : Node) : Option Node :=
  n.region?.filter fun r => r.is .constructorDeclaration || n.enclosingSetup?.isSome

/-- Whether a variable may hold a fresh value when an assignment to it runs. -/
def mayHoldFresh (m : Model) (s : Symbol) (n : Node) : Bool :=
  match s with
  | .localVar decl =>
    match decl.region? with
    | none => false
    | some region =>
      repeatsWithout n decl || (m.writes s (.node region)).any fun w =>
        storesFresh m n w && (Order.executedBefore w.node n).isPossible
  | _ =>
    match initialRegion? n with
    | none => true
    | some region =>
      match Scope.ofSymbol? m.compilation s with
      | none => false
      | some scope =>
        (m.writes s scope).any fun w =>
          storesFresh m n w && (w.kind == .initializer ||
            (w.node.region?.any (· == region) && (Order.executedBefore w.node n).isPossible))

/-- Variables whose assignment overwrites a stored value. -/
def isOverwritten (m : Model) : Symbol → Bool
  | .localVar _ | .field _ => true
  | .property p => p.isAutoProperty || (m.setterBackingField? p).isSome
  | _ => false

/-- Whether an assignment of a value to a variable loses a fresh one. -/
def losesValue (m : Model) (n value : Node) (s : Symbol) : Bool :=
  isOverwritten m s && m.classify? value == some .created && (m.isDisposableSymbol s || m.isDisposableValue value) &&
    !isNullGuarded m n s && mayHoldFresh m s n && !m.disposedBefore s n

/-- Disposes a variable in the statement before its assignment. -/
def repair? (source : String) (n : Node) (target : String) : Option Suggestion := do
  let statement ← n.enclosingStatement?
  if statement.is .expressionStatement && statement.firstNamed?.any (· == n) then
    return ⟨s!"Dispose `{target}` before assigning",
      [Placement.beforeStatement source statement s!"{target}?.Dispose();"], .maybeIncorrect⟩
  else none

def check (m : Model) (n : Node) : List Report :=
  match n.assignment? with
  | none => []
  | some a =>
    let target := a.left.stripParens
    match m.symbol? target with
    | none => []
    | some s =>
      if a.operator == "=" && losesValue m n a.right s then
        [{ lint := .disposePrevious
           node := n
           message := s!"Dispose previous before re-assigning `{target.text}`"
           help? := some "The value it held before is created here too and is never released"
           suggestion? := repair? (m.compilation.sourceOf n) n target.text }]
      else []

def rule : Rule := .ofReports .disposePrevious [.assignmentExpression] check

end Disposal.Reassignment

import Disposal.Diagnostic
import Disposal.Symbol.Resolve

/-!
# Rules

A rule looks at nodes of some kinds and reports what it finds there. Whether a report becomes a finding is decided
later, by levels and suppressions. A rule may ask a question that has no end; there is then nothing that it reports, and
the program never comes back from it.
-/

namespace Disposal

/-- What a rule reports at a node. -/
structure Report where
  lint : Lint
  node : Node
  message : String
  help? : Option String
  suggestion? : Option Suggestion

/-- A lint, the words for the nodes it looks at, and what it reports there; `none` when looking never ends. -/
structure Rule where
  lint : Lint
  kinds : List String
  check : Model → Node → Option (List Report)

/-- A rule on nodes of some kinds that comes to an end at each of them. -/
def Rule.ofReports (lint : Lint) (kinds : List Kind) (reports : Model → Node → List Report) : Rule :=
  ⟨lint, kinds.map Kind.name, fun m n => some (reports m n)⟩

/-- Whether the value of an expression is of a disposable type. -/
def Model.isDisposableValue (m : Model) (e : Node) : Bool := (m.type? e).any m.compilation.isDisposable

/-- Whether a symbol is declared with a disposable type. -/
def Model.isDisposableSymbol (m : Model) (s : Symbol) : Bool := (m.declaredType? s).any m.compilation.isDisposable

end Disposal

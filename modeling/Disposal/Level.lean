/-!
# Levels

How loudly a lint speaks. A level is written in several ways in a configuration and in one way in reports.
-/

namespace Disposal

/-- The severity of a lint, from quiet to loud. -/
inductive Level where
  | allow
  | warn
  | error
  deriving DecidableEq, Repr

namespace Level

/-- The level of a lint for which nothing else is said. -/
def default : Level := warn

/-- The word for a level in reports. -/
def text : Level → String
  | allow => "allow"
  | warn => "warning"
  | error => "error"

/-- The word with which a level is written into a configuration. -/
def spelling : Level → String
  | allow => "allow"
  | warn => "warn"
  | error => "error"

/-- Reads a level from a configuration. -/
def ofSpelling? : String → Option Level
  | "allow" => some allow
  | "warn" | "warning" => some warn
  | "error" | "deny" => some error
  | _ => none

/-- Whether findings of this level are reported. -/
def isEnabled (l : Level) : Bool := l != allow

/-- Makes an error of a warning when warnings are denied. -/
def promote (l : Level) (denyWarnings : Bool) : Level :=
  if l = warn && denyWarnings then error else l

theorem ofSpelling?_spelling (l : Level) : ofSpelling? l.spelling = some l := by
  cases l <;> rfl

end Level

end Disposal

import Disposal.Level
import Disposal.Text

/-!
# Lints

The seven lints and what is written about them. A lint answers to its id in any case and to its name.

* `Lint.ofName?_id`, `Lint.ofName?_name`: every lint is found under both.
-/

namespace Disposal

/-- The lints, in the order of their ids. -/
inductive Lint where
  | disposeCreated
  | disposeMember
  | disposePrevious
  | dontIgnoreCreated
  | dontDisposeInjected
  | callBaseDispose
  | suppressFinalizeThis
  deriving DecidableEq, Repr

/-- What kind of defect a lint finds. -/
inductive Category where
  | correctness
  | protocol
  | suspicious
  deriving DecidableEq, Repr

def Category.text : Category → String
  | correctness => "correctness"
  | protocol => "protocol"
  | suspicious => "suspicious"

/-- Whether a lint is on by default or has to be asked for. -/
inductive Group where
  | stable
  | preview
  deriving DecidableEq, Repr

namespace Group

def text : Group → String
  | stable => "stable"
  | preview => "preview"

/-- The option that turns the group on. -/
def requiredFlag? : Group → Option String
  | stable => none
  | preview => some "--preview"

end Group

/-- Whether a repair keeps the meaning of the program or may change it. -/
inductive Safety where
  | safe
  | risky
  deriving DecidableEq, Repr

def Safety.text : Safety → String
  | safe => "safe"
  | risky => "unsafe"

namespace Lint

def all : List Lint :=
  [disposeCreated, disposeMember, disposePrevious, dontIgnoreCreated, dontDisposeInjected, callBaseDispose,
   suppressFinalizeThis]

theorem mem_all (l : Lint) : l ∈ all := by
  cases l <;> decide

def id : Lint → String
  | disposeCreated => "IDISP001"
  | disposeMember => "IDISP002"
  | disposePrevious => "IDISP003"
  | dontIgnoreCreated => "IDISP004"
  | dontDisposeInjected => "IDISP007"
  | callBaseDispose => "IDISP010"
  | suppressFinalizeThis => "IDISP020"

def name : Lint → String
  | disposeCreated => "dispose_created"
  | disposeMember => "dispose_member"
  | disposePrevious => "dispose_previous"
  | dontIgnoreCreated => "dont_ignore_created"
  | dontDisposeInjected => "dont_dispose_injected"
  | callBaseDispose => "call_base_dispose"
  | suppressFinalizeThis => "suppress_finalize_this"

def category : Lint → Category
  | dontIgnoreCreated => .suspicious
  | callBaseDispose => .protocol
  | _ => .correctness

def description : Lint → String
  | disposeCreated => "A local that holds a created disposable must be disposed or handed off"
  | disposeMember => "A field or property that owns a created disposable must be disposed by the containing type"
  | disposePrevious => "Dispose the previous value before assigning a new created disposable"
  | dontIgnoreCreated => "A created disposable is discarded without being disposed"
  | dontDisposeInjected => "Don't dispose a value that was injected or is cached; its owner disposes it"
  | callBaseDispose => "An override of a dispose method must call the base implementation"
  | suppressFinalizeThis => "GC.SuppressFinalize should be called with `this`"

def group : Lint → Group
  | dontIgnoreCreated => .preview
  | _ => .stable

/-- The repair that a lint offers, with its safety. -/
def repair? : Lint → Option (Safety × String)
  | disposeCreated => some (.risky, "Add `using`, or in a constructor store the value in a field")
  | disposeMember => some (.safe, "Dispose the member in the type's dispose method")
  | disposePrevious => some (.risky, "Dispose the previous value before the assignment")
  | dontIgnoreCreated => none
  | dontDisposeInjected => none
  | callBaseDispose => some (.safe, "Call the base dispose method at the end of the override")
  | suppressFinalizeThis => some (.safe, "Pass `this`")

/-- The level of a lint that no configuration mentions. -/
def defaultLevel (_ : Lint) : Level := .default

/-- Whether a word stands for the lint: its name, or its id in any case. -/
def answersTo (l : Lint) (word : String) : Bool :=
  l.name == word || Text.lower l.id == Text.lower word

/-- The lint that a word stands for. -/
def ofName? (word : String) : Option Lint :=
  all.find? (·.answersTo word)

/-- The name of the lint that a word stands for, or the word itself. -/
def canonical (word : String) : String :=
  (ofName? word).elim word name

theorem ofName?_id (l : Lint) : ofName? l.id = some l := by
  cases l <;> decide +kernel

theorem ofName?_name (l : Lint) : ofName? l.name = some l := by
  cases l <;> decide +kernel

end Lint

end Disposal

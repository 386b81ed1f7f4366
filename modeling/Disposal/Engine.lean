import Disposal.Config
import Disposal.Failure
import Disposal.Pragma
import Disposal.Registry
import Disposal.Selection
import Disposal.Suppression

/-!
# Findings

The rules run over the documents of a compilation. What a rule reports becomes a finding unless its lint is quiet,
is switched off at that place by a directive or an attribute, or has been found at the same place before. Where a rule
never comes to an end, a run has no findings, `none`, whatever else it would find.
-/

namespace Disposal

/-- What to look for, how loudly, and where not. -/
structure Engine where
  rules : List Rule
  settings : Settings := {}
  exclusion : Exclusion := {}

namespace Engine

/-- The engine for those who say nothing. -/
def default : Engine := { rules := Rule.stable }

/-- Why no engine can be made. -/
inductive SetupError where
  | config (e : ConfigError)
  | selection (e : Selection.UnknownLint)
  deriving DecidableEq, Repr

def SetupError.message : SetupError → String
  | config e => e.message
  | selection e => e.message

/-- The engine for a selection and a configuration; what the configuration disables is left out too. -/
def build (s : Selection) (c : Config) : Except SetupError Engine := do
  let exclusion ← c.exclusion.mapError .config
  let selection := { s with skip := s.skip ++ c.disabled, preview := s.preview || c.preview }
  let rules ← selection.rules.mapError .selection
  return { rules, settings := c.settings, exclusion }

/-- Which rules look at which nodes of a document. -/
def dispatch (e : Engine) (root : Node) : List (Rule × Node) :=
  (Registry.ofRules e.rules).dispatch e.exclusion root

/-- What a task gives for some things one after the other, if it comes to an end for each of them. -/
def gather {α β : Type} (task : α → Option (List β)) (things : List α) : Option (List β) :=
  (things.mapM task).map List.flatten

/-- What the rules report in a document. -/
def reports (e : Engine) (m : Model) (root : Node) : Option (List Report) :=
  gather (fun (r, n) => r.check m n) (e.dispatch root)

/-- Whether a report is to be heard. -/
def isHeard (e : Engine) (pragmas : List Pragma.Directive) (r : Report) : Bool :=
  (e.settings.levelFor r.lint).isEnabled && !Pragma.isDisabled pragmas r.lint r.node.start &&
    !Suppression.isSuppressed r.node r.lint

/-- The finding that a report in a file makes. -/
def finding (e : Engine) (f : SourceFile) (r : Report) : Diagnostic where
  lint := r.lint
  level := e.settings.levelFor r.lint
  file? := f.path?
  span := .ofRange f.text r.node.start r.node.stop
  message := r.message
  help? := r.help?
  suggestion? := r.suggestion?

/-- Whether two reports are of one lint about one stretch of a text. -/
def isRepeat (a b : Report) : Bool :=
  a.lint == b.lint && a.node.start == b.node.start && a.node.stop == b.node.stop

/-- The first of the reports that repeat each other. -/
def distinct (reports : List Report) : List Report :=
  reports.foldl (fun kept r => if kept.any (isRepeat r) then kept else kept ++ [r]) []

/-- The findings in the document with a root. -/
def lintDocument (e : Engine) (m : Model) (d : Document) (root : Node) : Option (List Diagnostic) :=
  if e.exclusion.excludesFile d.toSourceFile then some []
  else
    let pragmas := Pragma.parse d.text
    (e.reports m root).map fun rs => (distinct (rs.filter (e.isHeard pragmas))).map (e.finding d.toSourceFile)

/-- The findings in a compilation. -/
def lint (e : Engine) (c : Compilation) : Option (List Diagnostic) :=
  let m := c.model
  (gather (fun (d, root) => e.lintDocument m d root) (c.documents.zip c.roots)).map Diagnostic.sort

/-- The findings in a compilation, unless the run has been cancelled. -/
def run (e : Engine) (c : Compilation) (cancelled : Bool) : Option (Except Failure (List Diagnostic)) :=
  if cancelled then some (.error .cancelled) else (e.lint c).map .ok

end Engine

end Disposal

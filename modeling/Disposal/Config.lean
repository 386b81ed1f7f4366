import Disposal.Config.Value
import Disposal.Exclusion
import Disposal.Settings

/-!
# Configurations

What a user writes about lints and files. A configuration is read from a value in two steps: its shape first, then
the names and patterns in it.
-/

namespace Disposal

/-- What a configuration says. -/
structure Config where
  preview : Bool := false
  disabled : List String := []
  levels : List (String × Level) := []
  exclude : List String := []
  analyzeGenerated : Bool := false
  deriving DecidableEq, Repr

/-- Why a configuration is refused. -/
inductive ConfigError where
  | unknownLint (name : String)
  | badPattern (pattern : String)
  deriving DecidableEq, Repr

/-- The wording of a refusal. -/
def ConfigError.message : ConfigError → String
  | unknownLint name => s!"unknown lint in config: {name}"
  | badPattern pattern => s!"invalid exclude pattern: {pattern}"

/-- Reads a level: a word, or a table whose only key is the word, with `null`. -/
def Level.ofValue? : Value → Option Level
  | .text s => ofSpelling? s
  | .table [(s, .null)] => ofSpelling? s
  | _ => none

namespace Config

/-- Reads what is said about lints; keys other than two are words for lints, with levels. -/
def readLints? (c : Config) : Value → Option Config
  | .table entries => do
    let preview ← readField? entries "preview" false Value.boolean?
    let disabled ← readField? entries "disabled" [] Value.texts?
    let others := entries.filter fun e => e.1 != "preview" && e.1 != "disabled"
    let levels ← others.mapM fun (name, v) => (Level.ofValue? v).map (name, ·)
    return { c with preview, disabled, levels }
  | _ => none

/-- Reads what is said about files. -/
def readAnalysis? (surplus : Bool) (c : Config) (v : Value) : Option Config := do
  let fields ← v.fields? surplus ["exclude", "analyze_generated"]
  let exclude ← readField? fields "exclude" [] Value.texts?
  let analyzeGenerated ← readField? fields "analyze_generated" false Value.boolean?
  return { c with exclude, analyzeGenerated }

/-- Reads a configuration, if the value has the shape of one; `surplus` says whether lists of fields may be longer
than there are fields. -/
def ofValue? (surplus : Bool) (v : Value) : Option Config := do
  let fields ← v.fields? surplus ["lints", "analysis"]
  let c ← readField? fields "lints" {} (readLints? {})
  readField? fields "analysis" c (readAnalysis? surplus c)

/-- The configuration itself, if all words in it that should stand for lints do. -/
def validate (c : Config) : Except ConfigError Config :=
  match (c.disabled ++ c.levels.map (·.1)).find? fun name => (Lint.ofName? name).isNone with
  | some name => .error (.unknownLint name)
  | none => .ok c

/-- The levels that the configuration gives. -/
def settings (c : Config) : Settings := .ofNames c.levels c.disabled

/-- Reads a pattern of a path. -/
def readPattern (pattern : String) : Except ConfigError Pattern :=
  match Pattern.ofText? pattern with
  | some p => .ok p
  | none => .error (.badPattern pattern)

/-- What the configuration leaves out. -/
def exclusion (c : Config) : Except ConfigError Exclusion := do
  return .ofPatterns (← c.exclude.mapM readPattern) c.analyzeGenerated

end Config

end Disposal

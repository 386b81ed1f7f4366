import Disposal.Config.File
import Disposal.Engine
import Disposal.Repair
import Disposal.Text.Patch
import Disposal.Tree.Dump

/-!
# Sessions

One run of the program: from a command line, a store of files and a text on the standard input to what is written and
how the run ends. Syntax trees come from outside, by a function from texts to trees. A run that never comes to an end,
or that is cut short by a sum that is no word, has no outcome, `none`, and leaves everything as it was.
-/

namespace Disposal

/-- What a run finds. -/
structure World where
  store : Store
  input : String := ""
  parse : String → Option Tree

/-- What a run leaves: how it ended, what it wrote to the standard output and the standard error, and the files. -/
structure Outcome where
  exit : Nat := 0
  output : String := ""
  errors : String := ""
  store : Store

namespace Session

/-! ### Endings -/

/-- A run that gives up. -/
def failed (store : Store) (message : String) : Outcome := { exit := 2, errors := Text.line message, store }

/-- What may fail, or have no outcome. -/
abbrev Attempt := ExceptT Failure Option

/-- The run of something that may fail. -/
def orFail (store : Store) : Except Failure Outcome → Outcome
  | .ok outcome => outcome
  | .error e => failed store e.message

/-- A cause that is told by its message alone. -/
def because {ε α : Type} (message : ε → String) (x : Except ε α) : Except Failure α :=
  x.mapError fun e => .other (message e)

/-! ### Sources -/

/-- Names of directories that are not searched. -/
def skippedDirectories : List String := [".git", "bin", "obj", "target"]

/-- Whether a file that is found in a directory is a source. -/
def isSource (place : List String) : Bool :=
  !place.dropLast.any skippedDirectories.contains && place.getLast?.any fun name => Path.extension? name == some "cs"

/-- The sources that a path stands for: a file for itself, a directory for the sources in it. -/
def sourcesAt (s : Store) (path : String) : Except StoreError (List String) := do
  match ← s.look path with
  | .file _ => return [path]
  | .directory =>
    let place ← s.locate path
    return ((s.below place).filter isSource).map fun names => Path.join path (Text.join "/" names)

/-- The sources that some paths stand for, in order and each once. -/
def collect (s : Store) (paths : List String) : Except StoreError (List String) := do
  return Path.sort (← paths.mapM (sourcesAt s)).flatten

/-- Reads sources. -/
def readSources (s : Store) (paths : List String) : Except Failure (List SourceFile) :=
  paths.mapM fun path => do
    let text ← because (fun e => s!"failed to read {path}: {e.message}") (s.read path)
    return ⟨some path, text⟩

/-- The sources that some paths stand for. -/
def gather (s : Store) (paths : List String) : Except Failure (List SourceFile) := do
  readSources s (← because StoreError.message (collect s paths))

/-! ### Engines -/

/-- The directory from which a configuration file is looked for. -/
def startDirectory (s : Store) (o : Options) : String :=
  match o.paths.head? with
  | none => s.home
  | some path => if s.isFile path then (Path.parent? path).getD "." else path

/-- The engine that some options ask for. -/
def engine (s : Store) (o : Options) : Except Failure Engine := do
  let found? ← because Config.FileError.detail (Config.open? s o.config? (startDirectory s o))
  let config := (found?.map (·.2)).getD {}
  because Engine.SetupError.message
    (Engine.build { only := o.only, skip := o.skip, preview := o.has .preview } config)

/-- The files with their syntax trees. -/
def documents (parse : String → Option Tree) (files : List SourceFile) : Except Failure (List Document) :=
  files.mapM fun f =>
    match parse f.text with
    | some tree => .ok { f with tree }
    | none => .error (.parse "no syntax tree")

/-- The findings of an engine in some files. -/
def lintFiles (parse : String → Option Tree) (e : Engine) : Repair.Linter := fun files => ExceptT.run do
  let documents ← documents parse files
  e.lint (.ofDocuments documents)

/-! ### Linting -/

/-- Reports the findings. -/
def report (w : World) (o : Options) (e : Engine) : Attempt Outcome := do
  let files ← if o.paths.isEmpty then pure [⟨some Listing.inputName, w.input⟩] else gather w.store o.paths
  let ds ← ExceptT.mk (lintFiles w.parse e files)
  let deny := o.has .denyWarnings
  let isBad := ds.any (fun d => d.level.promote deny = .error) || (deny && !ds.isEmpty)
  return { exit := if isBad then 1 else 0
           output := Listing.render o.format deny ds files.length
           store := w.store }

/-! ### Repairing -/

/-- The path of the copy that is kept of a file. -/
def backupPath (path : String) : String :=
  Path.withExtension path ((Path.extension? path).getD "" ++ ".bak")

/-- The files that were changed, before and after. -/
def changes (before after : List SourceFile) : List (SourceFile × SourceFile) :=
  (before.zip after).filter fun (a, b) => a.text ≠ b.text

/-- Writes a changed file, after a copy of what it was. -/
def save (backup : Bool) (s : Store) (change : SourceFile × SourceFile) : Except StoreError Store := do
  let path := change.2.path?.getD ""
  let s ← if backup then s.write (backupPath path) change.1.text else pure s
  s.write path change.2.text

/-- Writes changed files until one cannot be written. -/
def saveAll (backup : Bool) : Store → List (SourceFile × SourceFile) → Store × Option StoreError
  | s, [] => (s, none)
  | s, c :: cs =>
    match save backup s c with
    | .ok s => saveAll backup s cs
    | .error e => (s, some e)

/-- The changes as patches. -/
def patches (cs : List (SourceFile × SourceFile)) : Option String := do
  let texts ← cs.mapM fun (a, b) => Patch.render? a.text b.text (b.path?.getD "") Patch.defaultContext
  return String.join ((texts.filter (· ≠ "")).map Text.line)

/-- What is said about suggestions that were not applied. -/
def skippedNote (p : Repair.Progress) : String :=
  if p.skipped = 0 then "" else Text.line s!"{p.skipped} fix(es) skipped (use --unsafe-fixes to apply)"

/-- What is said when the rounds did not come to an end. -/
def warning : Repair.Ending → String
  | .settled => ""
  | .capped => Text.line s!"Warning: Max fix iterations ({Repair.maxRounds}) reached"

/-- Applies suggestions to files, or shows what that would do. -/
def repair (w : World) (o : Options) (e : Engine) : Attempt Outcome := do
  if o.paths.isEmpty then throw (.other "--fix requires file paths (stdin not supported)")
  let files ← gather w.store o.paths
  let (progress, ending) ← ExceptT.mk (Repair.run (lintFiles w.parse e) (o.has .riskyFixes) (o.has .dryRun) files)
  let changed := changes files progress.files
  let note := skippedNote progress
  if o.has .dryRun then
    let summary := Text.line s!"\n{progress.applied} fix(es) would be applied to {files.length} file(s)"
    return { output := (← patches changed) ++ summary ++ note, errors := warning ending, store := w.store }
  else
    let summary := Text.line s!"Applied {progress.applied} fix(es) to {changed.length} file(s)"
    match saveAll (!o.has .noBackup) w.store changed with
    | (store, none) => return { output := summary ++ note, errors := warning ending, store }
    | (store, some cause) =>
      return { failed store cause.message with errors := warning ending ++ Text.line cause.message }

/-! ### Commands -/

/-- The name and the version of the program. -/
def versionText : String := "dispose-clippy 0.1.0"

/-- Runs a command. -/
def execute (w : World) : Command → Option Outcome
  | .version => some { output := Text.line versionText, store := w.store }
  | .listRules => some { output := String.join (Lint.all.map Lint.summary), store := w.store }
  | .explain rule =>
    match Lint.ofName? rule with
    | some l => some { output := l.explanation, store := w.store }
    | none => some (failed w.store (Selection.UnknownLint.message ⟨rule⟩))
  | .lint o =>
    let attempt : Attempt Outcome := do
      let e ← engine w.store o
      if o.has .fix then repair w o e else report w o e
    attempt.run.map (orFail w.store)

/-- Runs the program with the words of a command line. -/
def run (w : World) (words : List String) : Option Outcome :=
  match Command.read? words with
  | some command => execute w command
  | none => some (failed w.store "error: the arguments are not understood")

/-- Whether a run reads the standard input. -/
def readsInput (words : List String) : Bool :=
  match Command.read? words with
  | some (.lint o) => o.paths.isEmpty && !o.has .fix
  | _ => false

/-- Prints the syntax tree of the file that the only word names. -/
def printTree (w : World) : List String → Outcome
  | [path] =>
    match w.store.read path with
    | .error e => failed w.store s!"Failed to read {path}: {e.message}"
    | .ok text =>
      match w.parse text with
      | some tree => { output := tree.dump path, store := w.store }
      | none => failed w.store (Failure.parse "no syntax tree").message
  | _ => failed w.store "Usage: dump_ast <file.cs>"

end Session

end Disposal

import Disposal.Text

/-!
# Commands

What the words of a command line ask for. Words are read from left to right, and the first one that cannot be
understood decides; a request for the version is answered as soon as it is met.
-/

namespace Disposal

/-- How findings are written. -/
inductive Format where
  | pretty
  | json
  | github
  deriving DecidableEq, Repr

def Format.ofWord? : String → Option Format
  | "pretty" => some pretty
  | "json" => some json
  | "github" => some github
  | _ => none

/-- Options that are given or not. -/
inductive Switch where
  | preview
  | denyWarnings
  | fix
  | dryRun
  | riskyFixes
  | noBackup
  deriving DecidableEq, Repr

namespace Switch

def ofName? : String → Option Switch
  | "preview" => some preview
  | "deny-warnings" => some denyWarnings
  | "fix" => some fix
  | "fix-dry-run" => some dryRun
  | "unsafe-fixes" => some riskyFixes
  | "no-backup" => some noBackup
  | _ => none

/-- Whether a switch makes sense only when findings are repaired. -/
def needsFix : Switch → Bool
  | dryRun | riskyFixes | noBackup => true
  | _ => false

end Switch

/-- Options with a value. -/
inductive Setting where
  | format
  | only
  | skip
  | config
  deriving DecidableEq, Repr

def Setting.ofName? : String → Option Setting
  | "format" => some format
  | "only" => some only
  | "skip" => some skip
  | "config" => some config
  | _ => none

/-- What to lint and how. -/
structure Options where
  paths : List String := []
  format? : Option Format := none
  only : List String := []
  skip : List String := []
  config? : Option String := none
  switches : List Switch := []
  deriving DecidableEq, Repr

namespace Options

def has (o : Options) (s : Switch) : Bool := o.switches.contains s

def format (o : Options) : Format := o.format?.getD .pretty

/-- Adds a path; the empty text is none. -/
def addPath? (o : Options) (path : String) : Option Options :=
  if path = "" then none else some { o with paths := o.paths ++ [path] }

/-- Adds a switch, which can be given once. -/
def addSwitch? (o : Options) (s : Switch) : Option Options :=
  if o.has s then none else some { o with switches := o.switches ++ [s] }

/-- The words of a list with commas between them. -/
def words (list : String) : List String :=
  (list.toList.splitOnP (· = ',')).map String.ofList

/-- Adds an option with its value; lists grow, and the others can be given once. -/
def set? (o : Options) (s : Setting) (value : String) : Option Options :=
  match s with
  | .only => some { o with only := o.only ++ words value }
  | .skip => some { o with skip := o.skip ++ words value }
  | .format =>
    if o.format?.isSome then none else (Format.ofWord? value).map fun f => { o with format? := some f }
  | .config => if o.config?.isSome || value = "" then none else some { o with config? := some value }

/-- The options themselves, if every switch among them makes sense. -/
def complete? (o : Options) : Option Options :=
  if o.switches.any Switch.needsFix && !o.has .fix then none else some o

end Options

/-- What the program is asked to do. -/
inductive Command where
  | lint (o : Options)
  | listRules
  | explain (rule : String)
  | version
  deriving DecidableEq, Repr

namespace Command

/-- The name and the value of a word that starts with two dashes. -/
def longOption? (word : String) : Option (String × Option String) :=
  ("--".toList.isPrefixOf? word.toList).map fun rest =>
    let (name, value?) := Text.breakAt ['='] rest
    (String.ofList name, value?.map String.ofList)

/-- Whether a word is read as an option rather than as a value. -/
def isDashed (word : String) : Bool := Text.startsWith "-" word && word ≠ "-"

/-- Reads the options and paths of a linting command; the version can be asked for in the outermost command. -/
def readOptions? (outermost : Bool) (o : Options) : List String → Option Command
  | [] => o.complete?.map .lint
  | "--" :: paths => ((paths.foldlM Options.addPath? o).bind Options.complete?).map .lint
  | word :: rest =>
    match longOption? word with
    | none =>
      if isDashed word then if outermost && Text.startsWith "-V" word then some .version else none
      else (o.addPath? word).bind fun o => readOptions? outermost o rest
    | some (name, value?) =>
      match Switch.ofName? name with
      | some s =>
        if value?.isSome then none else (o.addSwitch? s).bind fun o => readOptions? outermost o rest
      | none =>
        match Setting.ofName? name with
        | some s =>
          match value? with
          | some value => (o.set? s value).bind fun o => readOptions? outermost o rest
          | none =>
            match rest with
            | [] => none
            | value :: rest =>
              if isDashed value then none else (o.set? s value).bind fun o => readOptions? outermost o rest
        | none => if outermost && name = "version" && value?.isNone then some .version else none

/-- Reads the one word that a command takes. -/
def readOne? : List String → Option String
  | ["--", word] => some word
  | [word, "--"] => if isDashed word then none else some word
  | [word] => if isDashed word then none else some word
  | _ => none

/-- Reads a command line, without the name of the program. -/
def read? : List String → Option Command
  | "lint" :: words => readOptions? false {} words
  | ["list-rules"] | ["list-rules", "--"] => some .listRules
  | "list-rules" :: _ => none
  | "explain" :: words => (readOne? words).map .explain
  | words => readOptions? true {} words

end Command

end Disposal

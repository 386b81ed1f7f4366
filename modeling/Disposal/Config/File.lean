import Disposal.Config
import Disposal.Store
import Disposal.Toml

/-!
# Configuration files

A configuration is read from a file that is named, or else from the nearest file with the usual name in a directory
or above it.
-/

namespace Disposal.Config

/-- Why no configuration can be had from a file. -/
inductive FileError where
  | unreadable (path : String) (cause : StoreError)
  | malformed (path : String)
  | refused (path : String) (cause : ConfigError)
  deriving DecidableEq, Repr

/-- What went wrong. -/
def FileError.message : FileError → String
  | unreadable path _ => s!"failed to read config file: {path}"
  | malformed path => s!"failed to parse config file: {path}"
  | refused path cause => s!"invalid config file: {path}: {cause.message}"

/-- What went wrong, and why the file cannot be read if it cannot. -/
def FileError.detail (e : FileError) : String :=
  match e with
  | unreadable _ cause => s!"{e.message}: {cause.message}"
  | _ => e.message

/-- The usual name of a configuration file. -/
def fileName : String := "dispose-clippy.toml"

/-- The path of the nearest configuration file. -/
def find? (s : Store) (start : String) : Option String :=
  ((Path.upwards start).map fun d => Path.join d fileName).find? s.isFile

/-- Reads a configuration file. -/
def load (s : Store) (path : String) : Except FileError Config := do
  let text ← (s.read path).mapError (.unreadable path)
  match (Toml.read? text).bind (ofValue? true) with
  | some c => c.validate.mapError (.refused path)
  | none => throw (.malformed path)

/-- Reads the configuration file that is named or found, if there is one. -/
def open? (s : Store) (named? : Option String) (start : String) : Except FileError (Option (String × Config)) := do
  match named? <|> find? s start with
  | some path => return some (path, ← load s path)
  | none => return none

end Disposal.Config

import Disposal.Command
import Disposal.Diagnostic

/-!
# Listings

How lints and findings are written for people and for other programs.
-/

namespace Disposal

namespace Lint

/-- One line about a lint. -/
def summary (l : Lint) : String :=
  let repair := match l.repair? with
    | some (safety, _) => s!" [fix: {safety.text}]"
    | none => ""
  Text.line (Text.join "\t" [l.id, l.name, l.category.text, l.group.text, l.description] ++ repair)

/-- All that is known of a lint. -/
def explanation (l : Lint) : String :=
  let repair := match l.repair? with
    | some (safety, text) => [s!"fix: available ({safety.text})", s!"fix description: {text}"]
    | none => ["fix: not available"]
  let flag := l.group.requiredFlag?.toList.map fun flag => s!"enable with: {flag}"
  String.join (([s!"id: {l.id}", s!"name: {l.name}", s!"category: {l.category.text}", s!"group: {l.group.text}",
    s!"default level: {l.defaultLevel.text}", s!"description: {l.description}"] ++ repair ++ flag).map Text.line)

end Lint

namespace Listing

/-- The name under which a text without a file is reported. -/
def inputName : String := "stdin"

/-- The file of a finding. -/
def label (d : Diagnostic) : String := d.file?.getD inputName

/-! ### For people -/

/-- The lines of a finding. -/
def pretty (d : Diagnostic) : String :=
  let p := d.span.first
  let head := s!"{label d}:{p.row}:{p.column}: {d.level.text}: {d.headline}"
  let help := d.help?.toList.map fun help => s!"  help: {help}"
  let repair := d.suggestion?.toList.map fun s => s!"  fix: {s.message}"
  String.join ((head :: help ++ repair).map Text.line)

/-- The findings in some files. -/
def prettyAll (ds : List Diagnostic) (files : Nat) : String :=
  String.join (ds.map pretty) ++ Text.line s!"{ds.length} diagnostics in {files} file(s)"

/-! ### For continuous integration -/

/-- A text with its percent signs and line ends escaped. -/
def escapePercent (text : String) : String :=
  String.join (text.toList.map fun c =>
    if c = '%' then "%25" else if c = '\r' then "%0D" else if c = '\n' then "%0A" else c.toString)

/-- A finding as a workflow command. -/
def github (denyWarnings : Bool) (d : Diagnostic) : String :=
  let kind := if d.level.promote denyWarnings = .error then "error" else "warning"
  let (a, b) := (d.span.first, d.span.last)
  Text.line (s!"::{kind} file={escapePercent (label d)},line={a.row},col={a.column},endLine={b.row}," ++
    s!"endColumn={b.column},title={d.lint.id}::{escapePercent d.message}")

/-! ### As JSON -/

/-- A number below sixteen as a digit. -/
def hexDigit (n : Nat) : Char := Char.ofNat (if n < 10 then '0'.toNat + n else 'a'.toNat + n - 10)

/-- A character as it is written between quotes. -/
def quotedChar (c : Char) : String :=
  if c = '"' then "\\\""
  else if c = '\\' then "\\\\"
  else if c = '\x08' then "\\b"
  else if c = '\t' then "\\t"
  else if c = '\n' then "\\n"
  else if c = '\x0C' then "\\f"
  else if c = '\r' then "\\r"
  else if c.toNat < 0x20 then String.ofList ['\\', 'u', '0', '0', hexDigit (c.toNat / 16), hexDigit (c.toNat % 16)]
  else c.toString

/-- A text between quotes. -/
def quoted (text : String) : String := "\"" ++ String.join (text.toList.map quotedChar) ++ "\""

/-- A text between quotes, or the word for none. -/
def quotedOrNull (text? : Option String) : String := text?.elim "null" quoted

/-- The fields of a finding with their values. -/
def jsonFields (d : Diagnostic) : List (String × String) :=
  [("file", quoted (label d)), ("row", s!"{d.span.first.row}"), ("column", s!"{d.span.first.column}"),
   ("end_row", s!"{d.span.last.row}"), ("end_column", s!"{d.span.last.column}"), ("level", quoted d.level.text),
   ("id", quoted d.lint.id), ("lint", quoted d.lint.name), ("message", quoted d.message),
   ("help", quotedOrNull d.help?), ("fix", quotedOrNull (d.suggestion?.map (·.message)))]

/-- The lines of a finding, indented. -/
def json (d : Diagnostic) : String :=
  let fields := (jsonFields d).map fun (name, value) => "    " ++ quoted name ++ ": " ++ value
  "  \x7b\n" ++ Text.join ",\n" fields ++ "\n  \x7d"

/-- The findings as a list. -/
def jsonAll (ds : List Diagnostic) : String :=
  if ds.isEmpty then "[]\n" else "[\n" ++ Text.join ",\n" (ds.map json) ++ "\n]\n"

/-- The findings in some files, in a format. -/
def render (format : Format) (denyWarnings : Bool) (ds : List Diagnostic) (files : Nat) : String :=
  match format with
  | .pretty => prettyAll ds files
  | .json => jsonAll ds
  | .github => String.join (ds.map (github denyWarnings))

end Listing

end Disposal

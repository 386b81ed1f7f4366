import Disposal.Node.Declaration
import Disposal.Text.Edit
import Disposal.Text.Layout

/-!
# Placing statements

Edits that put statements in front of, behind or inside existing ones, in the layout of the text around them. An edit
that opens a block replaces the blanks in front of its place, so that two such edits at one place overlap and only
one of them is applied at a time.
-/

namespace Disposal.Placement

/-- The stretch of a text between two offsets. -/
def between (source : String) (start stop : Nat) : String :=
  String.ofList (Text.takeBytes (stop - start) (Text.dropBytes start source.toList))

/-- Whether a text holds nothing but blanks. -/
def isBlank (text : String) : Bool := text.toList.all Text.isBlank

/-- The offset behind the last character before `offset` that is not blank. -/
def contentEnd (source : String) (offset : Nat) : Nat :=
  Text.byteSize (Text.trimEnd (Text.takeBytes offset source.toList))

/-- Puts a statement on a line of its own in front of another. -/
def beforeStatement (source : String) (statement : Node) (text : String) : Edit :=
  let start := statement.start
  let lineStart := Layout.lineStart source start
  let lead := between source lineStart start
  if isBlank lead then .insertion lineStart (lead ++ text ++ "\n") else .insertion start (text ++ " ")

/-- Puts a statement on a line of its own behind another. -/
def afterStatement (source : String) (statement : Node) (text : String) : Edit :=
  .insertion statement.stop ("\n" ++ Layout.indentationAt source statement.start ++ text)

/-- Where the closing brace of a block starts. -/
def closingBrace? (block : Node) : Option Nat :=
  (block.children.reverse.find? (·.isToken "\x7d")).map (·.start)

/-- Where the content of a block ends, before the blanks in front of its closing brace. -/
def blockContentEnd (source : String) (block : Node) (close : Nat) : Nat :=
  max (contentEnd source close) (block.start + 1)

/-- Adds a statement at the end of a block. -/
def atBlockEnd? (source : String) (block : Node) (text : String) : Option Edit := do
  let close ← closingBrace? block
  let lineStart := Layout.lineStart source close
  let lead := between source lineStart close
  if isBlank lead && block.start < lineStart then
    return .insertion lineStart (lead ++ Layout.unit source ++ text ++ "\n")
  else
    return ⟨blockContentEnd source block close, close, " " ++ text ++ " "⟩

/-- The lines of a block with a heading, under an indentation. -/
def headedBlock (indent unit header : String) (lines : List String) : String :=
  indent ++ header ++ "\n" ++ indent ++ "\x7b\n" ++
    String.join (lines.map fun line => indent ++ unit ++ line ++ "\n") ++ indent ++ "\x7d\n"

/-- Adds lines in a block of their own, under a heading, at the end of a block. -/
def blockAtBlockEnd? (source : String) (block : Node) (header : String) (lines : List String) : Option Edit := do
  let close ← closingBrace? block
  let lead := between source (Layout.lineStart source close) close
  let indent := if isBlank lead then lead else Layout.indentationAt source block.start
  let unit := Layout.unit source
  return ⟨blockContentEnd source block close, close,
    "\n" ++ headedBlock (indent ++ unit) unit header lines ++ indent⟩

/-- Puts lines in a block of their own, under a heading, in front of a statement. -/
def blockBeforeStatement (source : String) (statement : Node) (header : String) (lines : List String) : Edit :=
  let start := statement.start
  let lineStart := Layout.lineStart source start
  let indent := Layout.indentationAt source start
  let text := headedBlock indent (Layout.unit source) header lines ++ "\n" ++ indent
  if isBlank (between source lineStart start) then ⟨lineStart, start, text⟩ else .insertion start text

/-- Makes a block of a body `=> e;`, with lines added after the expression. -/
def inArrowBody? (source : String) (decl arrow : Node) (lines : List String) : Option Edit := do
  let clause ← arrow.parent?.filter (·.is .arrowExpressionClause)
  let stop := match decl.children.find? fun c => c.isToken ";" && clause.stop ≤ c.start with
    | some semicolon => semicolon.stop
    | none => clause.stop
  let indent := Layout.indentationAt source decl.start
  let inner := indent ++ Layout.unit source
  let body := String.join (((arrow.text ++ ";") :: lines).map fun line => inner ++ line ++ "\n")
  return ⟨contentEnd source clause.start, stop, "\n" ++ indent ++ "\x7b\n" ++ body ++ indent ++ "\x7d"⟩

/-- Adds lines at the end of a method, whether its body is a block or an expression. -/
def atMethodEnd? (source : String) (method : Node) (lines : List String) : Option Edit :=
  match method.blockBody?, method.arrowBody? with
  | some block, _ => atBlockEnd? source block (Text.join " " lines)
  | none, some arrow => inArrowBody? source method arrow lines
  | none, none => none

end Disposal.Placement

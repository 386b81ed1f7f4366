import Disposal.Toml.Draft
import Disposal.Toml.Quoted

/-!
# TOML

Reads a document of TOML 1.1 with texts, booleans, integers, lists and tables. Documents with other values, and with
lists of tables, are not read: no configuration has use for them.
-/

namespace Disposal.Toml

/-- What is left after blanks, comments and line ends. -/
def skipLines (inComment : Bool) : List Char → List Char
  | [] => []
  | '\n' :: cs => skipLines false cs
  | '\r' :: '\n' :: cs => skipLines false cs
  | c :: cs =>
    if inComment then if isPlain c then skipLines true cs else c :: cs
    else if isSpace c then skipLines false cs
    else if c = '#' then skipLines true cs
    else c :: cs

/-- What is left of the document after the rest of a line that holds nothing but a comment. -/
def endLine? (cs : List Char) : Option (List Char) :=
  let rest := match skipSpace cs with
    | '#' :: more => more.dropWhile isPlain
    | more => more
  if rest.isEmpty then some [] else afterLineEnd? rest

/-! ### Values -/

/-- The number that digits to a base with single underscores between them write. -/
def ofDigits? (base : Nat) (digits : List Char) : Option Nat :=
  let groups := digits.splitOnP (· = '_')
  if groups.any (·.isEmpty) then none
  else groups.flatten.foldlM (fun n d => ((hexDigit? d).filter (· < base)).map (base * n + ·)) 0

/-- The number that a word writes without a sign: with digits to the base ten, the first of them not zero unless it is
the only one, or after a mark to the base sixteen, eight or two. -/
def ofWord? : List Char → Option Nat
  | '0' :: 'x' :: digits => ofDigits? 16 digits
  | '0' :: 'o' :: digits => ofDigits? 8 digits
  | '0' :: 'b' :: digits => ofDigits? 2 digits
  | ['0'] => some 0
  | '0' :: _ => none
  | digits => ofDigits? 10 digits

/-- Reads an integer; only the base ten has signs. -/
def readInteger? (cs : List Char) : Option (Value × List Char) := do
  let word := cs.takeWhile fun c => isBare c || c = '+'
  let value : Int ← match word with
    | '-' :: digits => if digits.all isDecimal then (ofWord? digits).map fun n => -n else none
    | '+' :: digits => if digits.all isDecimal then (ofWord? digits).map fun n => n else none
    | _ => (ofWord? word).map fun n => n
  return (.integer value, cs.drop word.length)
where
  /-- Whether a character can stand in a number to the base ten. -/
  isDecimal (c : Char) : Bool := c.isDigit || c = '_'

/-- A reader's answer as a value. -/
def textValue (answer : Option (List Char × List Char)) : Option (Value × List Char) :=
  answer.map fun (text, rest) => (.text (String.ofList text), rest)

mutual

/-- Reads a value. -/
def readValue? : Nat → List Char → Option (Value × List Char)
  | 0, _ => none
  | fuel + 1, cs =>
    match cs with
    | '"' :: '"' :: '"' :: rest => textValue (readLongBasic? false (dropFirstLineEnd rest))
    | '"' :: rest => textValue (readBasic? rest)
    | '\'' :: '\'' :: '\'' :: rest => textValue (readLongLiteral? (dropFirstLineEnd rest))
    | '\'' :: rest => textValue (readLiteral? rest)
    | 't' :: 'r' :: 'u' :: 'e' :: rest => some (.boolean true, rest)
    | 'f' :: 'a' :: 'l' :: 's' :: 'e' :: rest => some (.boolean false, rest)
    | '[' :: rest => readItems? fuel [] (skipLines false rest)
    | '\x7b' :: rest => readEntries? fuel {} (skipLines false rest)
    | _ => readInteger? cs

/-- Reads the rest of a list. -/
def readItems? : Nat → List Value → List Char → Option (Value × List Char)
  | 0, _, _ => none
  | _ + 1, vs, ']' :: rest => some (.list vs, rest)
  | fuel + 1, vs, cs => do
    let (v, rest) ← readValue? fuel cs
    match skipLines false rest with
    | ',' :: rest => readItems? fuel (vs ++ [v]) (skipLines false rest)
    | ']' :: rest => some (.list (vs ++ [v]), rest)
    | _ => none

/-- Reads the rest of a table between braces. -/
def readEntries? : Nat → Draft → List Char → Option (Value × List Char)
  | 0, _, _ => none
  | _ + 1, d, '\x7d' :: rest => some (.table d.entries, rest)
  | fuel + 1, d, cs => do
    let (d, rest) ← readEntry? (skipLines false) fuel d cs
    match skipLines false rest with
    | ',' :: rest => readEntries? fuel d (skipLines false rest)
    | '\x7d' :: rest => some (.table d.entries, rest)
    | _ => none

/-- Reads keys and a value, and puts it into the current table; `skip` leaves out what may stand on either side of the
sign between them. -/
def readEntry? (skip : List Char → List Char) : Nat → Draft → List Char → Option (Draft × List Char)
  | 0, _, _ => none
  | fuel + 1, d, cs => do
    let (keys, rest) ← readKeys? cs.length cs
    match skip rest with
    | '=' :: rest =>
      let (v, rest) ← readValue? fuel (skip rest)
      return (← d.define? keys v, rest)
    | _ => none

end

/-! ### Documents -/

/-- Reads the rest of a document. -/
def readDocument? : Nat → Draft → List Char → Option Draft
  | 0, _, _ => none
  | fuel + 1, d, cs =>
    match skipLines false cs with
    | [] => some d
    | '[' :: rest => do
      match ← readKeys? rest.length (skipSpace rest) with
      | (keys, ']' :: rest) => readDocument? fuel (← d.enter? keys) (← endLine? rest)
      | _ => none
    | rest => do
      let (d, rest) ← readEntry? skipSpace (2 * rest.length + 2) d rest
      readDocument? fuel d (← endLine? rest)

/-- Reads a document; a byte order mark in front of it is passed over. -/
def read? (text : String) : Option Value :=
  let cs := match text.toList with
    | '\uFEFF' :: rest => rest
    | cs => cs
  (readDocument? (cs.length + 1) {} cs).map fun d => .table d.entries

end Disposal.Toml

import Disposal.Tree

/-!
# Trees as rows of text

A syntax tree is kept as a text with one line for each node in preorder: kind, field, start, end and number of
children, with tabs between them. The kind of a token is written after a quote, and a node in no field has an empty
one. A tree is found by a key that is made from the text it belongs to.
-/

namespace Disposal

/-- The FNV-1a hash of the bytes of a text, in sixty-four bits. -/
def Text.hash (text : String) : UInt64 :=
  text.toUTF8.foldl (fun h b => (h ^^^ b.toUInt64) * 0x100000001b3) 0xcbf29ce484222325

/-- The hash of a text as sixteen digits to the base sixteen. -/
def Text.key (text : String) : String :=
  let digits := Nat.toDigits 16 (hash text).toNat
  String.ofList (List.replicate (16 - digits.length) '0' ++ digits)

namespace Tree

/-- Reads the label of a node. -/
def readLabel (word : String) : Label :=
  match word.toList with
  | '\'' :: token => .token (String.ofList token)
  | _ => .ofName word

/-- Reads the line of a node. -/
def Row.ofLine? (line : String) : Option Row := do
  match (line.toList.splitOnP (· = '\t')).map String.ofList with
  | [label, field, start, stop, count] =>
    let field? := if field = "" then none else some (Field.ofText field)
    return ⟨readLabel label, field?, ← start.toNat?, ← stop.toNat?, ← count.toNat?⟩
  | _ => none

/-- Reads the tree of a source. -/
def ofText? (source rows : String) : Option Tree :=
  ((Text.lines rows).mapM Row.ofLine?).bind (ofRows? source)

end Tree

end Disposal

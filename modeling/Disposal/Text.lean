/-!
# Texts by byte offset

Offsets into a text count the bytes of its UTF-8 encoding. A text is cut as a list of characters: `takeBytes` and
`dropBytes` stop at an offset, and `isBoundary` says that the offset lies between two characters.

* `takeBytes_append_dropBytes`: cutting at a boundary loses nothing;
* `flatten_linesKept`: the lines of a text, with their line feeds, are the text.
-/

namespace Disposal.Text

/-! ### Bytes -/

/-- Number of bytes of a list of characters. -/
def byteSize : List Char → Nat
  | [] => 0
  | c :: cs => c.utf8Size + byteSize cs

/-- Whether the offset `n` lies between two characters, or at an end, of the text. -/
def isBoundary : List Char → Nat → Bool
  | _, 0 => true
  | [], _ + 1 => false
  | c :: cs, n + 1 => c.utf8Size ≤ n + 1 && isBoundary cs (n + 1 - c.utf8Size)

/-- The characters that start before the offset `n`. -/
def takeBytes : Nat → List Char → List Char
  | 0, _ => []
  | _ + 1, [] => []
  | n + 1, c :: cs => c :: takeBytes (n + 1 - c.utf8Size) cs

/-- The characters that start at the offset `n` or later. -/
def dropBytes : Nat → List Char → List Char
  | 0, cs => cs
  | _ + 1, [] => []
  | n + 1, c :: cs => dropBytes (n + 1 - c.utf8Size) cs

@[simp] theorem takeBytes_append_dropBytes (n : Nat) (cs : List Char) :
    takeBytes n cs ++ dropBytes n cs = cs := by
  induction cs generalizing n with
  | nil => cases n <;> rfl
  | cons c cs ih => cases n <;> simp [takeBytes, dropBytes, ih]

/-- The stretch `[start, stop)` of a text, if both ends are boundaries of it in this order. -/
def slice? (text : String) (start stop : Nat) : Option String :=
  let cs := text.toList
  if start ≤ stop && isBoundary cs start && isBoundary cs stop then
    some (String.ofList (takeBytes (stop - start) (dropBytes start cs)))
  else none

/-! ### Blanks -/

/-- The characters that count as blank: those with the Unicode property White_Space. -/
def isBlank (c : Char) : Bool :=
  let n := c.toNat
  (9 ≤ n && n ≤ 13) || n == 32 || n == 0x85 || n == 0xA0 || n == 0x1680 || (0x2000 ≤ n && n ≤ 0x200A) ||
    n == 0x2028 || n == 0x2029 || n == 0x202F || n == 0x205F || n == 0x3000

/-- Drops the elements at the end that satisfy `p`. -/
def dropEndWhile (p : Char → Bool) (cs : List Char) : List Char :=
  (cs.reverse.dropWhile p).reverse

/-- Drops leading blanks. -/
def trimStart (cs : List Char) : List Char :=
  cs.dropWhile isBlank

/-- Drops trailing blanks. -/
def trimEnd (cs : List Char) : List Char :=
  dropEndWhile isBlank cs

/-- Drops blanks at both ends. -/
def trim (text : String) : String :=
  String.ofList (trimEnd (trimStart text.toList))

/-! ### Lines and pieces -/

/-- Puts a character in front of the first line, or of a new line when it is a line feed. -/
def consLine (c : Char) : List (List Char) → List (List Char)
  | [] => [[c]]
  | line :: lines => if c = '\n' then [c] :: line :: lines else (c :: line) :: lines

/-- The lines of a text, each with the line feed that ends it; an empty text has none. -/
def linesKept (cs : List Char) : List (List Char) :=
  cs.foldr consLine []

theorem flatten_linesKept (cs : List Char) : (linesKept cs).flatten = cs := by
  induction cs with
  | nil => rfl
  | cons c cs ih =>
    show (consLine c (linesKept cs)).flatten = c :: cs
    cases h : linesKept cs with
    | nil => rw [h] at ih; simp [consLine, ← ih]
    | cons line lines =>
      rw [h] at ih
      by_cases hc : c = '\n' <;> simp_all [consLine]

/-- A line without the line feed that ends it, nor a carriage return just before that line feed. -/
def stripLineEnd (line : List Char) : List Char :=
  match line.reverse with
  | '\n' :: '\r' :: rest => rest.reverse
  | '\n' :: rest => rest.reverse
  | _ => line

/-- The lines of a text without their ends. -/
def lines (text : String) : List String :=
  (linesKept text.toList).map fun line => String.ofList (stripLineEnd line)

/-- The part of a list in front of the first occurrence of `mark`, and the part after it if it occurs. -/
def breakAt (mark : List Char) : List Char → List Char × Option (List Char)
  | [] => ([], none)
  | c :: cs =>
    match mark.isPrefixOf? (c :: cs) with
    | some rest => ([], some rest)
    | none => let (before, after) := breakAt mark cs; (c :: before, after)

/-- Whether `part` occurs in the text. -/
def hasInfix (part : List Char) : List Char → Bool
  | [] => part.isEmpty
  | c :: cs => part.isPrefixOf (c :: cs) || hasInfix part cs

/-- The text with its ASCII letters in lower case. -/
def lower (text : String) : String :=
  String.ofList (text.toList.map Char.toLower)

/-- Whether the text starts with `part`. -/
def startsWith (part text : String) : Bool :=
  part.toList.isPrefixOf text.toList

/-- Whether the text ends with `part`. -/
def endsWith (part text : String) : Bool :=
  part.toList.isSuffixOf text.toList

/-- The texts one after the other with `sep` between them. -/
def join (sep : String) : List String → String
  | [] => ""
  | [t] => t
  | t :: ts => t ++ sep ++ join sep ts

/-- The text repeated `n` times. -/
def times (n : Nat) (text : String) : String :=
  (List.replicate n text).foldl (· ++ ·) ""

/-- The text with a line feed. -/
def line (text : String) : String :=
  text ++ "\n"

end Disposal.Text

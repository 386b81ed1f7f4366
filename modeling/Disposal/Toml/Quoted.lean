/-!
# Quoted texts of TOML

Texts between quotes, on one line or on several, with and without escapes; and keys, which may be quoted. A reader
takes the characters after the opening quotes and gives the text and the characters after the closing quotes.
-/

namespace Disposal.Toml

/-! ### Characters -/

/-- Whether a character separates words on a line. -/
def isSpace (c : Char) : Bool := c = ' ' || c = '\t'

/-- Whether a character may stand in a comment or a text on one line. -/
def isPlain (c : Char) : Bool := c = '\t' || (0x20 ≤ c.toNat && c.toNat ≠ 0x7F)

/-- Whether a character may stand in a key without quotes. -/
def isBare (c : Char) : Bool := c.isAlphanum || c = '_' || c = '-'

/-- What is left after the separators at the front. -/
def skipSpace (cs : List Char) : List Char := cs.dropWhile isSpace

/-- What is left after a line end. -/
def afterLineEnd? : List Char → Option (List Char)
  | '\n' :: cs => some cs
  | '\r' :: '\n' :: cs => some cs
  | _ => none

/-! ### Escapes -/

/-- The value of a digit to the base sixteen. -/
def hexDigit? (c : Char) : Option Nat :=
  if '0' ≤ c ∧ c ≤ '9' then some (c.toNat - '0'.toNat)
  else if 'a' ≤ c ∧ c ≤ 'f' then some (c.toNat - 'a'.toNat + 10)
  else if 'A' ≤ c ∧ c ≤ 'F' then some (c.toNat - 'A'.toNat + 10)
  else none

/-- The character whose number is written with some digits to the base sixteen. -/
def ofHex? (digits : List Char) : Option Char := do
  let n ← digits.foldlM (fun n d => (hexDigit? d).map (16 * n + ·)) 0
  if n < 0xD800 || (0xE000 ≤ n && n < 0x110000) then some (Char.ofNat n) else none

/-- The character that stands for itself or another after a backslash. -/
def ofEscape? : Char → Option Char
  | 'b' => some '\x08'
  | 't' => some '\t'
  | 'n' => some '\n'
  | 'f' => some '\x0C'
  | 'r' => some '\r'
  | 'e' => some '\x1B'
  | '"' => some '"'
  | '\\' => some '\\'
  | _ => none

/-! ### Texts on one line -/

/-- A reader's answer with a character in front of the text. -/
def consText (c : Char) (answer : Option (List Char × List Char)) : Option (List Char × List Char) :=
  answer.map fun (text, rest) => (c :: text, rest)

/-- Reads a text with escapes. -/
def readBasic? : List Char → Option (List Char × List Char)
  | [] => none
  | '"' :: cs => some ([], cs)
  | '\\' :: 'x' :: a :: b :: cs => (ofHex? [a, b]).bind fun x => consText x (readBasic? cs)
  | '\\' :: 'u' :: a :: b :: c :: d :: cs => (ofHex? [a, b, c, d]).bind fun x => consText x (readBasic? cs)
  | '\\' :: 'U' :: a :: b :: c :: d :: e :: f :: g :: h :: cs =>
    (ofHex? [a, b, c, d, e, f, g, h]).bind fun x => consText x (readBasic? cs)
  | '\\' :: c :: cs => (ofEscape? c).bind fun x => consText x (readBasic? cs)
  | c :: cs => if isPlain c && c ≠ '\\' then consText c (readBasic? cs) else none

/-- Reads a text without escapes. -/
def readLiteral? : List Char → Option (List Char × List Char)
  | [] => none
  | '\'' :: cs => some ([], cs)
  | c :: cs => if isPlain c then consText c (readLiteral? cs) else none

/-! ### Texts on several lines -/

/-- What is left after a line end directly behind the opening quotes. -/
def dropFirstLineEnd (cs : List Char) : List Char := (afterLineEnd? cs).getD cs

/-- Reads a text with escapes on several lines; after a backslash at the end of a line, which sets `skipping`, all
blanks and line ends are left out. -/
def readLongBasic? (skipping : Bool) : List Char → Option (List Char × List Char)
  | [] => none
  | '"' :: '"' :: '"' :: '"' :: '"' :: cs => some (['"', '"'], cs)
  | '"' :: '"' :: '"' :: '"' :: cs => some (['"'], cs)
  | '"' :: '"' :: '"' :: cs => some ([], cs)
  | '\r' :: '\n' :: cs =>
    if skipping then readLongBasic? true cs else consText '\r' (consText '\n' (readLongBasic? false cs))
  | '\\' :: 'x' :: a :: b :: cs => (ofHex? [a, b]).bind fun x => consText x (readLongBasic? false cs)
  | '\\' :: 'u' :: a :: b :: c :: d :: cs =>
    (ofHex? [a, b, c, d]).bind fun x => consText x (readLongBasic? false cs)
  | '\\' :: 'U' :: a :: b :: c :: d :: e :: f :: g :: h :: cs =>
    (ofHex? [a, b, c, d, e, f, g, h]).bind fun x => consText x (readLongBasic? false cs)
  | '\\' :: c :: cs =>
    if (afterLineEnd? (skipSpace (c :: cs))).isSome then readLongBasic? true (c :: cs)
    else (ofEscape? c).bind fun x => consText x (readLongBasic? false cs)
  | c :: cs =>
    if skipping && (isSpace c || c = '\n') then readLongBasic? true cs
    else if (isPlain c && c ≠ '\\') || c = '\n' then consText c (readLongBasic? false cs)
    else none

/-- Reads a text without escapes on several lines. -/
def readLongLiteral? : List Char → Option (List Char × List Char)
  | [] => none
  | '\'' :: '\'' :: '\'' :: '\'' :: '\'' :: cs => some (['\'', '\''], cs)
  | '\'' :: '\'' :: '\'' :: '\'' :: cs => some (['\''], cs)
  | '\'' :: '\'' :: '\'' :: cs => some ([], cs)
  | '\r' :: '\n' :: cs => consText '\r' (consText '\n' (readLongLiteral? cs))
  | c :: cs => if isPlain c || c = '\n' then consText c (readLongLiteral? cs) else none

/-! ### Keys -/

/-- Reads one key. -/
def readKey? : List Char → Option (String × List Char)
  | '"' :: cs => (readBasic? cs).map fun (text, rest) => (String.ofList text, rest)
  | '\'' :: cs => (readLiteral? cs).map fun (text, rest) => (String.ofList text, rest)
  | cs =>
    match cs.takeWhile isBare with
    | [] => none
    | word => some (String.ofList word, cs.dropWhile isBare)

/-- Reads keys with points between them, and the separators after them. -/
def readKeys? : Nat → List Char → Option (List String × List Char)
  | 0, _ => none
  | fuel + 1, cs => do
    let (key, rest) ← readKey? cs
    match skipSpace rest with
    | '.' :: more =>
      let (keys, rest) ← readKeys? fuel (skipSpace more)
      return (key :: keys, rest)
    | rest => return ([key], rest)

end Disposal.Toml

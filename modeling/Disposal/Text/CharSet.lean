import Disposal.Text.CaseFold

/-!
# Sets of characters

What a class of a pattern stands for, and how a class is written: elements and ranges between brackets, classes
inside classes, and the operations `&&`, `--` and `~~` between them, which are applied from left to right.

* `contains_union`, `contains_inter`, `contains_diff`, `contains_symmDiff`, `contains_compl`: membership in a set made
  from others is decided by membership in these.
-/

namespace Disposal

/-! ### Digits -/

/-- The first of each run of ten decimal digits of Unicode 16. -/
def digitRuns : List Nat :=
  [0x30, 0x660, 0x6F0, 0x7C0, 0x966, 0x9E6, 0xA66, 0xAE6, 0xB66, 0xBE6, 0xC66, 0xCE6, 0xD66, 0xDE6, 0xE50, 0xED0,
   0xF20, 0x1040, 0x1090, 0x17E0, 0x1810, 0x1946, 0x19D0, 0x1A80, 0x1A90, 0x1B50, 0x1BB0, 0x1C40, 0x1C50, 0xA620,
   0xA8D0, 0xA900, 0xA9D0, 0xA9F0, 0xAA50, 0xABF0, 0xFF10, 0x104A0, 0x10D30, 0x10D40, 0x11066, 0x110F0, 0x11136,
   0x111D0, 0x112F0, 0x11450, 0x114D0, 0x11650, 0x116C0, 0x116D0, 0x116DA, 0x11730, 0x118E0, 0x11950, 0x11BF0,
   0x11C50, 0x11D50, 0x11DA0, 0x11F50, 0x16130, 0x16A60, 0x16AC0, 0x16B50, 0x16D70, 0x1CCF0, 0x1D7CE, 0x1D7D8,
   0x1D7E2, 0x1D7EC, 0x1D7F6, 0x1E140, 0x1E2F0, 0x1E4F0, 0x1E5F1, 0x1E950, 0x1FBF0]

/-- Whether a character is a decimal digit of some script. -/
def isDecimalDigit (c : Char) : Bool := digitRuns.any fun first => first ≤ c.toNat && c.toNat < first + 10

/-! ### Sets -/

/-- A set of characters. -/
inductive CharSet where
  | empty
  | range (first last : Char)
  /-- The decimal digits of all scripts. -/
  | digit
  | union (a b : CharSet)
  | inter (a b : CharSet)
  | diff (a b : CharSet)
  | symmDiff (a b : CharSet)
  | compl (a : CharSet)
  /-- The characters that differ from a character of the set in case only. -/
  | anyCase (a : CharSet)
  deriving DecidableEq, Repr

namespace CharSet

/-- Whether a character is in a set. -/
def contains (c : Char) : CharSet → Bool
  | empty => false
  | range first last => first ≤ c && c ≤ last
  | digit => isDecimalDigit c
  | union a b => contains c a || contains c b
  | inter a b => contains c a && contains c b
  | diff a b => contains c a && !contains c b
  | symmDiff a b => contains c a != contains c b
  | compl a => !contains c a
  | anyCase a => (CaseFold.forms c).any fun d => contains d a

@[simp] theorem contains_union (c : Char) (a b : CharSet) :
    (union a b).contains c = (a.contains c || b.contains c) := rfl

@[simp] theorem contains_inter (c : Char) (a b : CharSet) :
    (inter a b).contains c = (a.contains c && b.contains c) := rfl

@[simp] theorem contains_diff (c : Char) (a b : CharSet) :
    (diff a b).contains c = (a.contains c && !b.contains c) := rfl

@[simp] theorem contains_symmDiff (c : Char) (a b : CharSet) :
    (symmDiff a b).contains c = (a.contains c != b.contains c) := rfl

@[simp] theorem contains_compl (c : Char) (a : CharSet) : (compl a).contains c = !a.contains c := rfl

/-- The set of one character. -/
def single (c : Char) : CharSet := range c c

/-- The set of some ranges. -/
def ofRanges (ranges : List (Char × Char)) : CharSet :=
  ranges.foldr (fun (first, last) s => union (range first last) s) empty

/-- The set itself, or what differs from it in case only. -/
def inCase (ignoreCase : Bool) (s : CharSet) : CharSet := if ignoreCase then anyCase s else s

/-- The set itself, or all other characters. -/
def negatedIf (negated : Bool) (s : CharSet) : CharSet := if negated then compl s else s

/-- The ranges of the classes with names, all of them within ASCII. -/
def named? : String → Option (List (Char × Char))
  | "alnum" => some [('0', '9'), ('A', 'Z'), ('a', 'z')]
  | "alpha" => some [('A', 'Z'), ('a', 'z')]
  | "ascii" => some [('\x00', '\x7F')]
  | "blank" => some [('\t', '\t'), (' ', ' ')]
  | "cntrl" => some [('\x00', '\x1F'), ('\x7F', '\x7F')]
  | "digit" => some [('0', '9')]
  | "graph" => some [('!', '~')]
  | "lower" => some [('a', 'z')]
  | "print" => some [(' ', '~')]
  | "punct" => some [('!', '/'), (':', '@'), ('[', '\x60'), ('\x7B', '~')]
  | "space" => some [('\t', '\r'), (' ', ' ')]
  | "upper" => some [('A', 'Z')]
  | "word" => some [('0', '9'), ('A', 'Z'), ('_', '_'), ('a', 'z')]
  | "xdigit" => some [('0', '9'), ('A', 'F'), ('a', 'f')]
  | _ => none

/-! ### Elements -/

/-- An element of a class: a character, or a set with a name of its own. -/
inductive Element where
  | char (c : Char)
  | set (s : CharSet)

def Element.toSet : Element → CharSet
  | char c => single c
  | set s => s

/-- What a character after a backslash stands for: a digit, a control character, or itself if it is neither a letter
nor a digit. -/
def escaped? (c : Char) : Option Element :=
  match c with
  | 'd' => some (.set digit)
  | 'D' => some (.set (compl digit))
  | 'a' => some (.char '\x07')
  | 'f' => some (.char '\x0C')
  | 'n' => some (.char '\n')
  | 'r' => some (.char '\r')
  | 't' => some (.char '\t')
  | 'v' => some (.char '\x0B')
  | _ => if c.toNat < 128 && !c.isAlphanum && c ≠ '<' && c ≠ '>' then some (.char c) else none

/-- Reads an element. -/
def readElement? : List Char → Option (Element × List Char)
  | '\\' :: c :: cs => (escaped? c).map (·, cs)
  | '\\' :: [] => none
  | c :: cs => some (.char c, cs)
  | [] => none

/-- Reads an element or a range; a dash ahead of a bracket or of another dash makes no range. -/
def readRange? (cs : List Char) : Option (CharSet × List Char) := do
  let (first, rest) ← readElement? cs
  match rest with
  | '-' :: d :: more =>
    if d = ']' || d = '-' then some (first.toSet, rest)
    else
      match first, ← readElement? (d :: more) with
      | .char a, (.char b, rest) => if a ≤ b then some (range a b, rest) else none
      | _, _ => none
  | _ => some (first.toSet, rest)

/-- Reads the name of a class with a colon on either side and the bracket that closes it. -/
def readNamed? (ignoreCase : Bool) (cs : List Char) : Option (CharSet × List Char) :=
  match cs with
  | ':' :: cs =>
    let (negated, cs) := match cs with
      | '^' :: rest => (true, rest)
      | _ => (false, cs)
    match cs.dropWhile (· ≠ ':') with
    | ':' :: ']' :: rest =>
      (named? (String.ofList (cs.takeWhile (· ≠ ':')))).map fun ranges =>
        (negatedIf negated (inCase ignoreCase (ofRanges ranges)), rest)
    | _ => none
  | _ => none

/-! ### Classes -/

/-- An operation between sets. -/
inductive Operation where
  | inter
  | diff
  | symmDiff
  deriving DecidableEq, Repr

/-- Carries out an operation. -/
def Operation.apply (ignoreCase : Bool) (o : Operation) (a b : CharSet) : CharSet :=
  let a := inCase ignoreCase a
  let b := inCase ignoreCase b
  match o with
  | inter => .inter a b
  | diff => .diff a b
  | symmDiff => .symmDiff a b

/-- What has been read of a class: the left side of an operation, if there is one, and the elements after it. -/
structure Reading where
  left? : Option (Operation × CharSet) := none
  elements : CharSet := empty

namespace Reading

/-- Adds elements. -/
def add (r : Reading) (s : CharSet) : Reading := { r with elements := union r.elements s }

/-- The set that has been read. -/
def result (ignoreCase : Bool) (r : Reading) : CharSet :=
  match r.left? with
  | some (o, left) => o.apply ignoreCase left r.elements
  | none => r.elements

/-- Makes what has been read the left side of an operation. -/
def operate (ignoreCase : Bool) (r : Reading) (o : Operation) : Reading :=
  { left? := some (o, r.result ignoreCase) }

end Reading

/-- The dashes at the front of a class, or else a bracket there, which stand for themselves. -/
def readFront (cs : List Char) : Reading × List Char :=
  match cs with
  | '-' :: rest => ({ elements := single '-' }, rest.dropWhile (· = '-'))
  | ']' :: rest => ({ elements := single ']' }, rest)
  | _ => ({}, cs)

mutual

/-- Reads a class after the bracket that opens it. -/
def readClass? (ignoreCase : Bool) : Nat → List Char → Option (CharSet × List Char)
  | 0, _ => none
  | fuel + 1, cs => do
    let (negated, cs) := match cs with
      | '^' :: rest => (true, rest)
      | _ => (false, cs)
    let (r, cs) := readFront cs
    let (s, rest) ← readRest? ignoreCase fuel r cs
    return (negatedIf negated (inCase ignoreCase s), rest)

/-- Reads a class on to the bracket that closes it. -/
def readRest? (ignoreCase : Bool) : Nat → Reading → List Char → Option (CharSet × List Char)
  | 0, _, _ => none
  | fuel + 1, r, cs =>
    match cs with
    | ']' :: rest => some (r.result ignoreCase, rest)
    | '&' :: '&' :: rest => readRest? ignoreCase fuel (r.operate ignoreCase .inter) rest
    | '-' :: '-' :: rest => readRest? ignoreCase fuel (r.operate ignoreCase .diff) rest
    | '~' :: '~' :: rest => readRest? ignoreCase fuel (r.operate ignoreCase .symmDiff) rest
    | '[' :: rest => do
      let (s, rest) ← readNamed? ignoreCase rest <|> readClass? ignoreCase fuel rest
      readRest? ignoreCase fuel (r.add s) rest
    | _ => do
      let (s, rest) ← readRange? cs
      readRest? ignoreCase fuel (r.add s) rest

end

end CharSet

end Disposal

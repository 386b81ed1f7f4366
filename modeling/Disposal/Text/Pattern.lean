import Disposal.Text.CharSet

/-!
# Patterns

Regular expressions over characters: literals, `.`, classes, `^`, `$`, groups, `|`, `*`, `+`, `?` and `(?i)`. A
pattern matches a text if it matches some stretch of it.
-/

namespace Disposal

/-- A regular expression. -/
inductive Pattern where
  | empty
  | one (s : CharSet)
  | start
  | stop
  | seq (a b : Pattern)
  | alt (a b : Pattern)
  | star (a : Pattern)

namespace Pattern

/-! ### Matching -/

/-- Adds positions that are not there yet. -/
def addPlaces (places new : List Nat) : List Nat :=
  new.foldl (fun found i => if found.contains i then found else found ++ [i]) places

/-- The positions that are reached from some positions by any number of steps, at most `fuel` of them. -/
def reach (step : List Nat → List Nat) : Nat → List Nat → List Nat
  | 0, places => places
  | fuel + 1, places =>
    let more := addPlaces places (step places)
    if more.length = places.length then places else reach step fuel more

/-- The positions of a text at which matches end that start at one of some positions. -/
def ends (text : Array Char) : Pattern → List Nat → List Nat
  | empty, places => places
  | one s, places => (places.filter fun i => text[i]?.any s.contains).map (· + 1)
  | start, places => places.filter (· = 0)
  | stop, places => places.filter (· = text.size)
  | seq a b, places => ends text b (ends text a places)
  | alt a b, places => addPlaces (ends text a places) (ends text b places)
  | star a, places => reach (ends text a) (text.size + 1) places

/-- Whether a pattern matches some stretch of a text. -/
def matchesIn (p : Pattern) (text : String) : Bool :=
  let cs := text.toList.toArray
  !(ends cs p (List.range (cs.size + 1))).isEmpty

/-! ### Reading -/

def plus (p : Pattern) : Pattern := seq p (star p)

def optional (p : Pattern) : Pattern := alt p empty

/-- Any character but the end of a line. -/
def dot : Pattern := one (.compl (.single '\n'))

/-- Patterns one after the other. -/
def seqAll : List Pattern → Pattern
  | [] => empty
  | [p] => p
  | p :: ps => seq p (seqAll ps)

/-- One of some patterns. -/
def altAll : List Pattern → Pattern
  | [] => empty
  | [p] => p
  | p :: ps => alt p (altAll ps)

/-- What has been read of a group: alternatives, the parts of the current one, and its last part, which a repetition
applies to. -/
structure Partial where
  ignoreCase : Bool
  alternatives : List Pattern := []
  parts : List Pattern := []
  last? : Option Pattern := none

namespace Partial

/-- Ends the last part. -/
def close (p : Partial) : Partial := { p with parts := p.parts ++ p.last?.toList, last? := none }

/-- Adds a part. -/
def push (p : Partial) (part : Pattern) : Partial := { p.close with last? := some part }

/-- Adds an element, in any case if case does not matter. -/
def pushElement (p : Partial) (e : CharSet.Element) : Partial := p.push (.one (e.toSet.inCase p.ignoreCase))

/-- Starts another alternative. -/
def next (p : Partial) : Partial :=
  { p with alternatives := p.alternatives ++ [seqAll p.close.parts], parts := [], last? := none }

/-- The pattern that has been read. -/
def result (p : Partial) : Pattern := altAll p.next.alternatives

/-- Repeats the last part, if there is one. -/
def applyToLast? (p : Partial) (f : Pattern → Pattern) : Option Partial :=
  p.last?.map fun last => { p with last? := some (f last) }

end Partial

/-- The text without the mark that makes a repetition lazy, which changes no match. -/
def skipLazy : List Char → List Char
  | '?' :: cs => cs
  | cs => cs

/-- Reads a group up to its closing parenthesis or the end of the text. -/
def readGroup? : Nat → Partial → List Char → Option (Pattern × List Char)
  | 0, _, _ => none
  | _ + 1, p, [] => some (p.result, [])
  | fuel + 1, p, c :: cs =>
    match c with
    | ')' => some (p.result, c :: cs)
    | '|' => readGroup? fuel p.next cs
    | '*' => (p.applyToLast? star).bind fun p => readGroup? fuel p (skipLazy cs)
    | '+' => (p.applyToLast? plus).bind fun p => readGroup? fuel p (skipLazy cs)
    | '?' => (p.applyToLast? optional).bind fun p => readGroup? fuel p (skipLazy cs)
    | '.' => readGroup? fuel (p.push dot) cs
    | '^' => readGroup? fuel (p.push start) cs
    | '$' => readGroup? fuel (p.push stop) cs
    | '[' => do
      let (s, rest) ← CharSet.readClass? p.ignoreCase (2 * cs.length + 2) cs
      readGroup? fuel (p.push (.one s)) rest
    | '(' =>
      match cs with
      | '?' :: 'i' :: ')' :: rest => readGroup? fuel { p.close with ignoreCase := true } rest
      | '?' :: ':' :: rest => inner? fuel p rest
      | '?' :: _ => none
      | _ => inner? fuel p cs
    | '\x7b' => none
    | _ => do
      let (e, rest) ← CharSet.readElement? (c :: cs)
      readGroup? fuel (p.pushElement e) rest
where
  /-- Reads a group inside another. -/
  inner? (fuel : Nat) (p : Partial) (cs : List Char) : Option (Pattern × List Char) :=
    match readGroup? fuel { ignoreCase := p.ignoreCase } cs with
    | some (g, ')' :: rest) => readGroup? fuel (p.push g) rest
    | _ => none

/-- Reads a pattern, if it is well formed. -/
def ofText? (text : String) : Option Pattern :=
  let cs := text.toList
  match readGroup? (cs.length + 1) { ignoreCase := false } cs with
  | some (p, []) => some p
  | _ => none

end Pattern

end Disposal

import Disposal.Text

/-!
# Paths

A path is a text with slashes. Two texts are the same path if they have the same parts; paths are ordered by their
parts.
-/

namespace Disposal.Path

/-- A part of a path: the root, the directory itself, the one above, or a name. -/
inductive Part where
  | root
  | here
  | up
  | name (text : String)
  deriving DecidableEq, Repr

/-- What a piece between slashes says. -/
def Part.ofPiece (piece : String) : Part :=
  if piece = "." then here else if piece = ".." then up else name piece

/-- The pieces of a path between slashes. -/
def pieces (path : String) : List String :=
  (path.toList.splitOnP (· = '/')).map String.ofList

/-- Whether a piece after the first says nothing. -/
def isIdle (piece : String) : Bool := piece = "" || piece = "."

/-- The parts of a path. -/
def parts (path : String) : List Part :=
  match pieces path with
  | [] => []
  | first :: rest =>
    let head := if first = "" then (if rest.isEmpty then [] else [.root]) else [Part.ofPiece first]
    head ++ (rest.filter fun p => !isIdle p).map Part.ofPiece

/-! ### Order -/

/-- The place of a part among the kinds of parts. -/
def Part.rank : Part → Nat
  | root => 0
  | here => 1
  | up => 2
  | name _ => 3

def Part.text : Part → String
  | name text => text
  | _ => ""

/-- Parts are ordered by kind, names as texts. -/
def Part.order (a b : Part) : Ordering := (compare a.rank b.rank).then (compare a.text b.text)

/-- Lists of parts are ordered by the first difference; a shorter list comes first. -/
def orderParts : List Part → List Part → Ordering
  | [], [] => .eq
  | [], _ :: _ => .lt
  | _ :: _, [] => .gt
  | a :: as, b :: bs => (a.order b).then (orderParts as bs)

/-- The order of paths. -/
def order (a b : String) : Ordering := orderParts (parts a) (parts b)

/-- Leaves out paths that repeat the one before. -/
def dropRepeats : List String → List String
  | [] => []
  | [p] => [p]
  | p :: q :: rest => if parts p = parts q then dropRepeats (p :: rest) else p :: dropRepeats (q :: rest)

/-- The paths in order, each once. -/
def sort (paths : List String) : List String :=
  dropRepeats (paths.mergeSort fun a b => (order a b).isLE)

/-! ### Up and down -/

/-- The pieces without those at the end that say nothing. -/
def trimPieces : List String → List String
  | [] => []
  | first :: rest => first :: (rest.reverse.dropWhile isIdle).reverse

/-- The path of the directory that a path lies in; the root and the empty path lie in none. -/
def parent? (path : String) : Option String :=
  match trimPieces (pieces path) with
  | [] => none
  | [first] => if first = "" then none else some ""
  | first :: rest =>
    match trimPieces (first :: rest.dropLast) with
    | [""] => some "/"
    | above => some (Text.join "/" above)

/-- A path and the paths above it, at most `n` of them. -/
def upwardsFor : Nat → String → List String
  | 0, path => [path]
  | n + 1, path =>
    match parent? path with
    | some above => path :: upwardsFor n above
    | none => [path]

/-- A path and the paths above it, nearest first. -/
def upwards (path : String) : List String := upwardsFor path.length path

/-- The path of something with a name in a directory. -/
def join (directory name : String) : String :=
  if directory = "" then name
  else if Text.endsWith "/" directory then directory ++ name
  else directory ++ "/" ++ name

/-! ### Names -/

/-- A name without its extension, and the extension: what follows the last point, unless that is the first
character. -/
def splitName (name : String) : String × Option String :=
  let reversed := name.toList.reverse
  let stem := (reversed.dropWhile (· ≠ '.')).drop 1
  if stem.isEmpty then (name, none)
  else (String.ofList stem.reverse, some (String.ofList (reversed.takeWhile (· ≠ '.')).reverse))

/-- The extension of the last name of a path. -/
def extension? (path : String) : Option String :=
  match (parts path).getLast? with
  | some (.name text) => (splitName text).2
  | _ => none

/-- The path with another extension. -/
def withExtension (path extension : String) : String :=
  let ps := pieces path
  let name := ps.getLast?.getD ""
  Text.join "/" (ps.dropLast ++ [(splitName name).1 ++ "." ++ extension])

end Disposal.Path

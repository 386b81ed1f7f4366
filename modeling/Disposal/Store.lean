import Disposal.Path

/-!
# Stores of files

The files below a working directory, each at a place: the names on the way to it. A directory is there if something
is in it.

* `Store.entryAt?_put`: what is written can be read.
-/

namespace Disposal

/-- Why a path cannot be used. -/
inductive StoreError where
  | missing
  | notDirectory
  | isDirectory
  deriving DecidableEq, Repr

def StoreError.message : StoreError → String
  | missing => "No such file or directory (os error 2)"
  | notDirectory => "Not a directory (os error 20)"
  | isDirectory => "Is a directory (os error 21)"

/-- The files below a directory, with the path of that directory. -/
structure Store where
  home : String := "/"
  files : List (List String × String) := []
  deriving DecidableEq, Repr

namespace Store

/-- What is found at a place. -/
inductive Entry where
  | file (text : String)
  | directory
  deriving DecidableEq, Repr

/-- What there is at a place. -/
def entryAt? (s : Store) (place : List String) : Option Entry :=
  match s.files.lookup place with
  | some text => some (.file text)
  | none => if place.isEmpty || s.files.any fun f => place.isPrefixOf f.1 then some .directory else none

/-- Puts a text at a place. -/
def put (s : Store) (place : List String) (text : String) : Store :=
  { s with files := (place, text) :: s.files.filter fun f => f.1 ≠ place }

theorem entryAt?_put (s : Store) (place : List String) (text : String) :
    (s.put place text).entryAt? place = some (.file text) := by
  simp [entryAt?, put]

/-- Puts files with paths of names only into a store. -/
def ofFiles (home : String) (files : List (String × String)) : Store :=
  files.foldl (fun s (path, text) => s.put (Path.pieces path) text) { home }

/-! ### By path -/

/-- Goes one part further. -/
def step (s : Store) (place : List String) (part : Path.Part) : Except StoreError (List String) :=
  match s.entryAt? place with
  | none => .error .missing
  | some (.file _) => .error .notDirectory
  | some .directory =>
    match part with
    | .here => .ok place
    | .name text => .ok (place ++ [text])
    | .up => if place.isEmpty then .error .missing else .ok place.dropLast
    | .root => .error .missing

/-- The parts of a path as seen from the working directory, if it does not lead elsewhere. -/
def relative? (s : Store) (path : String) : Option (List Path.Part) :=
  match Path.parts path with
  | [] => none
  | .root :: rest => (Path.parts s.home).isPrefixOf? (.root :: rest)
  | ps => some ps

/-- The place that a path leads to; there may be nothing there yet. -/
def locate (s : Store) (path : String) : Except StoreError (List String) :=
  match s.relative? path with
  | some ps => ps.foldlM s.step []
  | none => .error .missing

/-- Whether a path is written as that of a directory. -/
def isSlashed (path : String) : Bool := (Path.pieces path).tail.getLast?.any Path.isIdle

/-- What a path leads to. -/
def look (s : Store) (path : String) : Except StoreError Entry := do
  match s.entryAt? (← s.locate path) with
  | none => throw .missing
  | some (.file text) => if isSlashed path then throw .notDirectory else return .file text
  | some .directory => return .directory

/-- Whether a path leads to a file. -/
def isFile (s : Store) (path : String) : Bool :=
  match s.look path with
  | .ok (.file _) => true
  | _ => false

/-- The text of a file. -/
def read (s : Store) (path : String) : Except StoreError String := do
  match ← s.look path with
  | .file text => return text
  | .directory => throw .isDirectory

/-- The store after a text is written to a path. -/
def write (s : Store) (path text : String) : Except StoreError Store := do
  let place ← s.locate path
  match s.entryAt? place with
  | some .directory => throw .isDirectory
  | _ => return s.put place text

/-- The places of the files below a directory, as seen from it. -/
def below (s : Store) (place : List String) : List (List String) :=
  s.files.filterMap fun f => place.isPrefixOf? f.1

end Store

end Disposal

import Disposal.Session
import Disposal.Tree.Rows

/-!
# The program

Takes a picture of the files below the working directory, runs, and writes what has changed. The syntax trees of the
sources are made beforehand by a parser and kept in the directory `.trees`, each under the key of its text.
-/

namespace Disposal.Program

/-- The directory that syntax trees are kept in. -/
def treeDirectory : String := ".trees"

/-- The places of the files below a place of the working directory. -/
partial def placesBelow (place : List String) : IO (List (List String)) := do
  let directory ← IO.FS.realPath (Text.join "/" ("." :: place))
  let entries ← directory.readDir
  let found ← entries.toList.mapM fun entry => do
    let inner := place ++ [entry.fileName]
    if ← entry.path.isDir then placesBelow inner else return [inner]
  return found.flatten

/-- Whether the program may have a use for a file. -/
def isRelevant (words : List String) (place : List String) : Bool :=
  let path := Text.join "/" place
  (Path.extension? path).any ["cs", "toml"].contains || words.any fun w => Path.parts w = Path.parts path

/-- Reads the text of a file, if it is one. -/
def readText? (path : String) : IO (Option String) := do
  try return some (← IO.FS.readFile path)
  catch _ => return none

/-- The files that the program may have a use for. -/
def picture (words : List String) : IO Store := do
  let places := (← placesBelow []).filter (isRelevant words)
  let files ← places.filterMapM fun place => do
    let text? ← readText? (Text.join "/" place)
    return text?.map (Text.join "/" place, ·)
  return .ofFiles (← IO.currentDir).toString files

/-- The trees that are kept, under their keys. -/
def trees : IO (List (String × String)) := do
  let places := (← placesBelow []).filter fun place => place.head? == some treeDirectory
  places.filterMapM fun place => do
    let text? ← readText? (Text.join "/" place)
    return text?.map (place.getLast?.getD "", ·)

/-- Writes the files that have changed. -/
def writeBack (before after : Store) : IO Unit :=
  for (place, text) in after.files do
    if before.files.lookup place ≠ some text then IO.FS.writeFile (Text.join "/" place) text

/-- The code of a run that has no outcome and is ended from outside. -/
def aborted : UInt32 := 134

/-- Runs in the working directory. -/
def run (words : List String) : IO UInt32 := do
  let store ← picture words
  let kept ← trees
  let input ← if Session.readsInput words then (← IO.getStdin).readToEnd else pure ""
  let parse (text : String) : Option Tree := (kept.lookup (Text.key text)).bind (Tree.ofText? text)
  let some outcome := Session.run { store, input, parse } words | return aborted
  writeBack store outcome.store
  (← IO.getStdout).putStr outcome.output
  (← IO.getStderr).putStr outcome.errors
  return outcome.exit.toUInt32

end Disposal.Program

def main (words : List String) : IO UInt32 := Disposal.Program.run words

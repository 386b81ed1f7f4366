import Disposal.Tree

/-!
# Printed trees

A syntax tree as text, one node a line, for those who write rules.
-/

namespace Disposal.Tree

/-- The most characters of a node's text that are shown. -/
def shownLength : Nat := 50

/-- The beginning of a text in one line. -/
def shown (text : String) : String :=
  let cs := text.toList
  let cut := if cs.length > shownLength then cs.take shownLength ++ "...".toList else cs
  String.ofList (cut.flatMap fun c => if c = '\n' then ['\\', 'n'] else [c])

mutual

/-- The lines of a tree at a depth. -/
def dumpLines (depth : Nat) : Tree → List String
  | node h cs =>
    let field := match h.field? with
      | some f => f.text ++ ": "
      | none => ""
    (Text.times depth "  " ++ field ++ h.label.text ++ "  \"" ++ shown h.text ++ "\"") :: dumpAll (depth + 1) cs

/-- The lines of trees that follow each other at a depth. -/
def dumpAll (depth : Nat) : List Tree → List String
  | [] => []
  | t :: ts => dumpLines depth t ++ dumpAll depth ts

end

/-- The printed tree of a file. -/
def dump (path : String) (t : Tree) : String :=
  String.join ((s!"AST for {path}:" :: "================" :: dumpLines 0 t).map Text.line)

end Disposal.Tree

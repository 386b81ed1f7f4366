import Disposal.Text
import Disposal.Tree.Kind

/-!
# Syntax trees

A syntax tree covers a text: each node has a label, a stretch of the text, and children that follow each other
within that stretch. Nodes with a grammatical name are *named*; the others are *tokens*.
-/

namespace Disposal

/-- What a node is: a kind that the analysis knows, another grammatical kind, or a token. -/
inductive Label where
  | kind (k : Kind)
  | other (name : String)
  | token (text : String)
  deriving DecidableEq, Repr

namespace Label

/-- The word for a label. -/
def text : Label → String
  | kind k => k.name
  | other name => name
  | token text => text

/-- The label of a named node. -/
def ofName (name : String) : Label :=
  match Kind.ofName? name with
  | some k => kind k
  | none => other name

/-- Whether nodes with this label are named. -/
def isNamed : Label → Bool
  | token _ => false
  | _ => true

/-- Comments and preprocessor lines, which the analysis reads past. -/
def isTrivia : Label → Bool
  | kind k => k == .comment
  | other name => Text.startsWith "preproc" name
  | token _ => false

/-- Whether the label is that of a statement. -/
def isStatement (l : Label) : Bool :=
  Text.endsWith "_statement" l.text

end Label

/-- A node apart from its children: label, field, stretch and text. -/
structure Head where
  label : Label
  field? : Option Field
  start : Nat
  stop : Nat
  text : String
  deriving DecidableEq, Repr

/-- A syntax tree. -/
inductive Tree where
  | node (head : Head) (children : List Tree)

namespace Tree

def head : Tree → Head
  | node h _ => h

def children : Tree → List Tree
  | node _ cs => cs

mutual

/-- The number of nodes of a tree. -/
def size : Tree → Nat
  | node _ cs => sizeAll cs + 1

/-- The number of nodes of a list of trees. -/
def sizeAll : List Tree → Nat
  | [] => 0
  | t :: ts => size t + sizeAll ts

end

mutual

/-- The number of nodes on the longest way down a tree. -/
def height : Tree → Nat
  | node _ cs => heightAll cs + 1

/-- The greatest height in a list of trees. -/
def heightAll : List Tree → Nat
  | [] => 0
  | t :: ts => max (height t) (heightAll ts)

end

/-! ### Building a tree -/

/-- A node of a tree in preorder, with the number of its children. -/
structure Row where
  label : Label
  field? : Option Field
  start : Nat
  stop : Nat
  count : Nat
  deriving DecidableEq, Repr

/-- The node of a row over the text it is cut from. -/
def Row.head (source : List Char) (r : Row) : Head where
  label := r.label
  field? := r.field?
  start := r.start
  stop := r.stop
  text :=
    if r.start ≤ r.stop && r.stop ≤ Text.byteSize source then
      String.ofList (Text.takeBytes (r.stop - r.start) (Text.dropBytes r.start source))
    else ""

/-- Puts a row in front of the trees that its rows in preorder are followed by: the first of them are its children. -/
def graft (source : List Char) (r : Row) (rest : Option (List Tree)) : Option (List Tree) := do
  let ts ← rest
  if r.count ≤ ts.length then some (node (r.head source) (ts.take r.count) :: ts.drop r.count) else none

/-- The tree of a text whose nodes are given in preorder. -/
def ofRows? (source : String) (rows : List Row) : Option Tree :=
  match rows.foldr (graft source.toList) (some []) with
  | some [t] => some t
  | _ => none

end Tree

end Disposal

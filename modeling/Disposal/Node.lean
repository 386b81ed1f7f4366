import Disposal.Tree

/-!
# Nodes

A `Node` is a place in the tree of one document: the tree found there together with the way up to the root. Two nodes
are the same when they are the same place; `Node.Id` is what is compared.

* `parent?_of_mem_children`: a node is the parent of its children;
* `walk` lists the nodes below a node in preorder, leaving out what lies below nodes that are not entered.
-/

namespace Disposal

/-- One step up: a tree and the index of the child that the step came from. -/
structure Frame where
  parent : Tree
  index : Nat

/-- A place in the tree of a document. -/
structure Node where
  doc : Nat
  above : List Frame
  here : Tree

namespace Node

/-- The place of a node: its document and the indices on the way up. -/
structure Id where
  doc : Nat
  path : List Nat
  deriving DecidableEq, Repr

def id (n : Node) : Id := ⟨n.doc, n.above.map (·.index)⟩

instance : BEq Node := ⟨fun a b => a.id == b.id⟩

/-- The root of the tree of a document. -/
def root (doc : Nat) (t : Tree) : Node := ⟨doc, [], t⟩

/-! ### Labels -/

def label (n : Node) : Label := n.here.head.label

/-- The kind of a node, if it is one that the analysis knows. -/
def kind? (n : Node) : Option Kind :=
  match n.label with
  | .kind k => some k
  | _ => none

/-- Whether the node has a kind. -/
def is (n : Node) (k : Kind) : Bool := n.label == .kind k

/-- Whether the node has one of some kinds. -/
def isAny (n : Node) (ks : List Kind) : Bool :=
  match n.label with
  | .kind k => ks.contains k
  | _ => false

/-- Whether the node is a token with a text. -/
def isToken (n : Node) (text : String) : Bool := n.label == .token text

def isNamed (n : Node) : Bool := n.label.isNamed

def isTrivia (n : Node) : Bool := n.label.isTrivia

def start (n : Node) : Nat := n.here.head.start

def stop (n : Node) : Nat := n.here.head.stop

/-- The stretch of source that the node covers. -/
def text (n : Node) : String := n.here.head.text

def field? (n : Node) : Option Field := n.here.head.field?

/-- The text between two offsets within the node. -/
def textBetween? (n : Node) (start stop : Nat) : Option String :=
  Text.slice? n.text (start - n.start) (stop - n.start)

/-! ### Downwards -/

/-- The child with an index, as a place. -/
def child (n : Node) (index : Nat) (t : Tree) : Node := ⟨n.doc, ⟨n.here, index⟩ :: n.above, t⟩

/-- All children, tokens included. -/
def children (n : Node) : List Node :=
  n.here.children.zipIdx.map fun (t, i) => n.child i t

/-- The named children other than comments and preprocessor lines. -/
def named (n : Node) : List Node :=
  n.children.filter fun c => c.isNamed && !c.isTrivia

def firstNamed? (n : Node) : Option Node := n.named.head?

def lastNamed? (n : Node) : Option Node := n.named.getLast?

/-- The first child in a field. -/
def field (n : Node) (f : Field) : Option Node :=
  n.children.find? fun c => c.field? == some f

/-- The first named child with one of some kinds. -/
def childOf? (n : Node) (ks : List Kind) : Option Node :=
  n.named.find? (·.isAny ks)

/-- The named children of a kind. -/
def namedOf (n : Node) (k : Kind) : List Node :=
  n.named.filter (·.is k)

mutual

/-- The places of a tree in preorder that are reached by entering only nodes that satisfy `enter`. -/
def walkTree (enter : Node → Bool) (doc : Nat) (above : List Frame) : Tree → List Node
  | .node h cs =>
    let n : Node := ⟨doc, above, .node h cs⟩
    n :: if enter n then walkTrees enter doc (.node h cs) above 0 cs else []

/-- The same for the children of `parent` from the index `i` on. -/
def walkTrees (enter : Node → Bool) (doc : Nat) (parent : Tree) (above : List Frame) (i : Nat) :
    List Tree → List Node
  | [] => []
  | t :: ts => walkTree enter doc (⟨parent, i⟩ :: above) t ++ walkTrees enter doc parent above (i + 1) ts

end

/-- The node and the nodes below it in preorder, leaving out what lies below nodes that are not entered. -/
def walk (n : Node) (enter : Node → Bool) : List Node :=
  walkTree enter n.doc n.above n.here

/-- The node and all nodes below it in preorder. -/
def preorder (n : Node) : List Node :=
  n.walk fun _ => true

/-- Goes on from node to node as long as there is a next one, at most `fuel` times. -/
def followFor (next : Node → Option Node) : Nat → Node → Node
  | 0, n => n
  | fuel + 1, n =>
    match next n with
    | some m => followFor next fuel m
    | none => n

/-- Goes down as long as there is a next child to go to. -/
def follow (n : Node) (next : Node → Option Node) : Node :=
  followFor next n.here.height n

/-! ### Upwards -/

def parent? (n : Node) : Option Node :=
  match n.above with
  | [] => none
  | f :: fs => some ⟨n.doc, fs, f.parent⟩

/-- The places on a way up, nearest first. -/
def placesUp (doc : Nat) : List Frame → List Node
  | [] => []
  | f :: fs => ⟨doc, fs, f.parent⟩ :: placesUp doc fs

/-- The nodes above a node, nearest first. -/
def ancestors (n : Node) : List Node := placesUp n.doc n.above

/-- The nearest node above with one of some kinds. -/
def nearest? (n : Node) (ks : List Kind) : Option Node :=
  n.ancestors.find? (·.isAny ks)

/-- Whether a node lies strictly above another. -/
def isAbove (a n : Node) : Bool := n.ancestors.any (· == a)

/-- Whether the second node is the first or lies below it. -/
def contains (outer inner : Node) : Bool := outer == inner || outer.isAbove inner

theorem parent?_of_mem_children {n c : Node} (h : c ∈ n.children) : c.parent? = some n := by
  simp only [children, List.mem_map] at h
  obtain ⟨⟨t, i⟩, -, rfl⟩ := h
  rfl

theorem doc_of_mem_children {n c : Node} (h : c ∈ n.children) : c.doc = n.doc := by
  simp only [children, List.mem_map] at h
  obtain ⟨⟨t, i⟩, -, rfl⟩ := h
  rfl

/-! ### Numbers -/

/-- The number of nodes that come before the child of a frame within its parent. -/
def numberWithin (f : Frame) : Nat :=
  Tree.sizeAll (f.parent.children.take f.index) + 1

/-- The number of a node in the preorder of its document, from zero. -/
def number (n : Node) : Nat :=
  n.above.foldr (fun f before => numberWithin f + before) 0

end Node

end Disposal

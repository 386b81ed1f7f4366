import Disposal.Node.Declaration
import Disposal.TypeRef

/-!
# Compilations

The documents that are analysed together, and the types that they declare. A type may be declared in several parts;
declarations with one name are parts of one type, except that interfaces and other types are kept apart.
A type can be disposed if a disposable library type is found along its bases.
-/

namespace Disposal

/-- A text with the path under which it is reported, if it has one. -/
structure SourceFile where
  path? : Option String
  text : String
  deriving DecidableEq, Repr

namespace SourceFile

/-- Endings of the names of files that tools write. -/
def generatedEndings : List String :=
  [".g.cs", ".g.i.cs", ".designer.cs", ".generated.cs", ".assemblyattributes.cs"]

/-- Whether a line belongs to the comment with which a file may begin. -/
def isHeaderLine (line : String) : Bool :=
  let cs := Text.trimStart line.toList
  cs.isEmpty || "//".toList.isPrefixOf cs || "/*".toList.isPrefixOf cs || "*".toList.isPrefixOf cs

/-- Whether a file is written by a tool, by its name or by its opening comment. -/
def isGenerated (f : SourceFile) : Bool :=
  (f.path?.any fun path => generatedEndings.any (Text.endsWith · (Text.lower path))) ||
    ((Text.lines f.text).takeWhile isHeaderLine).any fun line =>
      Text.hasInfix "<auto-generated".toList line.toList

end SourceFile

/-- A file with its syntax tree. -/
structure Document extends SourceFile where
  tree : Tree

/-- One declaration of a class, struct, record or interface, numbered in the order of the documents. -/
structure TypeDecl where
  index : Nat
  node : Node
  name : String
  bases : List TypeRef
  isInterface : Bool

namespace TypeDecl

instance : BEq TypeDecl := ⟨fun a b => a.index == b.index⟩

/-- Whether two declarations are parts of one type. -/
def same (a b : TypeDecl) : Bool := a.name == b.name && a.isInterface == b.isInterface

/-- The base types that a declaration lists. -/
def basesOf (n : Node) : List TypeRef :=
  match n.field .bases <|> n.childOf? [.baseList] with
  | some list => (list.named.map TypeRef.ofNode).filter (·.isKnown)
  | none => []

/-- The declaration at a node, if the node names a type. -/
def ofNode? (n : Node) : Option TypeDecl := do
  if n.isTypeDeclaration then
    let name ← n.nameText?
    return ⟨0, n, name, basesOf n, n.is .interfaceDeclaration⟩
  else none

/-- The names of the bases of a declaration. -/
def baseNames (t : TypeDecl) : List String := t.bases.filterMap (·.name?)

end TypeDecl

/-- Documents analysed together, with the types that they declare outside of bodies. -/
structure Compilation where
  documents : List Document
  types : List TypeDecl

namespace Compilation

/-- The roots of the trees of some documents. -/
def rootsOf (documents : List Document) : List Node :=
  documents.zipIdx.map fun (d, i) => Node.root i d.tree

/-- The types declared in a tree outside of bodies. -/
def typesIn (root : Node) : List TypeDecl :=
  (root.walk fun n => !n.isAny [.block, .arrowExpressionClause]).filterMap TypeDecl.ofNode?

/-- Reads off the types of some documents. -/
def ofDocuments (documents : List Document) : Compilation where
  documents := documents
  types := ((rootsOf documents).flatMap typesIn).zipIdx.map fun (t, i) => { t with index := i }

/-- The roots of all trees. -/
def roots (c : Compilation) : List Node := rootsOf c.documents

/-- The number of nodes of all trees. -/
def size (c : Compilation) : Nat := Tree.sizeAll (c.documents.map (·.tree))

/-- The source of the document that a node lies in. -/
def sourceOf (c : Compilation) (n : Node) : String :=
  match c.documents[n.doc]? with
  | some d => d.text
  | none => ""

/-! ### Types -/

/-- The type declared at a node. -/
def typeAt? (c : Compilation) (n : Node) : Option TypeDecl := c.types.find? (·.node == n)

/-- The type that a node lies in. -/
def containingType? (c : Compilation) (n : Node) : Option TypeDecl :=
  (n.nearest? Node.typeDeclarations).bind c.typeAt?

/-- The declarations with a name. -/
def typesNamed (c : Compilation) (name : String) : List TypeDecl := c.types.filter (·.name == name)

/-- The declarations of the same type. -/
def parts (c : Compilation) (t : TypeDecl) : List TypeDecl := (c.typesNamed t.name).filter t.same

/-- The type that a name stands for: rather a class than an interface. -/
def classNamed? (c : Compilation) (name : String) : Option TypeDecl :=
  (c.typesNamed name).find? (!·.isInterface) <|> (c.typesNamed name).head?

/-- The base class of a type that is declared in the compilation. -/
def baseClass? (c : Compilation) (t : TypeDecl) : Option TypeDecl :=
  ((c.parts t).flatMap (·.baseNames)).findSome? fun name =>
    (c.typesNamed name).find? fun b => !b.isInterface && !b.same t

/-- The most lookups that follow each other before an answer is given up. -/
def lookupDepth : Nat := 25

/-- Goes on with a chain of base classes of `t` until it would repeat a type or is long enough. -/
def extendChain (c : Compilation) (t : TypeDecl) : Nat → List TypeDecl → Option TypeDecl → List TypeDecl
  | 0, chain, _ => chain
  | _ + 1, chain, none => chain
  | room + 1, chain, some b =>
    if b.same t || chain.any (·.same b) then chain
    else extendChain c t room (chain ++ [b]) (c.baseClass? b)

/-- The base classes of a type that are declared in the compilation, nearest first. -/
def baseChain (c : Compilation) (t : TypeDecl) : List TypeDecl :=
  extendChain c t lookupDepth [] (c.baseClass? t)

/-- Adds a type to those derived from `t`, if it is one and not there yet. -/
def addDerived (c : Compilation) (t : TypeDecl) (found : List TypeDecl) (d : TypeDecl) : List TypeDecl :=
  if d.same t || found.any (·.same d) then found
  else if (c.baseChain d).any (·.same t) then found ++ [d]
  else found

/-- One declaration of each type that derives from a type. -/
def derivedTypes (c : Compilation) (t : TypeDecl) : List TypeDecl := c.types.foldl (c.addDerived t) []

/-! ### Members -/

/-- The members that one declaration lists. -/
def membersOf (t : TypeDecl) : List Node :=
  match t.node.field .body <|> t.node.childOf? [.declarationList] with
  | some list => list.named
  | none => []

/-- The members of all parts of a type. -/
def members (c : Compilation) (t : TypeDecl) : List Node := (c.parts t).flatMap membersOf

/-- The variables of a field declaration. -/
def fieldVariables (member : Node) : List Node :=
  match member.variableDeclaration? with
  | some list => list.declarators
  | none => []

/-- The fields of a type. -/
def fields (c : Compilation) (t : TypeDecl) : List Node :=
  ((c.members t).filter (·.is .fieldDeclaration)).flatMap fieldVariables

/-- The methods of a type with a name. -/
def methodsNamed (c : Compilation) (t : TypeDecl) (name : String) : List Node :=
  (c.members t).filter fun m => m.is .methodDeclaration && m.nameText? == some name

/-! ### Disposable types -/

/-- Whether a disposable library type is found within some steps along the bases of a name. -/
def isDisposableWithin (c : Compilation) : Nat → String → Bool
  | 0, _ => false
  | steps + 1, name =>
    match c.typesNamed name with
    | [] => (Framework.isDisposable? name).getD false
    | ts => ts.any fun t => t.baseNames.any fun b => b != name && isDisposableWithin c steps b

/-- Whether values of the type with this name can be disposed. -/
def isDisposableName (c : Compilation) (name : String) : Bool := c.isDisposableWithin lookupDepth name

/-- Whether values of a written type can be disposed. -/
def isDisposable (c : Compilation) (t : TypeRef) : Bool := t.name?.any c.isDisposableName

/-- Which parts of a tuple type can be disposed, if any can. -/
def disposableSlots? (c : Compilation) (t : TypeRef) : Option (List Bool) :=
  match t.slots? with
  | some ts => if ts.any c.isDisposable then some (ts.map c.isDisposable) else none
  | none => none

end Compilation

end Disposal

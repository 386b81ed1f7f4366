import Disposal.Framework
import Disposal.Node.Expression

/-!
# Written types

A type as it is written in the source, without namespaces and nullability.
-/

namespace Disposal

/-- A written type. -/
inductive TypeRef where
  /-- `Stream`, `System.IO.Stream`, `Task<int>`. -/
  | named (name : String) (args : List TypeRef)
  | tuple (items : List TypeRef)
  | array (item : TypeRef)
  /-- `var`. -/
  | inferred
  | unknown
  deriving Repr

namespace TypeRef

/-- A type without arguments. -/
def simple (name : String) : TypeRef := named name []

/-! ### Text -/

mutual

/-- A type in the notation of the language. -/
def text : TypeRef → String
  | named name [] => name
  | named name (a :: as) => name ++ "<" ++ texts (a :: as) ++ ">"
  | tuple items => "(" ++ texts items ++ ")"
  | array item => text item ++ "[]"
  | inferred => "var"
  | unknown => "?"

/-- Types separated by commas. -/
def texts : List TypeRef → String
  | [] => ""
  | t :: ts => text t ++ rest ts

/-- The types after the first, each with the comma in front of it. -/
def rest : List TypeRef → String
  | [] => ""
  | t :: ts => ", " ++ text t ++ rest ts

end

/-- Wraps a type into arrays, once for each bracket pair at the end of a reversed name. -/
def ofReversed : List Char → TypeRef
  | ']' :: '[' :: cs => array (ofReversed cs)
  | cs => simple (String.ofList cs.reverse)

/-- Reads the notation of the class library tables: a name with brackets for arrays. -/
def ofText (text : String) : TypeRef := ofReversed text.toList.reverse

/-! ### Syntax -/

/-- Reads a type from the tree, down to `fuel` levels. -/
def read : Nat → Node → TypeRef
  | 0, _ => unknown
  | fuel + 1, n =>
    let inner (n? : Option Node) : TypeRef :=
      match n? with
      | some m => read fuel m
      | none => unknown
    match n.kind? with
    | some .implicitType => inferred
    | some .identifier | some .predefinedType =>
      let word := Text.trim n.text
      if word = "var" then inferred else simple word
    | some .genericName =>
      match n.simpleName? with
      | none => unknown
      | some name =>
        let args := match n.childOf? [.typeArgumentList] with
          | some list => list.named.map (read fuel)
          | none => []
        named name.text args
    | some .qualifiedName | some .aliasQualifiedName => inner n.lastNamed?
    | some .nullableType | some .refType | some .scopedType => inner n.firstNamed?
    | some .arrayType => array (inner n.firstNamed?)
    | some .tupleType => tuple ((n.namedOf .tupleElement).map fun e => inner e.firstNamed?)
    | _ => unknown

/-- The type that a node writes. -/
def ofNode (n : Node) : TypeRef := read n.here.height n

/-! ### Parts -/

def name? : TypeRef → Option String
  | named name _ => some name
  | _ => none

def args : TypeRef → List TypeRef
  | named _ args => args
  | _ => []

def isKnown : TypeRef → Bool
  | inferred | unknown => false
  | _ => true

/-- The types of the parts of `(A, B)`, `Tuple<A, B>` and `ValueTuple<A, B>`. -/
def slots? : TypeRef → Option (List TypeRef)
  | tuple items => some items
  | named name (a :: as) => if name = "Tuple" || name = "ValueTuple" then some (a :: as) else none
  | _ => none

def taskTypes : List String :=
  ["Task", "ValueTask", "ConfiguredTaskAwaitable", "ConfiguredValueTaskAwaitable"]

/-- The type of an awaited task. -/
def awaited? : TypeRef → Option TypeRef
  | named name [a] => if taskTypes.contains name then some a else none
  | _ => none

/-- The type of the elements of an array or a collection. -/
def element? : TypeRef → Option TypeRef
  | array item => some item
  | named name [a] => if Framework.isSequenceType name then some a else none
  | named name [_, b] => if Framework.isDictionaryType name then some b else none
  | _ => none

end TypeRef

end Disposal

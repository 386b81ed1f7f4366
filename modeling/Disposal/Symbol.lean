import Disposal.Compilation

/-!
# Symbols

What a name in a program stands for.
-/

namespace Disposal

/-- What a name stands for; most symbols are told by the node that declares them. -/
inductive Symbol where
  /-- A variable, the declaration of a pattern or `out` argument, or the identifier of a loop or `catch` variable. -/
  | localVar (decl : Node)
  | parameter (decl : Node)
  /-- The `value` of a setter, by the property that has the setter. -/
  | setterValue (owner : Node)
  | field (decl : Node)
  | property (decl : Node)
  /-- A method or a function inside a body. -/
  | method (decl : Node)
  | type (decl : TypeDecl)
  /-- A library type in front of a static member. -/
  | framework (name : String)
  /-- Something declared elsewhere, of which nothing is known. -/
  | external

namespace Symbol

/-- Symbols are equal when they are of one sort and declared at one place; nothing is known to be equal to a symbol
that is declared elsewhere. -/
def same : Symbol → Symbol → Bool
  | localVar a, localVar b => a == b
  | parameter a, parameter b => a == b
  | setterValue a, setterValue b => a == b
  | field a, field b => a == b
  | property a, property b => a == b
  | method a, method b => a == b
  | type a, type b => a == b
  | framework a, framework b => a == b
  | _, _ => false

instance : BEq Symbol := ⟨same⟩

/-- Whether the answer of a look-up is a given symbol. -/
def isAnswer (s : Symbol) (found? : Option Symbol) : Bool :=
  match found? with
  | some found => found == s
  | none => false

/-- The node that declares a symbol. -/
def node? : Symbol → Option Node
  | localVar n | parameter n | setterValue n | field n | property n | method n => some n
  | type _ | framework _ | external => none

/-- The sort and the place of a symbol that is declared by a node. -/
def key? : Symbol → Option (Nat × Node.Id)
  | localVar n => some (0, n.id)
  | parameter n => some (1, n.id)
  | setterValue n => some (2, n.id)
  | field n => some (3, n.id)
  | property n => some (4, n.id)
  | method n => some (5, n.id)
  | type _ | framework _ | external => none

/-- Fields and properties. -/
def isMember : Symbol → Bool
  | field _ | property _ => true
  | _ => false

/-- Locals, fields and properties. -/
def isVariable : Symbol → Bool
  | localVar _ | field _ | property _ => true
  | _ => false

/-- The name of a symbol. -/
def name? : Symbol → Option String
  | localVar n =>
    match n.kind? with
    | some .variableDeclarator => n.nameText?
    | some .declarationExpression | some .declarationPattern => n.lastNamed?.map (·.text)
    | _ => some n.text
  | parameter n => if n.is .identifier then some n.text else n.nameText?
  | setterValue _ => some "value"
  | field n | property n | method n => n.nameText?
  | type t => some t.name
  | framework name => some name
  | external => none

/-- Whether a member belongs to its type rather than to the values of it. -/
def isStatic : Symbol → Bool
  | field n => n.hasModifier "static" || n.hasModifier "const"
  | property n | method n => n.hasModifier "static"
  | _ => false

/-- The type that declares a member. -/
def owner? (c : Compilation) : Symbol → Option TypeDecl
  | field n | property n | method n | setterValue n => c.containingType? n
  | _ => none

end Symbol

end Disposal

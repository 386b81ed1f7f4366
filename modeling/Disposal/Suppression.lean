import Disposal.Lint
import Disposal.Node.Declaration

/-!
# Suppressing attributes

An attribute `[SuppressMessage("Category", "IDISP001:Dispose created")]` on a type or member switches a lint off for
everything inside it.
-/

namespace Disposal.Suppression

/-- The members that can carry a suppression. -/
def members : List Kind :=
  [.methodDeclaration, .constructorDeclaration, .destructorDeclaration, .propertyDeclaration, .fieldDeclaration,
   .eventFieldDeclaration, .indexerDeclaration, .localFunctionStatement]

/-- Whether the text of a string names a lint: by what stands in front of the first colon. -/
def namesLint (literal : String) (lint : Lint) : Bool :=
  let content := Text.dropEndWhile (· = '"') ((literal.toList.dropWhile (· = '@')).dropWhile (· = '"'))
  let code := Text.trim (String.ofList (content.takeWhile (· ≠ ':')))
  code ≠ "" && lint.answersTo code

/-- The strings that an attribute holds. -/
def strings (attr : Node) : List Node :=
  let isString (n : Node) : Bool := n.isAny [.stringLiteral, .verbatimStringLiteral]
  (attr.walk fun n => !isString n).filter isString

/-- Whether a declaration carries a suppression of a lint. -/
def suppresses (decl : Node) (lint : Lint) : Bool :=
  (decl.attributes.filter fun a => a.attributeName? == some "SuppressMessage").any fun a =>
    (strings a).any fun s => namesLint s.text lint

/-- Whether the node is a declaration that can carry a suppression. -/
def isCarrier (n : Node) : Bool := n.isTypeDeclaration || n.isAny members

/-- Whether a lint is suppressed at a node, by a declaration that is or holds it. -/
def isSuppressed (n : Node) (lint : Lint) : Bool :=
  (n :: n.ancestors).any fun a => isCarrier a && suppresses a lint

end Disposal.Suppression

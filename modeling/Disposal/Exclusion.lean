import Disposal.Compilation
import Disposal.Text.Pattern

/-!
# Exclusions

What is never looked at: files whose path matches a pattern, and code that a tool wrote unless it is asked for.
-/

namespace Disposal

/-- The paths that are left out, written with slashes, and whether code that a tool wrote is looked at. -/
structure Exclusion where
  isExcluded : String → Bool := fun _ => false
  analyzeGenerated : Bool := false

namespace Exclusion

/-- Leaves out the paths in which one of some patterns matches. -/
def ofPatterns (patterns : List Pattern) (analyzeGenerated : Bool) : Exclusion where
  isExcluded path := patterns.any (·.matchesIn path)
  analyzeGenerated := analyzeGenerated

/-- A path with slashes in place of backslashes. -/
def normalize (path : String) : String :=
  String.ofList (path.toList.map fun c => if c = '\\' then '/' else c)

/-- Whether a path is left out. -/
def excludesPath (e : Exclusion) (path : String) : Bool := e.isExcluded (normalize path)

/-- Whether a file is left out. -/
def excludesFile (e : Exclusion) (f : SourceFile) : Bool :=
  f.path?.any e.excludesPath || (!e.analyzeGenerated && f.isGenerated)

/-- The members that an attribute can mark as written by a tool. -/
def members : List Kind :=
  [.methodDeclaration, .constructorDeclaration, .propertyDeclaration, .fieldDeclaration, .indexerDeclaration]

/-- Whether a declaration is left out with all that it holds. -/
def excludesDeclaration (e : Exclusion) (n : Node) : Bool :=
  !e.analyzeGenerated && (n.isTypeDeclaration || n.isAny members) &&
    n.attributeNames.any Framework.generatedCodeAttributes.contains

/-- The nodes below a node that are looked at, in preorder. -/
def visible (e : Exclusion) (root : Node) : List Node :=
  let enters (n : Node) : Bool := !e.excludesDeclaration n
  (root.walk enters).filter enters

end Exclusion

end Disposal

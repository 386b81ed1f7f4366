import Disposal.Compilation

/-!
# Test fixtures

A test class makes values in a set-up method and releases them in the clean-up method that goes with it.
-/

namespace Disposal

namespace Node

/-- The clean-up attribute that goes with a set-up attribute of a method. -/
def teardownAttribute? (method : Node) : Option String :=
  method.attributeNames.findSome? Framework.teardownFor?

/-- The set-up method that a node lies in. -/
def enclosingSetup? (n : Node) : Option Node :=
  (n.nearest? [.methodDeclaration]).filter fun method => method.teardownAttribute?.isSome

end Node

/-- The methods of a type and its base classes that clean up after a set-up method. -/
def Compilation.teardownMethods (c : Compilation) (t : TypeDecl) (setup : Node) : List Node :=
  match setup.teardownAttribute? with
  | none => []
  | some wanted =>
    ((t :: c.baseChain t).flatMap c.members).filter fun m =>
      m.is .methodDeclaration && m.attributeNames.contains wanted

end Disposal

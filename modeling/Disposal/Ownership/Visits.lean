import Mathlib.Data.Finset.Basic
import Disposal.Ownership.Classify

/-!
# Owners, found with one set of visited symbols

The walk of `Model.classify?` tells every question which symbols are on the way to it. Here all questions share one set
of them: a method or local is put into the set when it is entered and taken out when it is left, and a part of the walk
hands the set on to the next one.
-/

namespace Disposal

namespace Ownership

/-- The sorts and places of the symbols that are being asked about. -/
abbrev Visited := Finset (Nat × Node.Id)

/-- A part of a walk, which may change the set; it gives nothing when too many questions are nested. -/
abbrev Walk := StateT Visited Option

namespace Walk

/-- Puts a symbol into the set, and tells whether it is new there. -/
def enter (key : Nat × Node.Id) : Walk Bool := fun visited => some (key ∉ visited, insert key visited)

/-- Takes a symbol out of the set. -/
def leave (key : Nat × Node.Id) : Walk Unit := fun visited => some ((), visited.erase key)

/-- A part of the walk inside a symbol; a symbol that is met again inside itself tells nothing. -/
def inside (key : Nat × Node.Id) (body : Walk Verdict) : Walk Verdict := do
  if ← enter key then
    let v ← body
    leave key
    return v
  else
    return none

section

variable (m : Model) (ask : Query → Walk Verdict)

/-- The owner of the value of an optional part of an expression. -/
def ofPart (part? : Option Node) (use : Node) : Walk Verdict :=
  match part? with
  | some part => ask (.value part use)
  | none => return none

/-- The owner of a converted value. -/
def ofConversion (part? : Option Node) (use : Node) : Walk Verdict := do
  let v ← ofPart ask part? use
  return v.map converted

/-- The owner of one of several values, which are asked about one after the other. -/
def ofAny (parts : List Node) (use : Node) : Walk Verdict := do
  let vs ← parts.mapM fun part => ask (.value part use)
  return together vs

/-- The owner of a returned value. -/
def ofReturned (e : Node) : Walk Verdict :=
  if returnsMember m e then return some .cached else ask (.value e e)

/-- The owner of what a method returns. -/
def ofReturns (method : Node) : Walk Verdict :=
  inside (5, method.id) <|
    match method.returnedExpressions with
    | [] => return some .injected
    | es => do
      let vs ← es.mapM (ofReturned m ask)
      return together vs

/-- The owner of a value that is written. -/
def ofWrite (w : Write) : Walk Verdict :=
  match w.value? with
  | some value => ask (.value value w.node)
  | none => return some .injected

/-- The owner of the value of a local where it is used: of one of the values written to it before. -/
def ofLocal (decl use : Node) : Walk Verdict :=
  if decl.is .identifier then return some .injected
  else
    match decl.region? with
    | none => return none
    | some region =>
      if use.inNestedLambda region then return some .injected
      else
        inside (0, decl.id) do
          let writes := m.writes (.localVar decl) (.node region)
          let vs ← (writes.filter fun w => (Order.executedBefore w.node use).isPossible).mapM (ofWrite ask)
          return together vs

/-- The owner of what a computed property returns: a value that its getter does not make is not the caller's. -/
def ofGetter (property : Node) : Walk Verdict := do
  let v ← ask (.returns property.getterBody)
  return v.map fun o =>
    match o with
    | .created => .created
    | .cached => .cached
    | _ => .injected

/-- The owner of what a name stands for. -/
def ofSymbol (expr use : Node) : Walk Verdict :=
  match m.symbol? expr with
  | none => return none
  | some s =>
    match s with
    | .localVar decl => ofLocal m ask decl use
    | .field _ => return some (if s.isStatic then .cached else .injected)
    | .property p =>
      if s.isStatic then return some .cached
      else if p.isStored then return some .injected
      else ofGetter ask p
    | _ => return some .injected

/-- The owner of the result of a call by what it is called on, as far as that decides it. -/
def ofReceiver (call receiver use : Node) (name : String) : Option (Walk Verdict) :=
  if name == "ConfigureAwait" then some (ask (.value receiver use))
  else if Framework.isElementProjection name then some (return some .borrowed)
  else if name == "Create" && ["Tuple", "ValueTuple"].contains receiver.stripParens.text then
    some (ofAny ask (call.arguments.filterMap Node.argumentExpression?) use)
  else
    (m.frameworkCall? call).map fun known => return some (if known.creates then .created else .injected)

/-- The owner of what the called method returns; what other code returns is its own. -/
def ofMethod (call : Node) : Walk Verdict :=
  match m.symbol? call with
  | some (.method method) => ask (.returns method)
  | _ => return some .injected

/-- The owner of the result of a call. -/
def ofCall (call use : Node) : Walk Verdict :=
  match call.invoked? with
  | none => return none
  | some (name, receiver?) =>
    match receiver?.bind fun receiver => ofReceiver m ask call receiver use name.text with
    | some answer => answer
    | none => ofMethod m ask call

/-- The owner of the value of a member access: unwrapping keeps the owner of the wrapper. -/
def ofAccess (access use : Node) : Walk Verdict :=
  if access.memberName?.isNone then return none
  else if access.isUnwrapping then
    match access.memberReceiver? with
    | none => return none
    | some receiver => do
      match ← ask (.value receiver use) with
      | some o => return some o
      | none => ofSymbol m ask access use
  else ofSymbol m ask access use

/-- The owner of the value of an operation with two operands. -/
def ofOperation (e use : Node) : Walk Verdict :=
  match e.binaryOperator? with
  | some "as" => ofConversion ask e.firstNamed? use
  | some "??" => ofAny ask (e.firstNamed?.toList ++ e.lastNamed?.toList) use
  | _ => return none

/-- The owner of the value of an expression. -/
def ofExpression (expr use : Node) : Walk Verdict :=
  let e := expr.stripParens
  match e.kind? with
  | some .objectCreationExpression | some .implicitObjectCreationExpression => return some .created
  | some .castExpression => ofConversion ask e.lastNamed? use
  | some .asExpression => ofConversion ask e.firstNamed? use
  | some .binaryExpression => ofOperation ask e use
  | some .postfixUnaryExpression | some .awaitExpression => ofPart ask e.firstNamed? use
  | some .conditionalExpression => ofAny ask e.branches use
  | some .switchExpression => ofAny ask e.armValues use
  | some .assignmentExpression => ofPart ask e.lastNamed? use
  | some .elementAccessExpression => return some .injected
  | some .tupleExpression => ofAny ask (Model.tupleElements e) use
  | some .invocationExpression => ofCall m ask e use
  | some .memberAccessExpression => ofAccess m ask e use
  | some .identifier | some .genericName | some .memberBindingExpression | some .conditionalAccessExpression =>
    ofSymbol m ask e use
  | some .thisExpression | some .baseExpression => return some .injected
  | _ => return none

/-- Answers one question, leaving to `ask` those that it leads to. -/
def answer : Query → Walk Verdict
  | .value expr use => ofExpression m ask expr use
  | .returns method => ofReturns m ask method

end

/-- Answers a question by so many nested ones at most. -/
def answerWithin (m : Model) : Nat → Query → Walk Verdict
  | 0, _ => failure
  | depth + 1, query => answer m (answerWithin m depth) query

end Walk

end Ownership

end Disposal

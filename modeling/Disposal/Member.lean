import Disposal.Fixture
import Disposal.Protocol

/-!
# Members that own a value

`Model.requiresDisposal` says that a type owns what one of its fields or properties holds, and
`Model.isMemberDisposed` that its dispose methods, or the clean-up methods of a test class, release it.
-/

namespace Disposal

namespace Model

/-- The type of a member, if it is disposable or a tuple with a disposable part. -/
def disposableMemberType? (m : Model) (member : Symbol) : Option TypeRef :=
  (m.declaredType? member).filter fun t =>
    m.compilation.isDisposable t || (m.compilation.disposableSlots? t).isSome

/-- Members in which a value is stored: fields, and properties without bodies. -/
def isStorage : Symbol → Bool
  | .field _ => true
  | .property p => p.isAutoProperty
  | _ => false

/-- Whether a write may store a value that the type does not own. -/
def writesForeign (m : Model) (w : Write) : Bool :=
  match w.value? with
  | none => true
  | some value =>
    match m.classify? value with
    | some .injected | some .cached => true
    | _ => false

/-- Whether a write stores a fresh value. -/
def writesCreated (m : Model) (w : Write) : Bool :=
  match w.value? with
  | some value => m.classify? value == some .created
  | none => false

/-- Whether a type has to release what a member holds: a fresh value is stored in it, and never another's. -/
def requiresDisposal (m : Model) (member : Symbol) : Bool :=
  isStorage member && !member.isStatic && (m.disposableMemberType? member).isSome &&
    match Scope.ofSymbol? m.compilation member with
    | none => false
    | some scope =>
      let ws := m.writes member scope
      !ws.any m.writesForeign && ws.any m.writesCreated

/-! ### What releases a member -/

/-- The member that a computed property returns, if that is all it does. -/
def returnedMember? (m : Model) (property : Node) : Option Symbol :=
  match property.getterBody.returnedExpressions with
  | [e] => (m.symbol? e).filter (·.isMember)
  | _ => none

/-- A member and the members that stand for the same value. -/
def aliases (m : Model) (member : Symbol) : List Symbol :=
  member ::
    match member with
    | .property p => if p.isAutoProperty then [] else (m.returnedMember? p).toList
    | .field _ =>
      match member.owner? m.compilation with
      | none => []
      | some owner =>
        ((m.compilation.members owner).filter fun p =>
          p.is .propertyDeclaration && !p.isAutoProperty && member.isAnswer (m.returnedMember? p)).map .property
    | _ => []

/-- How many locals are looked through to find what is released. -/
def aliasDepth : Nat := 5

/-- Whether an expression reads one of some members, directly or through the locals set from them. -/
def readsWithin (m : Model) (members : List Symbol) : Nat → Node → Bool
  | 0, _ => false
  | depth + 1, expr =>
    match m.symbol? expr.stripConversions with
    | none => false
    | some s =>
      members.contains s ||
        match s with
        | .localVar d => d.is .variableDeclarator && d.initializer?.any (readsWithin m members depth)
        | _ => false

/-- Whether an expression reads one of some members. -/
def readsMember (m : Model) (members : List Symbol) (expr : Node) : Bool := m.readsWithin members aliasDepth expr

/-- What of a member a call releases: all of it, or one part of a tuple. -/
inductive Released where
  | whole
  | slot (index : Nat)
  deriving DecidableEq, Repr

/-- The part of a tuple that an expression reads from one of some members. -/
def slotRead? (m : Model) (members : List Symbol) (e : Node) : Option Nat := do
  if e.is .memberAccessExpression then
    let slot ← tupleSlot? (← e.memberName?).text
    if e.memberReceiver?.any (m.readsMember members) then some slot else none
  else none

/-- Whether an expression exchanges one of some members for another value. -/
def exchangesMember (m : Model) (members : List Symbol) (e : Node) : Bool :=
  e.is .invocationExpression && e.invoked?.any (·.1.text == "Exchange") &&
    (e.arguments.head?.bind Node.argumentExpression?).any (m.readsMember members)

/-- What of some members is released when the value of an expression is. -/
def releasedBy? (m : Model) (members : List Symbol) (receiver : Node) : Option Released :=
  let e := receiver.stripConversions
  match m.slotRead? members e with
  | some slot => some (.slot slot)
  | none => if m.readsMember members e || m.exchangesMember members e then some .whole else none

/-- What of some members the dispose calls of a body release. -/
def releases (m : Model) (members : List Symbol) (body : Node) : List Released :=
  (body.outsideLambdas.filterMap Node.disposeReceiver?).filterMap (m.releasedBy? members)

/-- The helper that a call calls: a method of the compilation that is not a dispose method. -/
def helper? (m : Model) (call : Node) : Option Node := do
  if call.is .invocationExpression && call.disposeReceiver?.isNone then
    match ← m.symbol? call with
    | .method h => if (DisposeKind.of? h).isNone then some h else none
    | _ => none
  else none

/-- The helpers that a body calls. -/
def helpers (m : Model) (body : Node) : List Node := body.outsideLambdas.filterMap m.helper?

/-- Whether all that has to be released of a member is: every disposable part of a tuple, or the whole. -/
def isComplete (slots? : Option (List Bool)) (released : List Released) : Bool :=
  match slots? with
  | some slots => slots.zipIdx.all fun (disposable, i) => !disposable || released.contains (.slot i)
  | none => released.contains .whole

/-- What is looked for in a body: what it releases, and the helpers that it calls. -/
structure Scanner where
  releases : Node → List Released
  helpers : Node → List Node

/-- What a scan has come to: the helpers that it has entered, and what is released so far. -/
structure Scan where
  entered : List Node
  released : List Released

namespace Scan

def start : Scan := ⟨[], []⟩

/-- Enters a helper that has not been entered before. -/
def enter (go : Scan → List Node → Scan) (s : Scan) (helper : Node) : Scan :=
  if s.entered.any (· == helper) then s else go { s with entered := helper :: s.entered } helper.body?.toList

end Scan

namespace Scanner

/-- Notes what a body releases, then enters the helpers that it calls. -/
def scanBody (sc : Scanner) (go : Scan → List Node → Scan) (s : Scan) (body : Node) : Scan :=
  (sc.helpers body).foldl (Scan.enter go) { s with released := s.released ++ sc.releases body }

/-- Scans some bodies and the helpers that they lead to, one within the other so many deep. -/
def scan (sc : Scanner) : Nat → Scan → List Node → Scan
  | 0, s, _ => s
  | depth + 1, s, bodies => bodies.foldl (sc.scanBody (sc.scan depth)) s

/-- Scans one group of bodies after the other until all that has to be released is. -/
def completes (sc : Scanner) (depth : Nat) (slots? : Option (List Bool)) : Scan → List (List Node) → Bool
  | _, [] => false
  | s, bodies :: groups =>
    let s := sc.scan depth s bodies
    isComplete slots? s.released || sc.completes depth slots? s groups

end Scanner

/-- The scanner for what is released of some members. -/
def scanner (m : Model) (members : List Symbol) : Scanner := ⟨m.releases members, m.helpers⟩

/-- The clean-up methods that go with the set-up methods that write a member. -/
def teardowns (m : Model) (owner : TypeDecl) (member : Symbol) : List Node :=
  match Scope.ofSymbol? m.compilation member with
  | none => []
  | some scope =>
    ((m.writes member scope).filterMap fun w => w.node.enclosingSetup?).flatMap
      (m.compilation.teardownMethods owner)

/-- The bodies in which a member of a type can be released: those of each dispose method, then those of each clean-up
method. -/
def releasingBodies (m : Model) (owner : TypeDecl) (member : Symbol) : List (List Node) :=
  (m.compilation.protocolMethods owner).map m.releaseScope ++ (m.teardowns owner member).map (·.body?.toList)

/-- The parts of a member that can be disposed, if its type is a tuple with such parts. -/
def memberSlots? (m : Model) (member : Symbol) : Option (List Bool) :=
  (m.declaredType? member).bind m.compilation.disposableSlots?

/-- Whether a member is released by the dispose methods of its type, or by the clean-up of a test class. -/
def isMemberDisposed (m : Model) (member : Symbol) : Bool :=
  match member.owner? m.compilation with
  | none => false
  | some owner =>
    (m.scanner (m.aliases member)).completes m.limit (m.memberSlots? member) .start (m.releasingBodies owner member)

end Model

end Disposal

import Disposal.Protocol

/-!
# Released before

Whether a variable is released before it is assigned again, by a call or by the setter of the property that it is.
-/

namespace Disposal

namespace Node

/-- The dispose calls of a region with what they release, without conversions around it. -/
def disposals (region : Node) : List (Node × Node) :=
  region.ofRegion.filterMap fun n => n.disposeReceiver?.map fun r => (n, r.stripConversions)

end Node

namespace Model

/-- The field that the setter of a property stores its value in, and the assignment. -/
def setterBackingField? (m : Model) (property : Node) : Option (Symbol × Node) := do
  let body ← (← property.setter?).body?
  body.outsideLambdas.findSome? fun n => do
    let a ← n.assignment?
    if a.operator == "=" && a.right.stripParens.text == "value" then
      match m.symbol? a.left.stripParens with
      | some (.field f) => some (.field f, n)
      | _ => none
    else none

/-- Whether the setter of a property releases the field that it overwrites. -/
def setterDisposes (m : Model) (property : Node) : Bool :=
  match m.setterBackingField? property with
  | none => false
  | some (field, write) =>
    match field.name?, write.region? with
    | some name, some region =>
      region.disposals.any fun (call, receiver) =>
        m.refersTo receiver field name && (Order.executedBefore call write).isPossible
    | _, _ => false

/-- Whether, after a call, the variable is certainly written before a place. -/
def reassigned (writes : List Write) (call place : Node) : Bool :=
  writes.any fun w =>
    !(w.node == place) && (Order.executedBefore call w.node).isAlways && (Order.executedBefore w.node place).isAlways

/-- Whether a call of the region may release a variable before a place, and the variable is not written in between. -/
def releasedByCall (m : Model) (s : Symbol) (name : String) (region place : Node) : Bool :=
  let writes := m.writes s (.node region)
  region.disposals.any fun (call, receiver) =>
    (Order.executedBefore call place).isPossible && m.refersTo receiver s name && !reassigned writes call place

/-- Whether the value of a variable may be released before a place. -/
def disposedBefore (m : Model) (s : Symbol) (place : Node) : Bool :=
  match place.region?, s.name? with
  | some region, some name =>
    m.releasedByCall s name region place ||
      match s with
      | .property p => m.setterDisposes p
      | _ => false
  | _, _ => false

end Model

end Disposal

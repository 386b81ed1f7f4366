/-!
# Owners

Who has to dispose a value. When several values can be meant, the weakest claim to own the value counts.
-/

namespace Disposal

/-- Who owns a value. -/
inductive Ownership where
  /-- A fresh value, owned by the code that made it. -/
  | created
  /-- Another name for a value that has an owner. -/
  | borrowed
  /-- Handed in from outside, where its owner is. -/
  | injected
  /-- Kept in a shared place and possibly handed out again. -/
  | cached
  deriving DecidableEq, Repr

namespace Ownership

def text : Ownership → String
  | created => "created"
  | borrowed => "borrowed"
  | injected => "injected"
  | cached => "cached"

def all : List Ownership := [created, borrowed, injected, cached]

def ofText? (word : String) : Option Ownership := all.find? (·.text == word)

/-- The owner of one of some values, if there is any value: the value is created only if all of them are. -/
def combine (values : List Ownership) : Option Ownership :=
  if values.contains cached then some cached
  else if values.contains injected then some injected
  else if values.contains borrowed then some borrowed
  else values.head?

/-- The owner of a value behind a conversion: what is neither fresh nor shared is another name. -/
def converted : Ownership → Ownership
  | created => created
  | cached => cached
  | _ => borrowed

end Ownership

end Disposal

/-!
# Values of a configuration

What can be written in a configuration, before it is known to make sense.
-/

namespace Disposal

/-- A value as it is written. -/
inductive Value where
  | null
  | boolean (b : Bool)
  | integer (n : Int)
  | text (s : String)
  | list (vs : List Value)
  | table (entries : List (String × Value))
  deriving Inhabited

namespace Value

def boolean? : Value → Option Bool
  | boolean b => some b
  | _ => none

def text? : Value → Option String
  | text s => some s
  | _ => none

/-- The texts of a list that holds nothing else. -/
def texts? : Value → Option (List String)
  | list vs => vs.mapM text?
  | _ => none

/-- The fields of a value that has fields with some names. They are given by name, or in order as a list; each may
be left out, and there are no others. With `surplus`, what a list holds beyond its fields is passed over. -/
def fields? (surplus : Bool) (names : List String) : Value → Option (List (String × Value))
  | table entries => if entries.all fun e => names.contains e.1 then some entries else none
  | list vs => if surplus || vs.length ≤ names.length then some (names.zip vs) else none
  | _ => none

end Value

/-- Reads a field that may be left out. -/
def readField? {α : Type} (fields : List (String × Value)) (name : String) (missing : α)
    (read : Value → Option α) : Option α :=
  match fields.lookup name with
  | some v => read v
  | none => some missing

end Disposal

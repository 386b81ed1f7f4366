import Disposal.Config.Value

/-!
# Tables under construction

The entries of a TOML document come one by one, and the tables between them arise on the way: by a header of their
own, as part of the header of another table, or as part of a dotted key. Where a table comes from decides what may
still be added to it; nothing is defined twice.
-/

namespace Disposal.Toml

/-- Where a table comes from. -/
inductive Origin where
  | header
  | implied
  | dotted
  deriving DecidableEq, Repr

/-- What has been read: the entries, the tables that may still grow, and the table that entries now go to. -/
structure Draft where
  entries : List (String × Value) := []
  origins : List (List String × Origin) := []
  current : List String := []

/-- The value at a path. -/
def lookup? : List String → List (String × Value) → Option Value
  | [], entries => some (.table entries)
  | key :: keys, entries =>
    match entries.lookup key, keys with
    | some v, [] => some v
    | some (.table inner), keys => lookup? keys inner
    | _, _ => none

/-- The entries with a value put at a path where there is none; tables on the way are made. -/
def insert (v : Value) : List String → List (String × Value) → List (String × Value)
  | [], entries => entries
  | [key], entries => entries ++ [(key, v)]
  | key :: keys, entries =>
    match entries.lookup key with
    | some (.table inner) =>
      entries.map fun e => if e.1 = key then (key, .table (insert v keys inner)) else e
    | _ => entries ++ [(key, .table (insert v keys []))]

namespace Draft

/-- Whether there is something at a path. -/
def has (d : Draft) (path : List String) : Bool := (lookup? path d.entries).isSome

/-- Where the table at a path comes from, if there is one that may grow. -/
def origin? (d : Draft) (path : List String) : Option Origin := d.origins.lookup path

/-- The paths that lead from `base` along some keys to the table that the last key lies in. -/
def tablesOn (base keys : List String) : List (List String) :=
  (List.range (keys.length - 1)).map fun i => base ++ keys.take (i + 1)

/-- Makes the tables at the paths that do not have one. -/
def reserve (d : Draft) (origin : Origin) (paths : List (List String)) : Draft :=
  { d with origins := (paths.filter fun p => !d.has p).map (·, origin) ++ d.origins }

/-- Starts the table of a header. -/
def enter? (d : Draft) (keys : List String) : Option Draft :=
  let above := tablesOn [] keys
  if above.any fun p => d.has p && (d.origin? p).isNone then none
  else
    let opened := { d.reserve .implied above with current := keys }
    if !d.has keys then
      some { opened with entries := insert (.table []) keys opened.entries
                         origins := (keys, .header) :: opened.origins }
    else if d.origin? keys = some .implied then some { opened with origins := (keys, .header) :: opened.origins }
    else none

/-- Whether dotted keys may lead through a table. -/
def isPassable (d : Draft) (path : List String) : Bool :=
  !d.has path || d.origin? path = some .implied || d.origin? path = some .dotted

/-- Whether a dotted key may put an entry into a table. -/
def isExtensible (d : Draft) (path : List String) : Bool := !d.has path || d.origin? path = some .dotted

/-- Puts a value under keys in the current table. -/
def define? (d : Draft) (keys : List String) (v : Value) : Option Draft :=
  let between := tablesOn d.current keys
  if d.has (d.current ++ keys) then none
  else if between.all d.isPassable && between.getLast?.all d.isExtensible then
    some { d.reserve .dotted between with entries := insert v (d.current ++ keys) d.entries }
  else none

end Draft

end Disposal.Toml

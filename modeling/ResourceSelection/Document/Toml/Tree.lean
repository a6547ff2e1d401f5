import ResourceSelection.Document.Value

/-!
# Building tables

A document names each table in one of three ways: by a header, by a key with several parts, or as
a value. The three may not be mixed freely, so while a document is read every table remembers how
it came about. A table that was only passed through on the way to another is `implicit`, and may
still get a header of its own. One made by the parts of a key is `dotted`, and may only get more
entries in that way.
-/

namespace ResourceSelection.Document.Toml

/-- What stands under a name while a document is read. -/
inductive Node where
  /-- A value, complete as it is. -/
  | leaf (v : Value)
  /-- A table, with how it came about. -/
  | table (implicit dotted : Bool) (entries : List (String × Node))
  /-- The tables under a repeated header, in reverse order. -/
  | series (latest : List Node)

/-- The entries of a table that is being read. -/
abbrev Entries := List (String × Node)

mutual

/-- The value that a finished node stands for. -/
def Node.value : Node → Value
  | .leaf v => v
  | .table _ _ entries => .table (entryValues entries)
  | .series latest => .list (nodeValues latest).reverse

/-- The values of entries. -/
def entryValues : List (String × Node) → List (String × Value)
  | [] => []
  | (name, node) :: rest => (name, node.value) :: entryValues rest

/-- The values of nodes. -/
def nodeValues : List Node → List Value
  | [] => []
  | node :: rest => node.value :: nodeValues rest

end

/-- The entries with one of a name replaced, or added if there is none. -/
def Entries.put (entries : Entries) (name : String) (node : Node) : Entries :=
  if entries.any (·.1 = name) then
    entries.map fun entry => if entry.1 = name then (name, node) else entry
  else entries ++ [(name, node)]

/-- Changes the table at the end of a path, making tables on the way where there are none. The path
of a key may only go through tables made by keys or passed through; the path of a header goes
through every table, and through the latest of a series. `change` is told whether the table at the
end is dotted. -/
def within (byKey : Bool) (change : Bool → Entries → Option Entries) :
    List String → Bool → Entries → Option Entries
  | [], dotted, entries => change dotted entries
  | name :: path, _, entries =>
    let into := fun (implicit dotted : Bool) (inner : Entries) =>
      (within byKey change path dotted inner).map (Node.table implicit dotted)
    let node := match entries.lookup name with
      | none => into true byKey []
      | some (.table implicit dotted inner) =>
        if byKey && !implicit then none else into implicit dotted inner
      | some (.series (.table implicit dotted inner :: others)) =>
        (into implicit dotted inner).map fun latest => .series (latest :: others)
      | some _ => none
    node.map (entries.put name)

/-- Puts a value under a key into a table. The last part of the key must be new. A table that was
not made by keys cannot be extended through the parts of a key. -/
def insert (key : List String) (v : Value) (entries : Entries) : Option Entries :=
  let path := key.dropLast
  let add := fun (dotted : Bool) (inner : Entries) =>
    match key.getLast? with
    | none => none
    | some name =>
      if dotted = path.isEmpty || inner.any (·.1 = name) then none
      else some (inner ++ [(name, .leaf v)])
  within true add path false entries

/-- What the table at the end of a path holds. -/
def held : List String → Entries → Entries
  | [], entries => entries
  | name :: path, entries =>
    match entries.lookup name with
    | some (.table _ _ inner) => held path inner
    | some (.series (.table _ _ inner :: _)) => held path inner
    | _ => []

/-- A document part way through: what is complete, and the table that lines are read into. -/
structure Draft where
  /-- Everything before the last header. -/
  root : Entries
  current : Entries
  /-- The path of the last header, empty before the first. -/
  path : List String
  /-- Whether the last header is one of a series. -/
  repeated : Bool

namespace Draft

/-- Nothing read yet. -/
def start : Draft := ⟨[], [], [], false⟩

/-- Puts the table under the last header in its place. -/
def finish (d : Draft) : Option Entries :=
  match d.path.getLast? with
  | none => some d.current
  | some name =>
    let table := Node.table false false d.current
    let place := fun (_ : Bool) (inner : Entries) =>
      if d.repeated then
        match inner.lookup name with
        | none => some (inner.put name (.series [table]))
        | some (.series others) => some (inner.put name (.series (table :: others)))
        | some _ => none
      else some (inner.put name table)
    within false place d.path.dropLast false d.root

/-- Starts the table of a header. Only a table that was passed through before may get its header
now. It keeps what it holds, and stands where its header does. -/
def header (path : List String) (d : Draft) : Option Draft := do
  let root ← d.finish
  let name ← path.getLast?
  let take := fun (_ : Bool) (inner : Entries) =>
    match inner.lookup name with
    | none => some inner
    | some (.table true false _) => some (inner.filter (·.1 ≠ name))
    | some _ => none
  let above ← within false take path.dropLast false root
  return ⟨above, held path root, path, false⟩

/-- Starts another table of a series. -/
def repeatedHeader (path : List String) (d : Draft) : Option Draft := do
  let root ← d.finish
  let name ← path.getLast?
  let find := fun (_ : Bool) (inner : Entries) =>
    match inner.lookup name with
    | none => some inner
    | some (.series _) => some inner
    | some _ => none
  let root ← within false find path.dropLast false root
  return ⟨root, [], path, true⟩

/-- Reads an entry into the current table. -/
def entry (key : List String) (v : Value) (d : Draft) : Option Draft :=
  (insert key v d.current).map fun current => { d with current }

end Draft

end ResourceSelection.Document.Toml

import CodeFix.Data.Basic

/-!
# Tables of a TOML document

A document fills a tree of tables. How a table came about decides what may still be added to it: a
header defines a table once, a dotted key may extend only tables that dotted keys made, and a value,
an inline table included, is closed. A path through an array of tables means its last table.

Every function answers nothing if the document breaks one of these rules.
-/

namespace CodeFix.Toml

/-- How a table came about. -/
inductive Origin where
  /-- By a header that names it. -/
  | header
  /-- As a step of the path of a header. -/
  | step
  /-- As a step of a dotted key. -/
  | dotted
deriving DecidableEq, Repr

mutual

/-- A table under construction. -/
structure Table where
  origin : Origin
  entries : List (String × Entry)

/-- What a table holds under a name. -/
inductive Entry where
  | value (d : Data)
  | table (t : Table)
  /-- An array of tables: the earlier tables and the last one. -/
  | tables (earlier : List Table) (last : Table)

end

namespace Table

def empty (origin : Origin) : Table := ⟨origin, []⟩

/-- What the table holds under a name. -/
def get? (t : Table) (name : String) : Option Entry := t.entries.lookup name

/-- Puts an entry in the place of the one with the same name, or behind all entries. -/
def set (t : Table) (name : String) (e : Entry) : Table :=
  if (t.get? name).isSome then
    { t with entries := t.entries.map fun p ↦ if p.1 == name then (p.1, e) else p }
  else { t with entries := t.entries ++ [(name, e)] }

/-- Changes the table at the end of a path. Tables that are missing on the way are made. Dotted keys
do not pass through tables that a header defined. -/
def changeAt (dotted : Bool) (change : Table → Option Table) : List String → Table → Option Table
  | [], t => change t
  | name :: path, t =>
    match t.get? name with
    | none => do
      let inner ← changeAt dotted change path (empty (if dotted then .dotted else .step))
      return t.set name (.table inner)
    | some (.value _) => none
    | some (.tables earlier last) => do
      return t.set name (.tables earlier (← changeAt dotted change path last))
    | some (.table inner) =>
      if dotted && inner.origin == .header then none
      else do return t.set name (.table (← changeAt dotted change path inner))

/-- Adds a value under a key, which must be new. The last table on the way must have been made by a
dotted key if, and only if, the key is dotted. -/
def addValue (path : List String) (name : String) (d : Data) (t : Table) : Option Table :=
  t.changeAt true
    (fun inner ↦
      if (inner.origin == .dotted) == path.isEmpty || (inner.get? name).isSome then none
      else some (inner.set name (.value d)))
    path

/-- Defines the table of a header. A step of an earlier header's path may be defined once. -/
def openTable (path : List String) (name : String) (root : Table) : Option Table :=
  root.changeAt false
    (fun parent ↦
      match parent.get? name with
      | none => some (parent.set name (.table (empty .header)))
      | some (.table t) =>
        if t.origin == .step then some (parent.set name (.table { t with origin := .header }))
        else none
      | some _ => none)
    path

/-- Adds a table to the array of tables of a header. -/
def appendTable (path : List String) (name : String) (root : Table) : Option Table :=
  root.changeAt false
    (fun parent ↦
      match parent.get? name with
      | none => some (parent.set name (.tables [] (empty .header)))
      | some (.tables earlier last) =>
        some (parent.set name (.tables (earlier ++ [last]) (empty .header)))
      | some _ => none)
    path

end Table

mutual

/-- The data of a table. -/
def Table.toData : Table → Data
  | ⟨_, entries⟩ => .record (Table.entriesData entries)
termination_by structural t => t

def Table.entriesData : List (String × Entry) → List (String × Data)
  | [] => []
  | p :: rest => Table.entryData p :: Table.entriesData rest
termination_by structural es => es

def Table.entryData : String × Entry → String × Data
  | (name, e) => (name, Entry.toData e)
termination_by structural p => p

def Entry.toData : Entry → Data
  | .value d => d
  | .table t => t.toData
  | .tables earlier last => .list (Table.toDataAll earlier ++ [last.toData])
termination_by structural e => e

def Table.toDataAll : List Table → List Data
  | [] => []
  | t :: ts => t.toData :: Table.toDataAll ts
termination_by structural ts => ts

end

end CodeFix.Toml

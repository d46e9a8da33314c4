/-!
# TOML values

Tables remember how they came to be, because that decides what may still be added to
them: each name in a document is given a value once.
-/
namespace YamlLayout.Toml

/-- How a table came to be. -/
inductive Origin where
  /-- It is the document, or a header names it. -/
  | header
  /-- A header names a table inside it. -/
  | implied
  /-- A dotted key leads through it. -/
  | dotted
  /-- It is written between braces. -/
  | inline
deriving Repr, DecidableEq, Inhabited

/-- A value of a document. Of numbers with a fraction and of moments in time only the
kind is kept. -/
inductive Value where
  | text (value : String)
  | integer (value : Int)
  | float
  | boolean (value : Bool)
  | dateTime
  | array (items : List Value)
  /-- Tables that headers in double brackets open, one after the other. -/
  | tables (items : List Value)
  | table (origin : Origin) (entries : List (String × Value))
deriving Repr, Inhabited

structure Table where
  origin : Origin
  entries : List (String × Value)
deriving Repr, Inhabited

namespace Table

def value (t : Table) : Value := .table t.origin t.entries

def get? (t : Table) (key : String) : Option Value := t.entries.lookup key

/-- Gives a key a value, in the place of its earlier value if it has one. -/
def put (t : Table) (key : String) (value : Value) : Table :=
  if (t.get? key).isSome then
    { t with entries := t.entries.map fun entry => if entry.1 == key then (key, value) else entry }
  else { t with entries := t.entries ++ [(key, value)] }

/-- Gives a new key a value. -/
def insertNew? (t : Table) (key : String) (value : Value) : Option Table :=
  if (t.get? key).isSome then none else some (t.put key value)

/-- Changes the table that a path leads to. Missing tables on the way are made, with
the given origin. A header leads through every table but an inline one, a dotted key
only through those that no header names; both go to the last of an array of tables. -/
def alter? (made : Origin) (change : Table → Option Table) : List String → Table → Option Table
  | [], t => change t
  | key :: path, t =>
    let within (child : Table) : Option Table := alter? made change path child
    match t.get? key with
    | none => do
      let child ← within ⟨made, []⟩
      t.put key child.value
    | some (.table origin entries) =>
      if origin == .inline || (made == .dotted && origin == .header) then none
      else do
        let child ← within ⟨origin, entries⟩
        t.put key child.value
    | some (.tables items) =>
      match items.getLast? with
      | some (.table origin entries) => do
        let child ← within ⟨origin, entries⟩
        t.put key (.tables (items.dropLast ++ [child.value]))
      | _ => none
    | some _ => none

/-- Assigns a value to a key, which may be dotted. A table takes dotted keys only if a
dotted key made it, and plain keys only if none did. -/
def assign? (t : Table) (path : List String) (key : String) (value : Value) : Option Table :=
  t.alter? .dotted (fun parent =>
    if (parent.origin == .dotted) == path.isEmpty then none else parent.insertNew? key value) path

/-- Opens the table that a header names, unless it is there already for another reason
than a header of a table inside it. -/
def openTable? (t : Table) (path : List String) (key : String) : Option Table :=
  t.alter? .implied (fun parent =>
    match parent.get? key with
    | none => some (parent.put key (.table .header []))
    | some (.table .implied entries) => some (parent.put key (.table .header entries))
    | some _ => none) path

/-- Opens the next table of the array that a header in double brackets names. -/
def openItem? (t : Table) (path : List String) (key : String) : Option Table :=
  t.alter? .implied (fun parent =>
    match parent.get? key with
    | none => some (parent.put key (.tables [.table .header []]))
    | some (.tables items) => some (parent.put key (.tables (items ++ [.table .header []])))
    | some _ => none) path

end Table

end YamlLayout.Toml

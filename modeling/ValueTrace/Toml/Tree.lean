import ValueTrace.Toml.Basic

/-!
# Tables in the making

While a document is read, each table remembers how it came about, since that decides what may still
be added to it: a header opens a table once, a dotted key adds only to tables that dotted keys have
made, and what is written in braces is complete.
-/

namespace ValueTrace.Toml

/-- How a table came about. -/
inductive TableKind where
  /-- A header names it. -/
  | opened
  /-- A longer header passes through it. -/
  | passed
  /-- A dotted key passes through it. -/
  | dotted
  deriving DecidableEq, Repr

/-- What stands at a key while a document is read. -/
inductive Tree where
  | value (v : Toml)
  | table (kind : TableKind) (entries : List (String × Tree))
  /-- The tables of an array that headers fill, latest first. -/
  | tables (latest : List (String × Tree)) (before : List (List (String × Tree)))
  deriving Inhabited

namespace Tree

/-- The entries of a table. -/
abbrev Entries := List (String × Tree)

def valueAt? (es : Entries) (key : String) : Option Tree := (es.find? (·.1 == key)).map (·.2)

def put (es : Entries) (key : String) (t : Tree) : Entries :=
  match es with
  | [] => [(key, t)]
  | (k, u) :: rest => if k == key then (k, t) :: rest else (k, u) :: put rest key t

mutual

def finish : Tree → Toml
  | .value v => v
  | .table _ es => .table (finishEntries es)
  | .tables latest before => .array ((finishAll before).reverse ++ [.table (finishEntries latest)])

def finishEntries : List (String × Tree) → List (String × Toml)
  | [] => []
  | (k, t) :: rest => (k, finish t) :: finishEntries rest

def finishAll : List (List (String × Tree)) → List Toml
  | [] => []
  | es :: rest => .table (finishEntries es) :: finishAll rest

end

/-- Add a value below a dotted key. Tables that the key makes or passes may not have been opened by
a header, save as the latest of an array, and the last one has to be made by dotted keys. -/
def assign (es : Entries) (v : Toml) : List String → Option Entries
  | [] => none
  | [key] => if (valueAt? es key).isSome then none else some (put es key (.value v))
  | key :: rest =>
    match valueAt? es key with
    | none => do return put es key (.table .dotted (← assign [] v rest))
    | some (.table .dotted inner) => do return put es key (.table .dotted (← assign inner v rest))
    | some (.table .passed inner) =>
      if rest.length == 1 then none
      else do return put es key (.table .passed (← assign inner v rest))
    | some (.tables latest before) =>
      if rest.length == 1 then none
      else do return put es key (.tables (← assign latest v rest) before)
    | _ => none

/-- Open a table at a path below the given entries. -/
def openTable (es : Entries) : List String → Option Entries
  | [] => none
  | [key] =>
    match valueAt? es key with
    | none => some (put es key (.table .opened []))
    | some (.table .passed inner) => some (put es key (.table .opened inner))
    | _ => none
  | key :: rest =>
    match valueAt? es key with
    | none => do return put es key (.table .passed (← openTable [] rest))
    | some (.table kind inner) => do return put es key (.table kind (← openTable inner rest))
    | some (.tables latest before) => do
      return put es key (.tables (← openTable latest rest) before)
    | _ => none

/-- Add a table to the array at a path. -/
def openItem (es : Entries) : List String → Option Entries
  | [] => none
  | [key] =>
    match valueAt? es key with
    | none => some (put es key (.tables [] []))
    | some (.tables latest before) => some (put es key (.tables [] (latest :: before)))
    | _ => none
  | key :: rest =>
    match valueAt? es key with
    | none => do return put es key (.table .passed (← openItem [] rest))
    | some (.table kind inner) => do return put es key (.table kind (← openItem inner rest))
    | some (.tables latest before) => do return put es key (.tables (← openItem latest rest) before)
    | _ => none

/-- Add a value below a dotted key to the table at a path that has been opened. -/
def assignAt (es : Entries) (key : List String) (v : Toml) : List String → Option Entries
  | [] => assign es v key
  | step :: rest =>
    match valueAt? es step with
    | some (.table kind inner) => do return put es step (.table kind (← assignAt inner key v rest))
    | some (.tables latest before) => do
      return put es step (.tables (← assignAt latest key v rest) before)
    | _ => none

end Tree

end ValueTrace.Toml

import ValueTrace.Toml.Moment

/-!
# TOML documents

A document is a table. Numbers with a fraction are kept as they are written. A numeral without a
value does no harm where nobody looks at it, so it is a value of its own; whoever takes a table for
a record looks at all that the table holds.
-/

namespace ValueTrace

/-- A TOML value. The keys of a table are distinct. -/
inductive Toml where
  | string (s : String)
  | integer (n : Int)
  | float (written : String)
  | boolean (b : Bool)
  | moment (m : Moment)
  | array (items : List Toml)
  | table (entries : List (String × Toml))
  /-- A numeral that stands for no number, or for one that is too large. -/
  | malformed (written : String)
  deriving Inhabited

namespace Toml

mutual

def isSound : Toml → Bool
  | .array items => areSound items
  | .table entries => entriesSound entries
  | .malformed _ => false
  | _ => true

def areSound : List Toml → Bool
  | [] => true
  | v :: rest => isSound v && areSound rest

def entriesSound : List (String × Toml) → Bool
  | [] => true
  | (_, v) :: rest => isSound v && entriesSound rest

end

def valueAt? (entries : List (String × Toml)) (key : String) : Option Toml :=
  (entries.find? (·.1 == key)).map (·.2)

def string? : Toml → Option String
  | .string s => some s
  | _ => none

def boolean? : Toml → Option Bool
  | .boolean b => some b
  | _ => none

def natBelow? (bound : Nat) : Toml → Option Nat
  | .integer (.ofNat n) => if n < bound then some n else none
  | _ => none

def list? (f : Toml → Option α) : Toml → Option (List α)
  | .array items => items.mapM f
  | _ => none

def toEntries? : Toml → Option (List (String × Toml))
  | .table entries => some entries
  | .moment m => some [("moment", .string m.text)]
  | _ => none

def entries? (f : Toml → Option α) (v : Toml) : Option (List (String × α)) := do
  (← v.toEntries?).mapM fun (k, v) => (f v).map (k, ·)

/-- The fields of a record, each of them missing or given. A record is an array with the fields in
order, and what is more than that is passed over; or it is a table, and what it holds beside the
fields has to be sound. -/
def fields? (names : List String) : Toml → Option (List (Option Toml))
  | .array items =>
    some ((items.take names.length).map some ++ List.replicate (names.length - items.length) none)
  | v => do
    let entries ← v.toEntries?
    if entries.all fun (k, v) => names.contains k || v.isSound then
      some (names.map (valueAt? entries))
    else none

def orDefault? (default : α) (f : Toml → Option α) : Option Toml → Option α
  | some v => f v
  | none => some default

end Toml

end ValueTrace

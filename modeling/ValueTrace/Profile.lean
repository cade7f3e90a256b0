import Std.Data.TreeMap
import ValueTrace.Bytecode.Op
import ValueTrace.Json.Double
import ValueTrace.Text

/-! How often each operation has been executed. -/

namespace ValueTrace

/-- The number `m · 2 ^ q` with so many places after the point. A tie goes to the even digit. -/
def Decimal.fixed (places m : Nat) (q : Int) : String :=
  let num := m * Nat.pow 10 places * Nat.pow 2 q.toNat
  let den := Nat.pow 2 (-q).toNat
  let n := num / den
  let rest := num % den
  let n := if den < 2 * rest ∨ (2 * rest = den ∧ n % 2 = 1) then n + 1 else n
  let ds := Nat.toDigits 10 n
  let ds := List.replicate (places + 1 - ds.length) '0' ++ ds
  String.ofList (ds.take (ds.length - places) ++ '.' :: ds.drop (ds.length - places))

/-- Counts of operations by their names. Nothing is counted while the profile is off. -/
structure Profile where
  enabled : Bool := false
  counts : Std.TreeMap String Nat := ∅
  deriving Inhabited

namespace Profile

def record (p : Profile) (op : Op) : Profile :=
  if p.enabled then
    { p with counts := p.counts.insert op.mnemonic (p.counts.getD op.mnemonic 0 + 1) }
  else p

def reset (p : Profile) : Profile := { p with counts := ∅ }

def total (p : Profile) : Nat := p.counts.values.foldl (· + ·) 0

def results (p : Profile) : List (String × Nat) :=
  p.counts.toList.mergeSort fun a b => b.2 ≤ a.2

def percent (part whole : Nat) : String :=
  if whole == 0 then "0.00"
  else
    let (_, m, q, _) := Numeral.parts (part.toFloat / whole.toFloat * 100.0)
    Decimal.fixed 2 m q

/-- The twenty greatest counts as a table. -/
def report (p : Profile) : String :=
  let total := p.total
  let head := Text.padRight 25 "Opcode" ++ " " ++ Text.padLeft 12 "Count" ++ " " ++
    Text.padLeft 10 "Percent"
  let rows := (p.results.take 20).zipIdx.map fun ((name, count), i) =>
    Text.padLeft 2 (Nat.repr (i + 1)) ++ ". " ++ Text.padRight 22 name ++ " " ++
      Text.padLeft 12 (Nat.repr count) ++ " " ++ Text.padLeft 9 (percent count total) ++ "%"
  let lines := ["=== Opcode Profile ===", s!"Total opcodes executed: {total}", head,
    String.ofList (List.replicate 50 '-')] ++ rows ++ [String.ofList (List.replicate 50 '=')]
  lines.foldl (fun s l => s ++ l ++ "\n") ""

end Profile

end ValueTrace

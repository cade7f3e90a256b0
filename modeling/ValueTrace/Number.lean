/-!
# Numbers

The bounds of machine words are written out, so that they compute and compare as they stand. Of the
decimal digits of a binary number the fewest that read back to it are found. All comparisons are
exact: the number `m · 2 ^ q` and the ends of the interval that rounds to it are scaled to integers.
-/

namespace ValueTrace.Word

def bound32 : Nat := 4294967296

def bound64 : Nat := 18446744073709551616

def half64 : Nat := 9223372036854775808

def bound128 : Nat := 340282366920938463463374607431768211456

def half128 : Nat := 170141183460469231731687303715884105728

def low32 (n : Nat) : Nat := n % bound32

def holds (n : Int) : Bool := -half64 ≤ n && n < half64

end ValueTrace.Word

namespace ValueTrace.Decimal

/-- The number `digits · 10 ^ exponent`. -/
structure Scaled where
  digits : Nat
  exponent : Int
  deriving DecidableEq, Repr

/-- The integers `(low, value, high)` and the scale `s` with `m · 2 ^ q = value / s`, where `low /
s` and `high / s` are the ends of the interval of reals that round to it. Below a power of two the
interval is half as wide. -/
structure Interval where
  low : Nat
  value : Nat
  high : Nat
  scale : Nat
  closed : Bool
  deriving DecidableEq, Repr

/-- The interval of `m · 2 ^ q`. It holds its ends when `m` is even. -/
def interval (m : Nat) (q : Int) (narrow : Bool) : Interval :=
  let up := Nat.pow 2 q.toNat
  let down := Nat.pow 2 (-q).toNat
  { low := (4 * m - if narrow then 1 else 2) * up
    value := 4 * m * up
    high := (4 * m + 2) * up
    scale := 4 * down
    closed := m % 2 == 0 }

def Interval.holds (i : Interval) (n : Nat) (e : Int) : Bool :=
  let x := n * Nat.pow 10 e.toNat * i.scale
  let by10 := Nat.pow 10 (-e).toNat
  if i.closed then i.low * by10 ≤ x && x ≤ i.high * by10
  else i.low * by10 < x && x < i.high * by10

/-- The neighbour of the interval's number on the grid of multiples of `10 ^ e` that lies in the
interval and is nearer. Of two equally near ones the even one is taken. -/
def Interval.onGrid? (i : Interval) (e : Int) : Option Nat :=
  let unit := Nat.pow 10 e.toNat * i.scale
  let x := i.value * Nat.pow 10 (-e).toNat
  let below := x / unit
  let rest := x - below * unit
  let above := below + 1
  match i.holds below e && 0 < below, i.holds above e with
  | true, true =>
    if 2 * rest < unit || (2 * rest == unit && below % 2 == 0) then some below else some above
  | true, false => some below
  | false, true => some above
  | false, false => none

def Scaled.strip (s : Scaled) : Nat → Scaled
  | 0 => s
  | n + 1 =>
    if s.digits % 10 == 0 && s.digits != 0 then
      Scaled.strip ⟨s.digits / 10, s.exponent + 1⟩ n
    else s

/-- The number of digits before the point of `value / scale`, negative if the fraction starts with
zeros. -/
def Interval.magnitude (i : Interval) : Int :=
  if i.scale ≤ i.value then ((Nat.toDigits 10 (i.value / i.scale)).length : Int)
  else
    -- the least `k` with `value · 10 ^ k ≥ scale` is off by at most one from the digit counts
    let k := (Nat.toDigits 10 i.scale).length - (Nat.toDigits 10 i.value).length
    if i.scale ≤ i.value * Nat.pow 10 k then 1 - (k : Int) else -(k : Int)

def Interval.search (i : Interval) (e : Int) : Nat → Scaled
  | 0 => ⟨i.value / i.scale, 0⟩
  | n + 1 =>
    match i.onGrid? e with
    | some d => ⟨d, e⟩
    | none => i.search (e - 1) n

def shortest (m : Nat) (q : Int) (narrow : Bool) : Scaled :=
  let i := interval m q narrow
  (i.search (i.magnitude - 1) 20).strip 20

end ValueTrace.Decimal

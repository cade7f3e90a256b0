import ValueTrace.Json.Basic
import ValueTrace.Number

/-! Numerals and binary floating point. A numeral is read by scaling its leading digits in double
precision, and written with the fewest digits that determine the number. -/

namespace ValueTrace.Numeral

def significandBound : Nat := Word.bound64

def takeLeading (significand : Nat) : List Char → Nat × Nat
  | [] => (significand, 0)
  | d :: ds =>
    let next := 10 * significand + (d.toNat - 48)
    if next < significandBound then takeLeading next ds else (significand, ds.length + 1)

/-- Divide by `10 ^ k` in steps that a double can hold. Four steps take every 64-bit number to
zero. -/
def scaleDown (f : Float) : Nat → Nat → Float
  | 0, _ => 0.0
  | steps + 1, k =>
    if k ≤ 308 then f / Float.ofScientific 1 false k
    else scaleDown (f / Float.ofScientific 1 false 308) steps (k - 308)

/-- The number `significand · 10 ^ e`, or `none` if it is too large. -/
def scale? (significand : Nat) (e : Int) : Option Float :=
  let f := significand.toFloat
  if e < 0 then some (scaleDown f 4 e.natAbs)
  else if significand == 0 then some 0.0
  else if e ≤ 308 then
    let g := f * Float.ofScientific 1 false e.natAbs
    if g.isInf then none else some g
  else none

/-- The double that a numeral stands for, or `none` if it is too large. -/
def toFloat? : Numeral → Option Float
  | .whole negative n =>
    let (s, dropped) := takeLeading 0 (Nat.toDigits 10 n)
    (scale? s dropped).map fun f => if negative then -f else f
  | .decimal negative ds fs e =>
    let (s, dropped) := takeLeading 0 ds
    let (s, left) := takeLeading s fs
    let places : Int := fs.length - left
    (scale? s (dropped - places + e)).map fun f => if negative then -f else f

/-- The integer that a numeral stands for: written without point and exponent, not as `-0`, and
held by 64 bits, signed if negative. -/
def toInt? : Numeral → Option Int
  | .whole false n => if n < Word.bound64 then some n else none
  | .whole true n => if 0 < n ∧ n ≤ Word.half64 then some (-n) else none
  | .decimal .. => none

def mantissaCount : Nat := 4503599627370496

/-- The sign, the mantissa, the exponent and the narrow-interval flag of a finite double. -/
def parts (f : Float) : Bool × Nat × Int × Bool :=
  let bits : Nat := f.toBits.toNat
  let fraction : Nat := bits % mantissaCount
  let biased : Nat := bits / mantissaCount % 2048
  let negative := bits / Word.half64 == 1
  if biased == 0 then (negative, fraction, -1074, false)
  else (negative, mantissaCount + fraction, (biased : Int) - 1075, fraction == 0 && 1 < biased)

/-- How decimals are laid out: the point is written in place while the number of digits before it
is above `least` and at most `most`; beyond, an exponent is written. -/
structure Layout where
  least : Int
  most : Int

def Layout.json : Layout := ⟨-5, 16⟩

/-- Lay out `digits · 10 ^ e`. A whole number keeps one zero after the point. -/
def Layout.numeral (l : Layout) (negative : Bool) (s : Decimal.Scaled) : Numeral :=
  let ds := (Nat.repr s.digits).toList
  let point : Int := ds.length + s.exponent
  if l.least < point ∧ point ≤ l.most then
    if 0 ≤ s.exponent then
      .decimal negative (ds ++ List.replicate s.exponent.natAbs '0') ['0'] 0
    else if 0 < point then .decimal negative (ds.take point.natAbs) (ds.drop point.natAbs) 0
    else .decimal negative ['0'] (List.replicate point.natAbs '0' ++ ds) 0
  else .decimal negative (ds.take 1) (ds.drop 1) (point - 1)

def ofFloat (f : Float) : Numeral :=
  let (negative, m, q, narrow) := parts f
  if m == 0 then .decimal negative ['0'] ['0'] 0
  else Layout.json.numeral negative (Decimal.shortest m q narrow)

end ValueTrace.Numeral

namespace ValueTrace.Json

def float (f : Float) : Json :=
  if f.isFinite then .number (.ofFloat f) else .null

end ValueTrace.Json

/-! Dates and times of day, and the text that stands for them. -/

namespace ValueTrace

/-- A calendar date. -/
structure Date where
  year : Nat
  month : Nat
  day : Nat
  deriving DecidableEq, Repr

/-- A time of day. The sixtieth second is a leap second. -/
structure TimeOfDay where
  hour : Nat
  minute : Nat
  second : Nat := 0
  nanosecond : Nat := 0
  deriving DecidableEq, Repr

/-- The distance of a local time from universal time. -/
inductive Offset where
  | universal
  | minutes (n : Int)
  deriving DecidableEq, Repr

/-- A date, a time of day, or both with or without an offset. -/
inductive Moment where
  | date (d : Date)
  | time (t : TimeOfDay)
  | both (d : Date) (t : TimeOfDay) (offset : Option Offset)
  deriving DecidableEq, Repr

namespace Moment

def fixedDigits? (count : Nat) (cs : List Char) : Option (Nat × List Char) :=
  let ds := cs.take count
  if ds.length == count && ds.all Char.isDigit then
    some (ds.foldl (fun n d => 10 * n + (d.toNat - 48)) 0, cs.drop count)
  else none

def daysOf (year month : Nat) : Nat :=
  if month == 2 then
    if year % 4 == 0 && (year % 100 != 0 || year % 400 == 0) then 29 else 28
  else if month == 4 || month == 6 || month == 9 || month == 11 then 30
  else 31

/-- A calendar date and what follows. -/
def readDate (cs : List Char) : Option (Date × List Char) := do
  let (year, cs) ← fixedDigits? 4 cs
  let '-' :: cs := cs | none
  let (month, cs) ← fixedDigits? 2 cs
  let '-' :: cs := cs | none
  let (day, cs) ← fixedDigits? 2 cs
  if 1 ≤ month ∧ month ≤ 12 ∧ 1 ≤ day ∧ day ≤ daysOf year month then
    some (⟨year, month, day⟩, cs)
  else none

def nanoseconds (ds : List Char) : Nat :=
  let ds := ds.take 9
  ds.foldl (fun n d => 10 * n + (d.toNat - 48)) 0 * Nat.pow 10 (9 - ds.length)

/-- A time of day and what follows. Seconds and their fraction may be left out. -/
def readTime (cs : List Char) : Option (TimeOfDay × List Char) := do
  let (hour, cs) ← fixedDigits? 2 cs
  let ':' :: cs := cs | none
  let (minute, cs) ← fixedDigits? 2 cs
  if 24 ≤ hour ∨ 60 ≤ minute then none
  match cs with
  | ':' :: cs => do
    let (second, cs) ← fixedDigits? 2 cs
    if 61 ≤ second then none
    match cs with
    | '.' :: cs =>
      match cs.takeWhile Char.isDigit with
      | [] => none
      | ds => some (⟨hour, minute, second, nanoseconds ds⟩, cs.dropWhile Char.isDigit)
    | cs => some (⟨hour, minute, second, 0⟩, cs)
  | cs => some (⟨hour, minute, 0, 0⟩, cs)

/-- The offset that ends a moment. -/
def offset? : List Char → Option Offset
  | ['Z'] | ['z'] => some .universal
  | sign :: cs => do
    if sign != '+' && sign != '-' then none
    let (hour, cs) ← fixedDigits? 2 cs
    let ':' :: cs := cs | none
    let (minute, []) ← fixedDigits? 2 cs | none
    if 24 ≤ hour ∨ 60 ≤ minute then none
    let n : Int := 60 * hour + minute
    some (.minutes (if sign == '-' then -n else n))
  | [] => none

/-- The moment that a text writes. A blank may stand between date and time. -/
def read? (cs : List Char) : Option Moment :=
  match readDate cs with
  | some (d, []) => some (.date d)
  | some (d, c :: rest) => do
    if c != 'T' && c != 't' && c != ' ' then none
    match ← readTime rest with
    | (t, []) => some (.both d t none)
    | (t, rest) => (offset? rest).map fun o => .both d t (some o)
  | none =>
    match readTime cs with
    | some (t, []) => some (.time t)
    | _ => none

def padded (width n : Nat) : List Char := (Nat.toDigits 10 n).leftpad width '0'

def dateText (d : Date) : List Char :=
  padded 4 d.year ++ '-' :: padded 2 d.month ++ '-' :: padded 2 d.day

/-- The text of a time of day. A fraction is written if it is not zero, without zeros at its
end. -/
def timeText (t : TimeOfDay) : List Char :=
  let whole := padded 2 t.hour ++ ':' :: padded 2 t.minute ++ ':' :: padded 2 t.second
  if t.nanosecond == 0 then whole
  else whole ++ '.' :: ((padded 9 t.nanosecond).reverse.dropWhile (· == '0')).reverse

def offsetText : Offset → List Char
  | .universal => ['Z']
  | .minutes n =>
    (if n < 0 then '-' else '+') :: padded 2 (n.natAbs / 60) ++ ':' :: padded 2 (n.natAbs % 60)

def text : Moment → String
  | .date d => String.ofList (dateText d)
  | .time t => String.ofList (timeText t)
  | .both d t o =>
    String.ofList (dateText d ++ 'T' :: timeText t ++ (o.map offsetText).getD [])

end Moment

end ValueTrace

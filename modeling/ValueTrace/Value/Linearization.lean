/-!
# Linearisations

The order in which a class and those it inherits from are searched. It is merged from the
linearisations of the bases and the list of the bases: the next class is the first one that heads
one of these sequences and is not behind the head of any.
-/

namespace ValueTrace

namespace Linearization

variable [BEq α]

def head? (ss : List (List α)) : Option α :=
  (ss.filterMap (·.head?)).find? fun a => ss.all fun s => !s.tail.contains a

def dropHead (a : α) : List α → List α
  | [] => []
  | b :: s => if b == a then s else b :: s

/-- Merge sequences into one that respects the order of each. The first argument bounds the length
of the answer. -/
def mergeWithin : Nat → List (List α) → Option (List α)
  | 0, _ => some []
  | n + 1, ss =>
    if ss.all (·.isEmpty) then some []
    else do
      let a ← head? ss
      return a :: (← mergeWithin n (ss.map (dropHead a)))

def merge (ss : List (List α)) : Option (List α) := mergeWithin ss.flatten.length ss

end Linearization

/-- The linearisation of a class with bases, given theirs. There is none when the orders contradict
each other. -/
def linearize [BEq α] (cls : α) (bases : List α) (linearizations : List (List α)) :
    Option (List α) :=
  (Linearization.merge (linearizations ++ [bases])).map (cls :: ·)

end ValueTrace

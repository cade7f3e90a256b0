import ValueTrace.Bytecode.Code

/-! Keys of literals. Literals share a key when there is to be one object for them: numbers by their
bits, tuples by their items, and code by the place where it stands. -/

namespace ValueTrace

def textKey (s : String) : List Nat := s.length :: s.toList.map Char.toNat

def intKey : Int → Nat
  | .ofNat n => 2 * n
  | .negSucc n => 2 * n + 1

mutual

/-- The key of a literal at a place. -/
def Constant.key (place : List Nat) : Constant → List Nat
  | .none => [0]
  | .bool b => [1, b.toNat]
  | .int n => [2, intKey n]
  | .float f => [3, f.toBits.toNat]
  | .complex re im => [4, re.toBits.toNat, im.toBits.toNat]
  | .str s => 5 :: textKey s
  | .unicode s => 6 :: textKey s
  | .bytes bs => 7 :: bs.length :: bs.map UInt8.toNat
  | .ellipsis => [8]
  | .tuple items => 9 :: items.length :: Constant.keys place 0 items
  | .code _ => 10 :: place.length :: place

def Constant.keys (place : List Nat) (i : Nat) : List Constant → List Nat
  | [] => []
  | c :: cs => Constant.key (place ++ [i]) c ++ Constant.keys place (i + 1) cs

end

end ValueTrace

/-!
Powers of two, which measure words and mantissas, and powers of ten, which measure decimal places.
-/

namespace TwinLisp

def twoTo (n : Nat) : Nat := Nat.pow 2 n

def tenTo (n : Nat) : Nat := Nat.pow 10 n

theorem twoTo_succ (n : Nat) : twoTo (n + 1) = twoTo n * 2 := rfl

theorem tenTo_succ (n : Nat) : tenTo (n + 1) = tenTo n * 10 := rfl

theorem twoTo_pos : (n : Nat) → 0 < twoTo n
  | 0 => Nat.one_pos
  | n + 1 => Nat.mul_pos (twoTo_pos n) (by decide)

theorem tenTo_pos : (n : Nat) → 0 < tenTo n
  | 0 => Nat.one_pos
  | n + 1 => Nat.mul_pos (tenTo_pos n) (by decide)

end TwinLisp

/-!
# Factorials

The factorial is multiplied out by halves, so that large factors meet large factors.
-/

namespace ProcessorSymmetry

/-- The product of the `count` numbers that follow `low`. -/
def risingProduct (low : Nat) : Nat → Nat
  | 0 => 1
  | count + 1 => risingProduct low count * (low + count + 1)

theorem risingProduct_add (low a b : Nat) :
    risingProduct low (a + b) = risingProduct low a * risingProduct (low + a) b := by
  induction b with
  | zero => simp [risingProduct]
  | succ b ih => simp [risingProduct, ← Nat.add_assoc, ih, Nat.mul_assoc]

/-- The same product, multiplied out by halves down to the given depth. -/
def risingProductByHalves : Nat → Nat → Nat → Nat
  | 0, low, count => risingProduct low count
  | depth + 1, low, count =>
    risingProductByHalves depth low (count / 2) *
      risingProductByHalves depth (low + count / 2) (count - count / 2)

theorem risingProductByHalves_eq (depth low count : Nat) :
    risingProductByHalves depth low count = risingProduct low count := by
  induction depth generalizing low count with
  | zero => rfl
  | succ depth ih =>
    rw [risingProductByHalves, ih, ih, ← risingProduct_add,
      Nat.add_sub_cancel' (Nat.div_le_self count 2)]

/-- The number of arrangements of `n` things. -/
def factorial (n : Nat) : Nat :=
  risingProductByHalves n.log2 0 n

theorem factorial_zero : factorial 0 = 1 := by
  rw [factorial, risingProductByHalves_eq, risingProduct]

theorem factorial_succ (n : Nat) : factorial (n + 1) = (n + 1) * factorial n := by
  simp [factorial, risingProductByHalves_eq, risingProduct, Nat.mul_comm]

end ProcessorSymmetry

import ProcessorSymmetry.Perm.Basic

/-!
# Permutations across degrees

A permutation can be moved along the points of a larger domain and made to act on blocks of points.
-/

namespace ProcessorSymmetry
namespace Perm

variable {m n : Nat}

/-- First `p`, then `q`, refused if they have different degrees. -/
def compose (p : Perm m) (q : Perm n) : Except Error (Perm m) :=
  if h : n = m then .ok (p * h ▸ q) else .error (.degreeMismatch m n)

/-- The permutation read at the degree `m`, if that is its degree. -/
def ofDegree? (m : Nat) (p : Perm n) : Option (Perm m) :=
  if h : n = m then some (h ▸ p) else none

/-- `p` moved up by `offset` points. -/
def shift (p : Perm m) (offset n : Nat) (h : offset + m ≤ n) : Perm n :=
  let move : Perm m → Nat → Nat := fun q x => if offset ≤ x then offset + q (x - offset) else x
  have hlt : ∀ (q : Perm m) (x : Nat), x < n → move q x < n := by
    intro q x hx
    simp only [move]
    split
    · by_cases hm : x - offset < m
      · have := q.app_lt hm
        omega
      · rw [q.app_of_le (Nat.not_lt.mp hm)]
        omega
    · exact hx
  have hinv : ∀ (q r : Perm m) (x : Nat), (∀ y, r (q y) = y) → move r (move q x) = x := by
    intro q r x hqr
    by_cases hx : offset ≤ x
    · simp [move, hx, hqr]
    · simp [move, hx]
  ofFn (move p) (move p⁻¹) (hlt p) (hlt p⁻¹) (fun x _ => hinv p p⁻¹ x p.inv_app_app)
    (fun x _ => hinv p⁻¹ p x p.app_inv_app)

theorem shift_app (p : Perm m) {offset n x : Nat} (h : offset + m ≤ n) (hx : x < n) :
    p.shift offset n h x = if offset ≤ x then offset + p (x - offset) else x :=
  ofFn_app hx

/-- `p` moved up by `offset` points of `0..n`, refused if there is no room for it. -/
def shifted (p : Perm m) (offset n : Nat) : Except Error (Perm n) :=
  if h : offset + m ≤ n then .ok (p.shift offset n h) else .error (.degreeMismatch n (offset + m))

/-- `p` on the larger domain `0..n`, fixing all new points. -/
def extended (p : Perm m) (n : Nat) : Except Error (Perm n) :=
  p.shifted 0 n

/-- `p` acting on blocks of `size` points, keeping the place of a point within its block. -/
def blocks (p : Perm m) (size : Nat) : Perm (m * size) :=
  let move : Perm m → Nat → Nat := fun q x => q (x / size) * size + x % size
  have hlt : ∀ (q : Perm m) (x : Nat), x < m * size → move q x < m * size := by
    intro q x hx
    have hsize : 0 < size := Nat.pos_of_ne_zero (by rintro rfl; simp at hx)
    have hq : q (x / size) < m := q.app_lt ((Nat.div_lt_iff_lt_mul hsize).mpr hx)
    have hmod : x % size < size := Nat.mod_lt x hsize
    have hle : (q (x / size) + 1) * size ≤ m * size := Nat.mul_le_mul_right size hq
    rw [Nat.add_mul] at hle
    simp only [move]
    omega
  have hinv : ∀ (q r : Perm m) (x : Nat), (∀ y, r (q y) = y) → x < m * size →
      move r (move q x) = x := by
    intro q r x hqr hx
    have hsize : 0 < size := Nat.pos_of_ne_zero (by rintro rfl; simp at hx)
    have hmod : x % size < size := Nat.mod_lt x hsize
    have hdiv : (q (x / size) * size + x % size) / size = q (x / size) := by
      rw [Nat.mul_comm, Nat.mul_add_div hsize, Nat.div_eq_of_lt hmod, Nat.add_zero]
    have hrem : (q (x / size) * size + x % size) % size = x % size := by
      rw [Nat.mul_comm, Nat.mul_add_mod, Nat.mod_mod]
    simp only [move]
    rw [hdiv, hrem, hqr, Nat.mul_comm]
    exact Nat.div_add_mod x size
  ofFn (move p) (move p⁻¹) (hlt p) (hlt p⁻¹) (fun x hx => hinv p p⁻¹ x p.inv_app_app hx)
    (fun x hx => hinv p⁻¹ p x p.app_inv_app hx)

theorem blocks_app (p : Perm m) {size x : Nat} (hx : x < m * size) :
    p.blocks size x = p (x / size) * size + x % size :=
  ofFn_app hx

end Perm
end ProcessorSymmetry

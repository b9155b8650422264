import ProcessorSymmetry.Group.Basic

/-!
# Groups on larger domains

A group extended by fixed points, the product of groups that act side by side, and the wreath
product that permutes copies of a domain as wholes and acts inside each copy.
-/

namespace ProcessorSymmetry

namespace PermGroup

/-- The same group on a larger domain, fixing all new points. -/
def extended (G : PermGroup) (degree : Nat) : Except Error PermGroup := do
  let generators ← G.generators.mapM fun g => g.extended degree
  return generatedBy generators

/-- The sum of the degrees. -/
def totalDegree : List PermGroup → Nat
  | [] => 0
  | G :: rest => G.degree + totalDegree rest

/-- The generators of groups that act side by side from `offset` on. -/
def sideBySide (degree offset : Nat) :
    (groups : List PermGroup) → offset + totalDegree groups ≤ degree → List (Perm degree)
  | [], _ => []
  | G :: rest, h =>
    have hG : offset + G.degree ≤ degree := by
      rw [totalDegree] at h
      omega
    have hrest : offset + G.degree + totalDegree rest ≤ degree := by
      rw [totalDegree] at h
      omega
    G.generators.map (·.shift offset degree hG) ++
      sideBySide degree (offset + G.degree) rest hrest

/-- The direct product of groups, acting on the disjoint union of their domains in order. -/
def directProduct (groups : List PermGroup) : PermGroup :=
  generatedBy (sideBySide (totalDegree groups) 0 groups (Nat.le_of_eq (Nat.zero_add _)))

/-- A permutation acting on one of several blocks of points. -/
def onBlock {size : Nat} (p : Perm size) {count : Nat} (block : Fin count) :
    Perm (count * size) :=
  p.shift (block * size) (count * size) (by
    have := Nat.mul_le_mul_right size (Nat.succ_le_of_lt block.isLt)
    rwa [Nat.succ_mul] at this)

/-- The wreath product: `K` permutes blocks of `H.degree` points, and `H` acts on each block. Point
`block * H.degree + place` is the given place of the block. -/
def wreathProduct (H K : PermGroup) : PermGroup :=
  generatedBy ((H.generators.flatMap fun g => (List.finRange K.degree).map (onBlock g)) ++
    K.generators.map (·.blocks H.degree))

end PermGroup
end ProcessorSymmetry

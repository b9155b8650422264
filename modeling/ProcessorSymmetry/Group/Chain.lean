import ProcessorSymmetry.Group.Level

/-!
# Stabilizer chains

A chain is a list of levels. In a chain of a group each level belongs to the subgroup that fixes
the base points of all levels before it, so a permutation is a member exactly if it can be taken
back to the identity level by level.
-/

namespace ProcessorSymmetry

/-- A list of levels, the whole group first. -/
structure Chain (n : Nat) where
  levels : List (Level n)
  deriving DecidableEq

namespace Chain

variable {n : Nat}

/-- Takes a permutation back through the levels as far as possible. Answers what is left of it and
how many levels were passed. -/
def siftThrough : List (Level n) → Perm n → Perm n × Nat
  | [], p => (p, 0)
  | level :: deeper, p =>
    match level.takeBack? p with
    | none => (p, 0)
    | some q =>
      let (residue, passed) := siftThrough deeper q
      (residue, passed + 1)

/-- Takes a permutation back through all levels of the chain. -/
def sift (c : Chain n) (p : Perm n) : Perm n × Nat :=
  siftThrough c.levels p

/-- A permutation is a member if nothing is left of it after all levels. -/
def contains (c : Chain n) (p : Perm n) : Bool :=
  let (residue, passed) := c.sift p
  passed == c.levels.length && residue.isIdentity

/-- The product of the orbit lengths. -/
def orderOf (levels : List (Level n)) : Nat :=
  (levels.map Level.orbitLength).foldr (· * ·) 1

/-- The number of members. -/
def order (c : Chain n) : Nat :=
  orderOf c.levels

/-- The base points of all levels. -/
def base (c : Chain n) : List Nat :=
  c.levels.map Level.base

/-- Generators of the whole group. -/
def strongGenerators (c : Chain n) : List (Perm n) :=
  match c.levels with
  | [] => []
  | level :: _ => level.generators

/-- The product of the representatives of one orbit point per level, deepest level first. Levels
and points are paired as far as both go. -/
def elementThrough? : List (Level n) → List Nat → Option (Perm n)
  | level :: deeper, x :: points => do
    let u ← level.representative? x
    let q ← elementThrough? deeper points
    return q * u
  | _, _ => some 1

/-- The member that belongs to one orbit point per level. -/
def element? (c : Chain n) (points : List Nat) : Option (Perm n) :=
  elementThrough? c.levels points

end Chain
end ProcessorSymmetry

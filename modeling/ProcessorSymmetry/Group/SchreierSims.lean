import ProcessorSymmetry.Distinct
import ProcessorSymmetry.Group.Chain

/-!
# Chains from generators

Levels are verified from the deepest one upwards. A level is verified when its Schreier generators
all sift through the levels below it. If one does not, its residue becomes a further generator of
the levels that it passed and of the one where it got stuck, and these are verified again.
-/

namespace ProcessorSymmetry
namespace Chain

variable {n : Nat}

/-- Lengthens a base until every generator moves one of its points. -/
def completeBase (generators : List (Perm n)) (points : List Nat) : List Nat :=
  generators.foldl (fun base g =>
    if base.all fun b => g b == b then base ++ g.firstMoved?.toList else base) points

/-- One level per base point, with the generators that fix all base points before it. -/
def levelsOn (generators : List (Perm n)) : List Nat → List (Level n)
  | [] => []
  | b :: rest => .ofGenerators b generators :: levelsOn (generators.filter fun g => g b == b) rest

/-- The first Schreier generator of a level that does not sift through the levels below it: its
residue, and how many of these it passes. -/
def failing? (level : Level n) (deeper : List (Level n)) : Option (Perm n × Nat) :=
  level.transversal.findSome? fun entry => level.generators.findSome? fun g => do
    let h ← level.schreierGenerator? entry g
    guard !h.isIdentity
    let (residue, passed) := siftThrough deeper h
    guard (passed < deeper.length || !residue.isIdentity)
    return (residue, passed)

/-- A chain under verification. -/
structure Verification (n : Nat) where
  /-- The levels that are still to be verified, deepest first. -/
  pending : List (Level n)
  /-- The verified levels below them. -/
  verified : List (Level n)
  deriving DecidableEq

/-- Adds a residue to the levels that it passed and to the one where it got stuck. If it passed
them all, a level is added whose base point it moves. -/
def insertResidue (residue : Perm n) (passed : Nat) (deeper : List (Level n)) : List (Level n) :=
  let deeper :=
    if passed < deeper.length then deeper
    else deeper ++ residue.firstMoved?.toList.map fun b => .ofGenerators b []
  (deeper.take (passed + 1)).map (·.addGenerator residue) ++ deeper.drop (passed + 1)

/-- Verifies the deepest pending level, or mends the levels below it. -/
def Verification.step? (v : Verification n) : Option (Verification n) :=
  match v.pending with
  | [] => none
  | level :: above =>
    match failing? level v.verified with
    | none => some ⟨above, level :: v.verified⟩
    | some (residue, passed) =>
      let deeper := insertResidue residue passed v.verified
      some ⟨(deeper.take (passed + 1)).reverse ++ level :: above, deeper.drop (passed + 1)⟩

/-- How many steps a verification takes at most if it never has more than `levels` levels: each
mending adds a level or a point to an orbit, and between two of them the levels are passed once. -/
def verificationBound (n levels : Nat) : Nat :=
  (levels * (n + 1) + 1) * (levels + 1)

/-- The chain of the group that the permutations generate. Its base starts with the given points,
without repetitions, and goes on with points that the generators or the residues move. -/
def ofGenerators (generators : List (Perm n)) (points : List Nat) : Chain n :=
  let generators := distinctBy Perm.toList (generators.filter (!·.isIdentity))
  let base := completeBase generators points.eraseDups
  let start : Verification n := ⟨(levelsOn generators base).reverse, []⟩
  ⟨(exhaust Verification.step? (verificationBound n (base.length + n)) start).verified⟩

end Chain
end ProcessorSymmetry

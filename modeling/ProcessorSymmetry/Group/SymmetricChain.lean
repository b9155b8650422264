import ProcessorSymmetry.Group.Chain

/-!
# The chain of the symmetric group

The symmetric group needs no search: the level of base point `i` consists of all permutations that
fix the points before `i`, and exchanging `i` with `j` takes `j` back to `i`.
-/

namespace ProcessorSymmetry

/-- The permutation that moves every point from `i` on up by one, and the last one to `i`. -/
def Perm.rotation (n i : Nat) : Perm n :=
  .ofFn (fun x => if x < i then x else if x + 1 = n then i else x + 1)
    (fun x => if x < i then x else if x = i then n - 1 else x - 1)
    (by intro x hx; (repeat' split) <;> omega)
    (by intro x hx; (repeat' split) <;> omega)
    (by intro x hx; (repeat' split) <;> omega)
    (by intro x hx; (repeat' split) <;> omega)

namespace Chain

/-- The level of the symmetric group whose members fix the points before `i`. -/
def symmetricLevel (n i : Nat) : Level n where
  base := i
  generators :=
    if n - i > 2 then [.swap n i (i + 1), .rotation n i] else [.swap n i (i + 1)]
  transversal := (List.range' i (n - i)).map fun j => (j, .swap n i j)

/-- The chain of the symmetric group with base `0, ..., n - 2`. -/
def symmetric (n : Nat) : Chain n :=
  ⟨(List.range (n - 1)).map (symmetricLevel n)⟩

end Chain
end ProcessorSymmetry

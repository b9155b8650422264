import ProcessorSymmetry.Perm.Exchange
import ProcessorSymmetry.RandomStream

/-!
# Random permutations
-/

namespace ProcessorSymmetry
namespace Perm

/-- Exchanges the image of `i` with that of a random point at or before it, for `i` from `last`
down to one. -/
def shuffleFrom {n : Nat} : Nat → Perm n → RandomStream → Perm n
  | 0, p, _ => p
  | last + 1, p, stream =>
    let (j, stream) := stream.below 32 (last + 2)
    shuffleFrom last (p.swapBefore (last + 1) j) stream

/-- The random permutation that belongs to a seed. -/
def random (n seed : Nat) : Perm n :=
  shuffleFrom (n - 1) 1 (.ofSeed seed)

end Perm
end ProcessorSymmetry

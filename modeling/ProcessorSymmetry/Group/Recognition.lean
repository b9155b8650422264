import Std.Data.TreeSet
import ProcessorSymmetry.Factorial
import ProcessorSymmetry.Group.Basic

/-!
# Recognising symmetric and alternating groups

A group of known degree is recognised by its order alone.
-/

namespace ProcessorSymmetry

namespace PermGroup

/-- Decides whether the group consists of all permutations of its degree. -/
def isSymmetric (G : PermGroup) : Bool :=
  G.order == factorial G.degree

/-- Decides whether the group consists of the even permutations of its degree, if that is at least
two. -/
def isAlternating (G : PermGroup) : Bool :=
  2 ≤ G.degree && G.order == factorial G.degree / 2

/-- The points that some generator moves, in increasing order. -/
def movedPoints (G : PermGroup) : List Nat :=
  (Std.TreeSet.ofList (G.generators.flatMap Perm.movedPoints)).toList

/-- The range of points, from the first to just after the last, on which the group acts as the full
symmetric group while it fixes all other points. -/
def symmetricRange? (G : PermGroup) : Option (Nat × Nat) :=
  let moved := G.movedPoints
  match moved.head?, moved.getLast? with
  | some first, some last =>
    if moved.length = last - first + 1 ∧ G.order = factorial moved.length then
      some (first, last + 1)
    else
      none
  | _, _ => none

end PermGroup
end ProcessorSymmetry

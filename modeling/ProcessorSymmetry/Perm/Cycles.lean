import Std.Data.TreeSet
import ProcessorSymmetry.Perm.Exchange

/-!
# Cycle notation

A permutation is written as its disjoint cycles, each starting with its lowest point. Read in the
other direction, cycles are multiplied from left to right and may overlap.
-/

namespace ProcessorSymmetry
namespace Perm

variable {n : Nat}

/-- The points met from `x` on until the walk is back at `start`, at most `bound` of them. -/
def walk (p : Perm n) (start : Nat) : Nat → Nat → List Nat
  | 0, _ => []
  | bound + 1, x => if x = start then [] else x :: walk p start bound (p x)

/-- The cycle through a point, starting with it. -/
def cycleOf (p : Perm n) (x : Nat) : List Nat :=
  x :: p.walk x n (p x)

/-- Decides whether no point from `x` on, until the walk is back at `start`, is lower than that. -/
def isLeast (p : Perm n) (start : Nat) : Nat → Nat → Bool
  | 0, _ => true
  | bound + 1, x => x == start || (start ≤ x && isLeast p start bound (p x))

/-- The cycles of length at least two, each starting with its lowest point. -/
def cycles (p : Perm n) : List (List Nat) :=
  (p.movedPoints.filter fun x => p.isLeast x n (p x)).map p.cycleOf

/-- First `p`, then the permutation that sends each entry to the next one and the last to the
first. -/
def thenCycle (p : Perm n) : List Nat → Perm n
  | [] => p
  | x :: rest => rest.foldl (fun q y => q.swapAfter x y) p

/-- Accepts the points of a written cycle if they lie in the domain and are distinct. -/
def checkCycle (n : Nat) (points : List Nat) : Except Error Unit := do
  checkPoints n points
  let distinct := (Std.TreeSet.ofList points).size
  if distinct = points.length then
    return
  else
    throw (.degreeMismatch points.length distinct)

/-- The product of the written cycles, from left to right. -/
def ofCycles (n : Nat) (cycles : List (List Nat)) : Except Error (Perm n) :=
  cycles.foldlM (fun p points => do
    checkCycle n points
    return p.thenCycle points) 1

/-- A cycle in parentheses. -/
def cycleText (points : List Nat) : String :=
  "(" ++ " ".intercalate (points.map toString) ++ ")"

/-- The permutation in cycle notation. -/
def text (p : Perm n) : String :=
  if p.cycles.isEmpty then "()" else String.join (p.cycles.map cycleText)

end Perm
end ProcessorSymmetry

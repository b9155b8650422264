import ProcessorSymmetry.Group.Chain

/-!
# Elements one after the other

An enumeration of the elements remembers one place in the orbit of each level.  Every call answers
the element that belongs to the orbit points at these places, and then moves the places on like an
odometer, the last one first.  After the last places nothing is remembered, and the enumeration has
come to its end.
-/

namespace ProcessorSymmetry
namespace Chain

variable {n : Nat}

/-- The orbit points at one place per level, as far as there are places. -/
def pointsAt? : List (Level n) → List Nat → Option (List Nat)
  | level :: deeper, i :: places => do
    let x ← level.orbit[i]?
    let points ← pointsAt? deeper places
    return x :: points
  | _, _ => some []

/-- The first place of each level. -/
def firstPlaces (levels : List (Level n)) : List Nat :=
  levels.map fun _ => 0

/-- The last place that can move on does so, and the places after it start again. -/
def nextPlaces? : List (Level n) → List Nat → Option (List Nat)
  | level :: deeper, i :: places =>
    match nextPlaces? deeper places with
    | some next => some (i :: next)
    | none => if i + 1 < level.orbitLength then some ((i + 1) :: firstPlaces deeper) else none
  | _, _ => none

/-- The answer to a call of an enumeration that remembers places, and what it remembers then. -/
def nextElement (c : Chain n) : Option (List Nat) → Option (Perm n) × Option (List Nat)
  | none => (none, none)
  | some places => ((pointsAt? c.levels places).bind c.element?, nextPlaces? c.levels places)

end Chain
end ProcessorSymmetry

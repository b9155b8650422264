import Std.Data.TreeMap
import ProcessorSymmetry.Mapping.Orbit

/-!
# Registered classes

A registry numbers representatives in the order of their first registration.
-/

namespace ProcessorSymmetry

/-- Representatives with consecutive numbers. -/
structure Registry where
  representatives : Array TaskMapping
  /-- The number of each representative. -/
  ids : Std.TreeMap TaskMapping Nat

namespace Registry

/-- The registry without representatives. -/
def empty : Registry :=
  ⟨#[], Std.TreeMap.empty⟩

/-- The number of a representative. -/
def classId? (registry : Registry) (representative : TaskMapping) : Option Nat :=
  registry.ids[representative]?

/-- Decides whether a representative is registered. -/
def contains (registry : Registry) (representative : TaskMapping) : Bool :=
  registry.ids.contains representative

/-- The number of representatives. -/
def size (registry : Registry) : Nat :=
  registry.representatives.size

/-- The representatives in the order of their numbers. -/
def toList (registry : Registry) : List TaskMapping :=
  registry.representatives.toList

/-- Registers a representative. Answers whether it is new, and its number. -/
def insert (registry : Registry) (representative : TaskMapping) : (Bool × Nat) × Registry :=
  match registry.classId? representative with
  | some id => ((false, id), registry)
  | none =>
    ((true, registry.size),
      ⟨registry.representatives.push representative,
        registry.ids.insert representative registry.size⟩)

end Registry
end ProcessorSymmetry

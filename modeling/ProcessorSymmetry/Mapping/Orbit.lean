import Std.Data.TreeSet
import ProcessorSymmetry.Group.Basic

/-!
# Task mappings and their orbits

A task mapping lists the processor of each task. A permutation of the processors acts on all
entries alike, and the orbit of a mapping under a group is walked breadth first.
-/

namespace ProcessorSymmetry

/-- The processor of each task. -/
abbrev TaskMapping := List Nat

/-- The image of a mapping, entry by entry. -/
def Perm.permute {n : Nat} (p : Perm n) (mapping : TaskMapping) : TaskMapping :=
  mapping.map p

/-- A breadth-first walk through the images of a mapping. -/
structure OrbitWalk where
  /-- How many of the images have been visited. -/
  visited : Nat
  /-- The images in the order of their discovery. -/
  found : Array TaskMapping
  /-- The same images, for looking them up. -/
  seen : Std.TreeSet TaskMapping

namespace OrbitWalk

variable {n : Nat}

/-- The walk that knows the mapping only. -/
def start (mapping : TaskMapping) : OrbitWalk :=
  ⟨0, #[mapping], Std.TreeSet.empty.insert mapping⟩

/-- Adds an image unless it is known. -/
def meet : OrbitWalk → TaskMapping → OrbitWalk
  | ⟨visited, found, seen⟩, image =>
    if seen.contains image then
      ⟨visited, found, seen⟩
    else
      ⟨visited, found.push image, seen.insert image⟩

/-- Applies all generators to the image that is visited. -/
def visit (generators : List (Perm n)) (current : TaskMapping) : OrbitWalk → OrbitWalk
  | ⟨visited, found, seen⟩ =>
    generators.foldl (fun walk g => walk.meet (g.permute current)) ⟨visited + 1, found, seen⟩

/-- Answers the first image that has not been visited, and visits it. There is no answer once all
images that have been found are visited. -/
def next? (generators : List (Perm n)) (walk : OrbitWalk) : Option (TaskMapping × OrbitWalk) :=
  walk.found[walk.visited]?.map fun current => (current, walk.visit generators current)

/-- Visits images in turn, at most `bound` of them, until it meets one at which to stop. -/
def run (generators : List (Perm n)) (stop : TaskMapping → Bool) : Nat → OrbitWalk → OrbitWalk
  | 0, walk => walk
  | bound + 1, walk =>
    match walk.found[walk.visited]? with
    | none => walk
    | some current =>
      if stop current then walk else run generators stop bound (walk.visit generators current)

end OrbitWalk

/-- How many mappings of a length there are on `degree` processors. -/
def mappingCount (degree length : Nat) : Nat :=
  Nat.pow degree length

namespace PermGroup

/-- The first images of a mapping in the order of their discovery. -/
def firstImages (G : PermGroup) (mapping : TaskMapping) (count : Nat) :
    Except Error (List TaskMapping) := do
  checkPoints G.degree mapping
  return ((OrbitWalk.start mapping).run G.generators (fun _ => false) count).found.toList.take count

/-- All images of a mapping in the order of their discovery. -/
def orbit (G : PermGroup) (mapping : TaskMapping) : Except Error (List TaskMapping) :=
  G.firstImages mapping (mappingCount G.degree mapping.length)

end PermGroup
end ProcessorSymmetry

import ProcessorSymmetry.Exhaust
import ProcessorSymmetry.Perm.Basic

/-!
# Orbits with transversals

A level holds generators that act on the orbit of a base point. Each point of the orbit comes with
a permutation that takes it back to the base point.
-/

namespace ProcessorSymmetry

/-- Generators with the orbit of a base point under them. -/
structure Level (n : Nat) where
  base : Nat
  generators : List (Perm n)
  /-- The points of the orbit in the order of their discovery, each with a permutation that takes
  it to the base point. -/
  transversal : List (Nat × Perm n)
  deriving DecidableEq

namespace Level

variable {n : Nat}

/-- The points of the orbit in the order of their discovery. -/
def orbit (level : Level n) : List Nat :=
  level.transversal.map Prod.fst

/-- The length of the orbit. -/
def orbitLength (level : Level n) : Nat :=
  level.transversal.length

/-- The permutation that takes a point of the orbit to the base point. -/
def toBase? (level : Level n) (x : Nat) : Option (Perm n) :=
  level.transversal.lookup x

/-- A permutation that takes the base point to a point of its orbit. -/
def representative? (level : Level n) (x : Nat) : Option (Perm n) :=
  (level.toBase? x).map (·⁻¹)

/-- Multiplies a permutation so that it fixes the base point, if it moves it within the orbit. -/
def takeBack? (level : Level n) (p : Perm n) : Option (Perm n) :=
  if p level.base = level.base then some p
  else (level.toBase? (p level.base)).map fun back => p * back

/-- Adds the image of an orbit point under a generator, unless it is known. -/
def meet (entry : Nat × Perm n) (found : List (Nat × Perm n)) (g : Perm n) :
    List (Nat × Perm n) :=
  if found.any (·.1 == g entry.1) then found else found ++ [(g entry.1, g⁻¹ * entry.2)]

/-- Visits the next orbit point that has not been visited: all generators are applied to it. -/
def visit? (generators : List (Perm n)) :
    Nat × List (Nat × Perm n) → Option (Nat × List (Nat × Perm n))
  | (visited, found) =>
    found[visited]?.map fun entry => (visited + 1, generators.foldl (meet entry) found)

/-- The orbit of a base point, found breadth first. It has at most `n` points, or one if the base
point lies outside of the domain. -/
def ofGenerators (base : Nat) (generators : List (Perm n)) : Level n where
  base := base
  generators := generators
  transversal := (exhaust (visit? generators) (n + 1) (0, [(base, 1)])).2

/-- The level with one more generator. -/
def addGenerator (level : Level n) (g : Perm n) : Level n :=
  ofGenerators level.base (level.generators ++ [g])

/-- The way from the base point to an orbit point, then a generator, then the way back from the
image of the orbit point. This product fixes the base point. -/
def schreierGenerator? (level : Level n) (entry : Nat × Perm n) (g : Perm n) :
    Option (Perm n) :=
  (level.toBase? (g entry.1)).map fun back => entry.2⁻¹ * g * back

/-- The Schreier generators of all orbit points under all generators, identities left out. -/
def schreierGenerators (level : Level n) : List (Perm n) :=
  level.transversal.flatMap fun entry =>
    (level.generators.filterMap (level.schreierGenerator? entry)).filter (!·.isIdentity)

end Level
end ProcessorSymmetry

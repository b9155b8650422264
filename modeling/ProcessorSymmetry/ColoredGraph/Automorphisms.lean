import ProcessorSymmetry.ColoredGraph.Refinement
import ProcessorSymmetry.Group.Level
import ProcessorSymmetry.Perm.Images

/-!
# Generators of automorphism groups

Automorphisms are searched for by individualizing vertices and refining. The leftmost path of this
search ends in a first leaf, where every vertex has its own color. Along the path, from the deepest
branching upwards, automorphisms are found by comparing other leaves with the first one, and a
branch is skipped if the automorphisms found so far take the path there. Trying out all
permutations serves for tiny graphs.
-/

namespace ProcessorSymmetry

/-- How generators of an automorphism group are found. -/
inductive AutomorphismFinder where
  | search
  | trial
  deriving DecidableEq

namespace ColoredGraph

/-- The permutation with the given images, if they are those of a permutation of the vertices. -/
def permOfImages? (g : ColoredGraph) (images : List Nat) : Option (Perm g.size) :=
  (Perm.ofImages images).toOption.bind (·.ofDegree? g.size)

/-- Decides whether the vertex after those with the given images may be sent to `x`: colors, and
edges from and to the vertices before it, have to agree. -/
def fits (g : ColoredGraph) (images : List Nat) (x : Nat) : Bool :=
  let i := images.length
  g.color i == g.color x &&
    images.zipIdx.all fun (y, j) => g.edge? i j == g.edge? x y && g.edge? j i == g.edge? y x

/-- The lists of images that start with the given ones and go on with fitting images out of the
unused vertices, in lexicographic order if these are ascending. -/
def completions (g : ColoredGraph) (images : List Nat) : Nat → List Nat → List (List Nat)
  | 0, _ => [images]
  | missing + 1, unused => (unused.filter (g.fits images)).flatMap fun x =>
      completions g (images ++ [x]) missing (unused.erase x)

/-- All automorphisms other than the identity, in the order of their image lists. -/
def generatorsByTrial (g : ColoredGraph) : List (Perm g.size) :=
  ((g.completions [] g.size (List.range g.size)).filterMap g.permOfImages?).filter fun p =>
    !p.isIdentity && g.isAutomorphism p

/-- The vertex that each color belongs to in a coloring where it has only one. -/
def verticesByColor (colors : Coloring) : Array Nat :=
  colors.toList.zipIdx.foldl (fun vertices (c, i) => vertices.setIfInBounds c i)
    (Array.replicate colors.size 0)

/-- The map from the leaf `reference` to the leaf `colors`, from each vertex to the one with the
same color. -/
def leafMap? (g : ColoredGraph) (reference colors : Coloring) : Option (Perm g.size) :=
  let vertices := verticesByColor colors
  g.permOfImages? (reference.toList.map fun c => vertices.getD c 0)

/-- An automorphism that takes the first leaf to a leaf below `colors`. The colorings along the
first path, from the same depth on, guide the search: cells must have the same sizes. -/
def findAutomorphism? (g : ColoredGraph) (r : Refiner) :
    List Coloring → Coloring → Option (Perm g.size)
  | [], _ => none
  | reference :: deeper, colors =>
    if colors.cellSizes = reference.cellSizes then
      match colors.targetCell? with
      | none => (g.leafMap? reference colors).filter g.isAutomorphism
      | some cell => cell.findSome? fun x =>
        findAutomorphism? g r deeper (r.individualize colors x)
    else
      none

/-- The colorings on the way to the first leaf, where the first vertex of the target cell is
individualized each time. -/
def firstPath (r : Refiner) : Nat → Coloring → List Coloring
  | 0, colors => [colors]
  | bound + 1, colors =>
    match colors.targetCell? with
    | some (v :: _) => colors :: firstPath r bound (r.individualize colors v)
    | _ => [colors]

/-- Tries to extend the generators by an automorphism that takes `v` to `w`, unless the orbit of
`v` contains `w` already. Generators and orbit are updated together. -/
def tryVertex (g : ColoredGraph) (r : Refiner) (colors : Coloring) (deeper : List Coloring)
    (v : Nat) (found : List (Perm g.size) × List Nat) (w : Nat) :
    List (Perm g.size) × List Nat :=
  if found.2.contains w then
    found
  else
    match g.findAutomorphism? r deeper (r.individualize colors w) with
    | none => found
    | some p =>
      let generators := found.1 ++ [p]
      (generators, (Level.ofGenerators v generators).orbit)

/-- The automorphisms found along a path of colorings, from its end upwards. -/
def generatorsAlong (g : ColoredGraph) (r : Refiner) : List Coloring → List (Perm g.size)
  | [] => []
  | colors :: deeper =>
    let generators := generatorsAlong g r deeper
    match colors.targetCell? with
    | some (v :: rest) =>
      ((v :: rest).foldl (tryVertex g r colors deeper v)
        (generators, (Level.ofGenerators v generators).orbit)).1
    | _ => generators

/-- Generators of the automorphism group, found by individualization and refinement. -/
def generatorsBySearch (g : ColoredGraph) : List (Perm g.size) :=
  let r := g.refiner
  generatorsAlong g r (firstPath r g.size r.initial)

/-- Generators of the automorphism group, none of them the identity. -/
def generators (g : ColoredGraph) : AutomorphismFinder → List (Perm g.size)
  | .search => g.generatorsBySearch
  | .trial => g.generatorsByTrial

/-- The generators of a graph whose edges may lead elsewhere. Trying out permutations does not
follow any edge if no two vertices have the same color. -/
def generators? (g : ColoredGraph) (finder : AutomorphismFinder) : Option (List (Perm g.size)) :=
  if g.isClosed then
    some (g.generators finder)
  else
    match finder with
    | .search => none
    | .trial => if g.colors.toList.Nodup then some [] else none

end ColoredGraph
end ProcessorSymmetry

import ProcessorSymmetry.ColoredGraph.Basic
import ProcessorSymmetry.Ranks
import ProcessorSymmetry.Sorting

/-!
# Color refinement

Vertices of one color are told apart by the colors of their neighbours and of the edges to them,
until the number of colors does not change any more. The new colors depend on the graph up to
renaming only.
-/

namespace ProcessorSymmetry

/-- The color of each vertex. -/
abbrev Coloring := Array Nat

namespace Coloring

/-- One more than the greatest color. -/
def colorCount (colors : Coloring) : Nat :=
  colors.foldl (fun count c => max count (c + 1)) 0

/-- How many vertices each color has. -/
def cellSizes (colors : Coloring) : List Nat :=
  (colors.foldl (fun sizes c => sizes.modify c (· + 1))
    (Array.replicate colors.colorCount 0)).toList

/-- The vertices of the lowest color that several vertices share. -/
def targetCell? (colors : Coloring) : Option (List Nat) :=
  (colors.cellSizes.findIdx? (1 < ·)).map fun c =>
    (List.range colors.size).filter fun i => colors.getD i 0 == c

end Coloring

/-- What a vertex looks like from its surroundings. -/
structure Signature where
  color : Nat
  /-- The colors of the targets of its edges with the edge colors, sorted. -/
  outgoing : List (Nat × Nat)
  /-- The colors of the sources of the edges to it with the edge colors, sorted. -/
  incoming : List (Nat × Nat)

/-- Own colors first, then the surroundings. -/
def Signature.compare : Signature → Signature → Ordering :=
  compareLex (compareOn Signature.color)
    (compareLex (fun a b => a.outgoing.compareLex comparePairs b.outgoing)
      fun a b => a.incoming.compareLex comparePairs b.incoming)

/-- A graph with the edges by target beside those by source. In an undirected graph they are the
same, and none are listed. -/
structure Refiner where
  graph : ColoredGraph
  sources : Array (List (Nat × Nat))

/-- The refiner of a graph. -/
def ColoredGraph.refiner (g : ColoredGraph) : Refiner :=
  ⟨g, if g.directed then g.incoming else #[]⟩

namespace Refiner

/-- The colors of neighbours with the edge colors, sorted. -/
def surroundings (colors : Coloring) (edges : List (Nat × Nat)) : List (Nat × Nat) :=
  sortBy comparePairs (edges.map fun (j, e) => (colors.getD j 0, e))

/-- What a vertex looks like in a coloring. -/
def signature (r : Refiner) (colors : Coloring) (i : Nat) : Signature where
  color := colors.getD i 0
  outgoing := surroundings colors (r.graph.edgesFrom i)
  incoming := surroundings colors (r.sources.getD i [])

/-- Vertices keep a common color if they look alike. -/
def recolor (r : Refiner) (colors : Coloring) : Coloring :=
  (denseRanks Signature.compare
    ((List.range r.graph.size).map (r.signature colors))).toArray

/-- Recolors until the number of colors stays the same, at most `bound` times before the last. -/
def refineWithin (r : Refiner) : Nat → Coloring → Coloring
  | 0, colors => r.recolor colors
  | bound + 1, colors =>
    let refined := r.recolor colors
    if refined.colorCount = colors.colorCount then refined else refineWithin r bound refined

/-- The stable coloring below a coloring. -/
def refine (r : Refiner) (colors : Coloring) : Coloring :=
  r.refineWithin (r.graph.size + 1) colors

/-- The stable coloring below the colors of the vertices. -/
def initial (r : Refiner) : Coloring :=
  r.refine (denseRanks compare r.graph.colors.toList).toArray

/-- A vertex gets a color of its own, before the rest of its cell, and the coloring is refined. -/
def individualize (r : Refiner) (colors : Coloring) (v : Nat) : Coloring :=
  let split := colors.toList.zipIdx.map fun (c, i) => (c, if i = v then 0 else 1)
  r.refine (denseRanks comparePairs split).toArray

/-- The stable colorings met when vertices are individualized in turn, from `colors` on. -/
def individualizeAll (r : Refiner) : Coloring → List Nat → List Coloring
  | colors, [] => [colors]
  | colors, v :: rest => colors :: individualizeAll r (r.individualize colors v) rest

end Refiner

/-- The refiner of a graph whose edges all lead to vertices. -/
def ColoredGraph.refiner? (g : ColoredGraph) : Option Refiner :=
  if g.isClosed then some g.refiner else none

/-- The stable coloring below a list with a color for each vertex. -/
def ColoredGraph.refine? (g : ColoredGraph) (colors : List Nat) : Option Coloring := do
  let r ← g.refiner?
  guard (g.size ≤ colors.length)
  return r.refine colors.toArray

end ProcessorSymmetry

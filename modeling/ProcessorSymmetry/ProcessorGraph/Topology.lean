import ProcessorSymmetry.ProcessorGraph.Basic

/-!
# Graphs of common shapes

Complete graphs, meshes with and without wrap-around, and graphs given by adjacency lists.
-/

namespace ProcessorSymmetry
namespace ProcessorGraph

/-- Processors and channels with default labels, given by the targets of each source. -/
def ofAdjacency (count : Nat) (adjacency : List (Nat × List Nat)) (directed : Bool) :
    Except Error ProcessorGraph :=
  (adjacency.flatMap fun (source, targets) => targets.map (source, ·)).foldlM
    (fun (g : ProcessorGraph) (source, target) => do
      let (_, g) ← g.addChannel source target "C"
      return g)
    ((empty directed).addProcessors count "P")

/-- Processors that are all connected with each other. -/
def complete (count : Nat) (processorLabel channelLabel : String) : ProcessorGraph :=
  (((empty false).addProcessors count processorLabel).connectAll channelLabel).2

/-- The pairs of horizontal and vertical neighbours in a mesh whose processors are numbered row by
row. -/
def meshPairs (width height : Nat) : List (Nat × Nat) :=
  (List.range (width * height)).flatMap fun pe =>
    (if pe % width + 1 < width then [(pe, pe + 1)] else []) ++
      (if pe + width < width * height then [(pe, pe + width)] else [])

/-- The pairs of first and last processors of the rows, then of the columns. -/
def wrapPairs (width height : Nat) : List (Nat × Nat) :=
  ((List.range height).map fun row => (row * width, row * width + width - 1)) ++
    (List.range width).map fun col => (col, col + (height - 1) * width)

/-- A mesh of processors that are connected with their neighbours. -/
def mesh (width height : Nat) (processorLabel channelLabel : String) : ProcessorGraph :=
  (((empty false).addProcessors (width * height) processorLabel).connect channelLabel
    (meshPairs width height)).2

/-- A mesh whose rows and columns wrap around. Those of a single processor do not. -/
def torus (width height : Nat) (processorLabel channelLabel : String) : ProcessorGraph :=
  let g := mesh width height processorLabel channelLabel
  if g.processorCount = 0 then g
  else (g.connect channelLabel ((wrapPairs width height).filter fun (a, b) => a ≠ b)).2

end ProcessorGraph
end ProcessorSymmetry

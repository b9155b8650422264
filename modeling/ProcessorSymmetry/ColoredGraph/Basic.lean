import ProcessorSymmetry.Perm.Embedding

/-!
# Colored graphs

A colored graph has colored vertices and at most one colored edge from a vertex to another one. An
undirected graph holds every edge in both directions.
-/

namespace ProcessorSymmetry

/-- Colored vertices with colored edges between them. -/
structure ColoredGraph where
  directed : Bool
  /-- The color of each vertex. -/
  colors : Array Nat
  /-- The targets of the edges from each vertex with their colors, by ascending target. -/
  targets : Array (List (Nat × Nat))
  deriving DecidableEq

namespace ColoredGraph

/-- The graph without edges. -/
def ofColors (directed : Bool) (colors : List Nat) : ColoredGraph :=
  ⟨directed, colors.toArray, Array.replicate colors.length []⟩

/-- The number of vertices. -/
def size (g : ColoredGraph) : Nat :=
  g.colors.size

/-- The color of a vertex. -/
def color (g : ColoredGraph) (i : Nat) : Nat :=
  g.colors.getD i 0

/-- The edges from a vertex. -/
def edgesFrom (g : ColoredGraph) (i : Nat) : List (Nat × Nat) :=
  g.targets.getD i []

/-- The color of the edge from `i` to `j`. -/
def edge? (g : ColoredGraph) (i j : Nat) : Option Nat :=
  (g.edgesFrom i).lookup j

/-- The color of the edge from `i` to `j`, where `i` has to be a vertex. -/
def readEdge? (g : ColoredGraph) (i j : Nat) : Option (Option Nat) :=
  if i < g.size then some (g.edge? i j) else none

/-- Puts an entry into a list sorted by first components, in the place of one with the same. -/
def putTarget (j color : Nat) : List (Nat × Nat) → List (Nat × Nat)
  | [] => [(j, color)]
  | (k, c) :: rest =>
    if j < k then (j, color) :: (k, c) :: rest
    else if j = k then (j, color) :: rest
    else (k, c) :: putTarget j color rest

/-- The graph with the edge from `i` to `j` in the given color. -/
def setEdge (g : ColoredGraph) (i j color : Nat) : ColoredGraph :=
  { g with targets := g.targets.modify i (putTarget j color) }

/-- The graph with an edge between `i` and `j`, in both directions if it is undirected. -/
def addEdge (g : ColoredGraph) (i j color : Nat) : ColoredGraph :=
  if g.directed then g.setEdge i j color else (g.setEdge i j color).setEdge j i color

/-- Puts an edge between distinct vertices and answers the color that it had before. A directed
edge may lead to a number that is no vertex; nothing that follows such an edge has an answer. -/
def insertEdge? (g : ColoredGraph) (i j color : Nat) : Option (Option Nat × ColoredGraph) := do
  guard (i ≠ j ∧ i < g.size)
  guard (g.directed ∨ j < g.size ∧ g.edge? j i = g.edge? i j)
  return (g.edge? i j, g.addEdge i j color)

/-- All edges with their colors, by ascending source and target. -/
def edges (g : ColoredGraph) : List ((Nat × Nat) × Nat) :=
  (List.range g.size).flatMap fun i => (g.edgesFrom i).map fun (j, c) => ((i, j), c)

/-- Decides whether every edge leads to a vertex. -/
def isClosed (g : ColoredGraph) : Bool :=
  g.edges.all fun ((_, j), _) => j < g.size

/-- For each vertex the sources of the edges to it with their colors, by ascending source. -/
def incoming (g : ColoredGraph) : Array (List (Nat × Nat)) :=
  g.edges.foldr (fun ((i, j), c) sources => sources.modify j ((i, c) :: ·))
    (Array.replicate g.size [])

/-- The edges to each vertex, if every edge leads to one. -/
def incoming? (g : ColoredGraph) : Option (List (List (Nat × Nat))) :=
  if g.isClosed then some g.incoming.toList else none

/-- Decides whether vertices keep their colors when they are moved. -/
def keepsColors (g : ColoredGraph) (p : Perm g.size) : Bool :=
  (List.range g.size).all fun i => g.color i == g.color (p i)

/-- Decides whether edges are moved to edges of the same color. -/
def keepsEdges (g : ColoredGraph) (p : Perm g.size) : Bool :=
  g.edges.all fun ((i, j), c) => g.edge? (p i) (p j) == some c

/-- Decides whether a permutation of the vertices keeps the graph as it is. -/
def isAutomorphism (g : ColoredGraph) (p : Perm g.size) : Bool :=
  g.keepsColors p && g.keepsEdges p

/-- Whether an unchecked permutation keeps the graph as it is. -/
def isAutomorphism? (g : ColoredGraph) (p : AnyPerm) : Option Bool :=
  match p.2.ofDegree? g.size with
  | none => some false
  | some p =>
    if g.keepsColors p then
      if g.isClosed then some (g.keepsEdges p) else none
    else
      some false

/-- The graph in which vertex `i` is called `p i`. -/
def permuted {n : Nat} (g : ColoredGraph) (p : Perm n) : ColoredGraph :=
  g.edges.foldl (fun h ((i, j), c) => h.setEdge (p i) (p j) c)
    (ofColors g.directed ((List.range g.size).map fun i => g.color (p⁻¹ i)))

/-- The relabelled graph for an unchecked permutation. It has to keep the vertices among
themselves, and every end of an edge has to lie in its domain. -/
def permuted? (g : ColoredGraph) (p : AnyPerm) : Option ColoredGraph := do
  guard (g.size ≤ p.1 ∧ (List.range g.size).all fun i => p.2 i < g.size)
  guard (g.edges.all fun ((_, j), _) => j < p.1)
  return g.permuted p.2

end ColoredGraph
end ProcessorSymmetry

import Std.Data.TreeMap
import ProcessorSymmetry.ColoredGraph.Automorphisms
import ProcessorSymmetry.Distinct
import ProcessorSymmetry.ProcessorGraph.Basic

/-!
# Automorphisms of processor graphs

A processor graph is turned into a colored graph with the same automorphisms: the color of a vertex
stands for the label of the processor and the labels of its channels to itself, and the color of an
edge for the labels of the channels between two processors.
-/

namespace ProcessorSymmetry
namespace ProcessorGraph

/-- For each processor the numbers of the labels of the channels to itself, sorted. -/
def loopLabels (g : ProcessorGraph) : List (List Nat) :=
  ((g.channels.foldl (fun loops c =>
    if c.source = c.target then loops.modify c.source (c.label :: ·) else loops)
    (Array.replicate g.processorCount [])).map (sortBy compare)).toList

/-- For each processor its label followed by the sorted labels of the channels to itself. -/
def compositeLabelList (g : ProcessorGraph) : List String :=
  g.loopLabels.zipIdx.map fun (loops, pe) =>
    (sortBy compare (loops.map fun l => g.channelLabels.getD l "")).foldl
      (fun text label => text ++ "%" ++ label) (g.labelOf pe)

/-- The distinct composite labels in the order of their first processors. -/
def compositeLabels (g : ProcessorGraph) : List String :=
  distinctBy id g.compositeLabelList

/-- The distinct labels of the channels in the order of their first channels. -/
def usedChannelLabels (g : ProcessorGraph) : List String :=
  distinctBy id (g.channels.toList.map g.channelLabel)

/-- What tells processors apart before any channel between them is looked at: the numbers of their
labels and of the labels of the channels to themselves. -/
def kinds (g : ProcessorGraph) : List (Nat × List Nat) :=
  g.processors.toList.zip g.loopLabels

/-- Compares labels first, then the labels of the channels from a processor to itself. -/
def compareKinds : Nat × List Nat → Nat × List Nat → Ordering :=
  compareLex (compareOn Prod.fst) (compareOn Prod.snd)

/-- The numbers of the labels of the channels between each pair of distinct processors that has
one. -/
def labelsBetween (g : ProcessorGraph) : Std.TreeMap (Nat × Nat) (List Nat) comparePairs :=
  g.channels.foldl (fun between c =>
    let c := g.key c
    if c.source = c.target then between
    else between.insert (c.source, c.target)
      (c.label :: (between[(c.source, c.target)]?).getD [])) Std.TreeMap.empty

/-- The connected pairs in ascending order, with the sorted numbers of their labels. -/
def connectedPairs (g : ProcessorGraph) : List ((Nat × Nat) × List Nat) :=
  g.labelsBetween.toList.map fun (pair, labels) => (pair, sortBy compare labels)

/-- The colored graph with the same automorphisms. -/
def coloredGraph (g : ProcessorGraph) : ColoredGraph :=
  let pairs := g.connectedPairs
  ((pairs.map Prod.fst).zip (denseRanks compare (pairs.map Prod.snd))).foldr
    (fun ((i, j), color) h => h.addEdge i j color)
    (.ofColors g.directed (denseRanks compareKinds g.kinds))

/-- The automorphism group, computed afresh. -/
def automorphismsWith (g : ProcessorGraph) (finder : AutomorphismFinder) : PermGroup :=
  .generatedBy (g.coloredGraph.generators finder)

/-- The automorphism group: the remembered one, or else the one that is found. -/
def automorphisms (g : ProcessorGraph) (finder : AutomorphismFinder := .search) : PermGroup :=
  match g.cached with
  | some G => G
  | none => g.automorphismsWith finder

/-- The graph that remembers its automorphism group from now on. -/
def remember (g : ProcessorGraph) (finder : AutomorphismFinder := .search) : ProcessorGraph :=
  { g with cached := some (g.automorphisms finder) }

/-- Processors, channels and automorphisms, a line each. -/
def text (g : ProcessorGraph) : String :=
  let kind := if g.directed then "directed" else "undirected"
  let arrow := if g.directed then "->" else "--"
  let processors := (List.range g.processorCount).map fun pe => s!"  {pe}: {g.labelOf pe}\n"
  let channels := g.channelList.map fun (source, target, label) =>
    s!"  {source} {arrow} {target}: {label}\n"
  s!"{kind} architecture graph, {g.processorCount} processors, {g.channelCount} channels\n" ++
    String.join processors ++ String.join channels ++
    s!"automorphisms of {g.automorphisms.text}\n"

end ProcessorGraph
end ProcessorSymmetry

import ProcessorSymmetry.ProcessorGraph.Basic

/-!
# Records of processor graphs

A record lists what a graph consists of, with labels as texts.
-/

namespace ProcessorSymmetry

/-- A channel with the text of its label. -/
structure ChannelRecord where
  source : Nat
  target : Nat
  label : String
  deriving DecidableEq, Repr

/-- The labels of the processors, and the channels in the order of their insertion. -/
structure GraphRecord where
  directed : Bool
  processors : List String
  channels : List ChannelRecord
  deriving DecidableEq, Repr

namespace ProcessorGraph

/-- The record of a graph. -/
def toRecord (g : ProcessorGraph) : GraphRecord where
  directed := g.directed
  processors := (List.range g.processorCount).map g.labelOf
  channels := g.channelList.map fun (source, target, label) => ⟨source, target, label⟩

/-- The graph with a recorded channel. -/
def addRecorded (g : ProcessorGraph) (c : ChannelRecord) : Except Error ProcessorGraph := do
  let (_, g) ← g.addChannel c.source c.target c.label
  return g

/-- The graph of a record. Channels that repeat an earlier one are dropped. -/
def ofRecord (record : GraphRecord) : Except Error ProcessorGraph :=
  (record.channels.foldlM addRecorded
    (record.processors.foldl addProcessor (empty record.directed))).mapError .malformedForm

end ProcessorGraph
end ProcessorSymmetry

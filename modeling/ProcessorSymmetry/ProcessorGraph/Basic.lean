import Std.Data.TreeSet
import ProcessorSymmetry.Group.Basic

/-!
# Processor graphs

Processors and the channels between them carry labels. There is at most one channel with a given
label from one processor to another, and between two processors if the graph is undirected. A graph
remembers its automorphism group until it changes.
-/

namespace ProcessorSymmetry

/-- A channel with the number of its label. -/
structure Channel where
  source : Nat
  target : Nat
  label : Nat
  deriving DecidableEq

/-- Compares sources, then targets, then labels. -/
def Channel.compare : Channel → Channel → Ordering :=
  compareLex (compareOn Channel.source)
    (compareLex (compareOn Channel.target) (compareOn Channel.label))

instance : Std.TransCmp Channel.compare :=
  inferInstanceAs (Std.TransCmp (compareLex (compareOn Channel.source)
    (compareLex (compareOn Channel.target) (compareOn Channel.label))))

instance : Std.LawfulEqCmp Channel.compare where
  compare_self := Std.ReflCmp.compare_self
  eq_of_compare {a b} h := by
    cases a
    cases b
    simp only [Channel.compare, compareLex, compareOn, Ordering.then_eq_eq,
      Nat.compare_eq_eq] at h
    simp [h]

/-- The same channel with the lower processor first. -/
def Channel.sorted (c : Channel) : Channel :=
  if c.source ≤ c.target then c else ⟨c.target, c.source, c.label⟩

/-- Labelled processors with labelled channels. -/
structure ProcessorGraph where
  directed : Bool
  /-- The labels of processors in the order of their first use. -/
  processorLabels : Array String
  /-- The labels of channels in the order of their first use. -/
  channelLabels : Array String
  /-- The number of the label of each processor. -/
  processors : Array Nat
  /-- The channels in the order of their insertion. -/
  channels : Array Channel
  /-- The channels once more, for looking them up; sorted if the graph is undirected. -/
  keys : Std.TreeSet Channel Channel.compare
  /-- The automorphism group, if it has been computed since the last change. -/
  cached : Option PermGroup

/-- The number of a label, which is appended to the labels if it is new. -/
def internLabel (labels : Array String) (label : String) : Nat × Array String :=
  match labels.findIdx? (· == label) with
  | some i => (i, labels)
  | none => (labels.size, labels.push label)

namespace ProcessorGraph

/-- The graph without processors. -/
def empty (directed : Bool) : ProcessorGraph :=
  ⟨directed, #[], #[], #[], #[], Std.TreeSet.empty, none⟩

/-- The number of processors. -/
def processorCount (g : ProcessorGraph) : Nat :=
  g.processors.size

/-- The number of channels. -/
def channelCount (g : ProcessorGraph) : Nat :=
  g.channels.size

/-- The label of the processor `pe`; empty if there is no such processor. -/
def labelOf (g : ProcessorGraph) (pe : Nat) : String :=
  (g.processors[pe]?.bind (g.processorLabels[·]?)).getD ""

/-- The text of a channel label. -/
def channelLabel (g : ProcessorGraph) (c : Channel) : String :=
  g.channelLabels.getD c.label ""

/-- The channels with the texts of their labels, in the order of their insertion. -/
def channelList (g : ProcessorGraph) : List (Nat × Nat × String) :=
  g.channels.toList.map fun c => (c.source, c.target, g.channelLabel c)

/-- How a channel is looked up. -/
def key (g : ProcessorGraph) (c : Channel) : Channel :=
  if g.directed then c else c.sorted

/-- Decides whether there is a channel with a label from one processor to another. -/
def hasChannel (g : ProcessorGraph) (source target : Nat) (label : String) : Bool :=
  match g.channelLabels.findIdx? (· == label) with
  | some i => g.keys.contains (g.key ⟨source, target, i⟩)
  | none => false

/-- Accepts a processor of the graph. -/
def check (g : ProcessorGraph) (pe : Nat) : Except Error Unit :=
  if pe < g.processorCount then .ok () else .error (.unknownProcessor pe g.processorCount)

/-- The label of a processor. -/
def processorLabel (g : ProcessorGraph) (pe : Nat) : Except Error String := do
  g.check pe
  return g.labelOf pe

/-- The processors with a label, in ascending order. -/
def processorsLabelled (g : ProcessorGraph) (label : String) : List Nat :=
  (List.range g.processorCount).filter fun pe => g.labelOf pe == label

/-- Adds a processor, whose number is the previous number of processors. -/
def addProcessor (g : ProcessorGraph) (label : String) : ProcessorGraph :=
  let (i, labels) := internLabel g.processorLabels label
  { g with processorLabels := labels, processors := g.processors.push i, cached := none }

/-- Adds processors with one label. -/
def addProcessors (g : ProcessorGraph) (count : Nat) (label : String) : ProcessorGraph :=
  count.repeat (·.addProcessor label) g

/-- Gives a channel label a number. -/
def internChannelLabel (g : ProcessorGraph) (label : String) : Nat × ProcessorGraph :=
  let (i, labels) := internLabel g.channelLabels label
  (i, { g with channelLabels := labels })

/-- Inserts a channel between processors unless there is one already. Answers whether it is new. -/
def insertChannel (g : ProcessorGraph) (c : Channel) : Bool × ProcessorGraph :=
  if g.keys.contains (g.key c) then
    (false, g)
  else
    let key := g.key c
    (true, { g with channels := g.channels.push c, keys := g.keys.insert key, cached := none })

/-- Adds a channel unless there is one already. Answers whether it is new. -/
def addChannel (g : ProcessorGraph) (source target : Nat) (label : String) :
    Except Error (Bool × ProcessorGraph) := do
  g.check source
  g.check target
  let (i, g) := g.internChannelLabel label
  return g.insertChannel ⟨source, target, i⟩

/-- Inserts channels with one label between pairs of processors. Answers how many are new. -/
def connect (g : ProcessorGraph) (label : String) (pairs : List (Nat × Nat)) :
    Nat × ProcessorGraph :=
  let (i, g) := g.internChannelLabel label
  pairs.foldl (fun (added, g) (source, target) =>
    let (new, g) := g.insertChannel ⟨source, target, i⟩
    (if new then added + 1 else added, g)) (0, g)

/-- The pairs of distinct processors of a list, once each way or with the lower one first. -/
def distinctPairs (g : ProcessorGraph) (pes : List Nat) : List (Nat × Nat) :=
  pes.flatMap fun source =>
    (pes.filter fun target => source ≠ target ∧ (g.directed ∨ source < target)).map (source, ·)

/-- Connects the processors of a list with each other. Answers how many channels are new. -/
def connectAmong (g : ProcessorGraph) (pes : List Nat) (label : String) :
    Except Error (Nat × ProcessorGraph) := do
  pes.forM g.check
  return g.connect label (g.distinctPairs pes)

/-- Connects all processors with each other. -/
def connectAll (g : ProcessorGraph) (label : String) : Nat × ProcessorGraph :=
  g.connect label (g.distinctPairs (List.range g.processorCount))

/-- Connects the processors with a label with each other. -/
def connectLabelled (g : ProcessorGraph) (processorLabel label : String) : Nat × ProcessorGraph :=
  g.connect label (g.distinctPairs (g.processorsLabelled processorLabel))

/-- Connects each processor of a list with itself. Answers how many channels are new. -/
def loopAmong (g : ProcessorGraph) (pes : List Nat) (label : String) :
    Except Error (Nat × ProcessorGraph) := do
  pes.forM g.check
  return g.connect label (pes.map fun pe => (pe, pe))

/-- Connects each processor with itself. -/
def loopAll (g : ProcessorGraph) (label : String) : Nat × ProcessorGraph :=
  g.connect label ((List.range g.processorCount).map fun pe => (pe, pe))

/-- Connects each processor with a label with itself. -/
def loopLabelled (g : ProcessorGraph) (processorLabel label : String) : Nat × ProcessorGraph :=
  g.connect label ((g.processorsLabelled processorLabel).map fun pe => (pe, pe))

end ProcessorGraph
end ProcessorSymmetry

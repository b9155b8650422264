import ProcessorSymmetry.Group.Product
import ProcessorSymmetry.ProcessorGraph.Record
import ProcessorSymmetry.ProcessorGraph.Symmetry

/-!
# Uniform systems

Each vertex of a graph of clusters is replaced by a copy of one proto graph. Processor
`cluster * m + place` is the given place in the copy for a cluster, where `m` is the number of
processors of the proto graph. A channel between clusters stands for channels between all of their
processors.
-/

namespace ProcessorSymmetry

/-- An undirected graph of clusters with an undirected graph that each cluster is a copy of. -/
structure UniformSystem where
  clusters : ProcessorGraph
  proto : ProcessorGraph
  clusters_undirected : clusters.directed = false
  proto_undirected : proto.directed = false
  /-- The automorphism group, if it has been computed. -/
  cached : Option PermGroup

namespace UniformSystem

/-- The system of two graphs, refused if one of them is directed. -/
def ofGraphs (clusters proto : ProcessorGraph) : Except Error UniformSystem :=
  if hclusters : clusters.directed = false then
    if hproto : proto.directed = false then
      .ok ⟨clusters, proto, hclusters, hproto, none⟩
    else
      .error (.directedPart .proto)
  else
    .error (.directedPart .clusters)

/-- The number of processors. -/
def processorCount (s : UniformSystem) : Nat :=
  s.clusters.processorCount * s.proto.processorCount

/-- The number of channels. Each channel between clusters counts once for each pair of places. -/
def channelCount (s : UniformSystem) : Nat :=
  s.proto.channelCount * s.clusters.processorCount +
    s.clusters.channelCount * s.proto.processorCount * s.proto.processorCount

/-- The group of the automorphisms that permute clusters as wholes and act inside of each cluster,
computed afresh from the groups of the parts. -/
def composedAutomorphisms (s : UniformSystem) : PermGroup :=
  .wreathProduct s.proto.automorphisms s.clusters.automorphisms

/-- The automorphism group: the remembered one, or else the composed one. -/
def automorphisms (s : UniformSystem) : PermGroup :=
  match s.cached with
  | some G => G
  | none => s.composedAutomorphisms

/-- The system that remembers its automorphism group from now on. -/
def remember (s : UniformSystem) : UniformSystem :=
  { s with cached := some s.automorphisms }

/-- The labels of the processors of the flattened graph. -/
def flatLabels (s : UniformSystem) : List String :=
  (List.range s.clusters.processorCount).flatMap fun cluster =>
    (List.range s.proto.processorCount).map fun place =>
      s.clusters.labelOf cluster ++ "/" ++ s.proto.labelOf place

/-- The channels of the flattened graph: those of each copy first, then those between all
processors of connected clusters. A channel from a cluster to itself connects all of its
processors, also with themselves. -/
def flatChannels (s : UniformSystem) : List ChannelRecord :=
  let m := s.proto.processorCount
  let inner := (List.range s.clusters.processorCount).flatMap fun cluster =>
    s.proto.channelList.map fun (source, target, label) =>
      ⟨cluster * m + source, cluster * m + target, label⟩
  let outer := s.clusters.channelList.flatMap fun (a, b, label) =>
    (List.range m).flatMap fun source => (List.range m).map fun target =>
      ⟨a * m + source, b * m + target, label⟩
  inner ++ outer

/-- The same system as a plain processor graph. -/
def flatten (s : UniformSystem) : Except Error ProcessorGraph :=
  s.flatChannels.foldlM ProcessorGraph.addRecorded
    (s.flatLabels.foldl ProcessorGraph.addProcessor (.empty false))

end UniformSystem
end ProcessorSymmetry

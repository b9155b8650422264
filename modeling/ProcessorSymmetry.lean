import ProcessorSymmetry.Perm.Images
import ProcessorSymmetry.Perm.Cycles
import ProcessorSymmetry.Perm.Embedding
import ProcessorSymmetry.Perm.Shuffle
import ProcessorSymmetry.Group.Elements
import ProcessorSymmetry.Group.Enumeration
import ProcessorSymmetry.Group.Recognition
import ProcessorSymmetry.Group.Product
import ProcessorSymmetry.Group.Unchecked
import ProcessorSymmetry.Mapping.Representative
import ProcessorSymmetry.ColoredGraph.Automorphisms
import ProcessorSymmetry.ProcessorGraph.Topology
import ProcessorSymmetry.ProcessorGraph.Symmetry
import ProcessorSymmetry.ProcessorGraph.Record
import ProcessorSymmetry.Architecture.Form
import ProcessorSymmetry.Proofs.ColoredGraph.Automorphisms
import ProcessorSymmetry.Proofs.Mapping.Representative
import ProcessorSymmetry.Proofs.ProcessorGraph.Built
import ProcessorSymmetry.Proofs.ProcessorGraph.Channels
import ProcessorSymmetry.Proofs.ProcessorGraph.Encoding
import ProcessorSymmetry.Proofs.ProcessorGraph.Automorphisms
import ProcessorSymmetry.Proofs.Group.SymmetricRange
import ProcessorSymmetry.Proofs.Mapping.Equivalence
import ProcessorSymmetry.Proofs.Group.WreathProduct
import ProcessorSymmetry.Proofs.ProcessorGraph.Additions
import ProcessorSymmetry.Proofs.UniformSystem.Flattened
import ProcessorSymmetry.Proofs.UniformSystem.Automorphisms
import ProcessorSymmetry.Proofs.UniformSystem.ConnectedClusters
import ProcessorSymmetry.Proofs.Group.IrredundantBase
import ProcessorSymmetry.Proofs.Group.Progress
import ProcessorSymmetry.Proofs.Group.BaseChange
import ProcessorSymmetry.Proofs.Mapping.SearchBeside
import ProcessorSymmetry.Proofs.Mapping.Registry
import ProcessorSymmetry.Proofs.Mapping.RegistryRuns
import ProcessorSymmetry.Proofs.Group.DirectProduct
import ProcessorSymmetry.Proofs.ProcessorGraph.Records
import ProcessorSymmetry.Proofs.Architecture.Built
import ProcessorSymmetry.Proofs.Architecture.RoundTrip
import ProcessorSymmetry.Proofs.Group.WreathOrder
import ProcessorSymmetry.Proofs.ProcessorGraph.Changes
import ProcessorSymmetry.Proofs.Architecture.Forms
import ProcessorSymmetry.Proofs.Architecture.Queries
import ProcessorSymmetry.Proofs.Architecture.Sessions
import ProcessorSymmetry.Proofs.Group.ProductRanges
import ProcessorSymmetry.Proofs.Group.Elements
import ProcessorSymmetry.Proofs.Mapping.ClassCount
import ProcessorSymmetry.Proofs.Architecture.Clusters
import ProcessorSymmetry.Proofs.Mapping.OrbitEnumeration
import ProcessorSymmetry.Proofs.Mapping.OrbitLength
import ProcessorSymmetry.Proofs.Mapping.SymmetricRange
import ProcessorSymmetry.Proofs.RandomStream
import ProcessorSymmetry.Proofs.Group.RandomElements
import ProcessorSymmetry.Proofs.Mapping.Descent
import ProcessorSymmetry.Proofs.Group.Recognition
import ProcessorSymmetry.Proofs.Mapping.Offsets
import ProcessorSymmetry.Proofs.Group.SymmetricLevels
import ProcessorSymmetry.Proofs.ColoredGraph.Stable
import ProcessorSymmetry.Proofs.ColoredGraph.Permuted
import ProcessorSymmetry.Proofs.ColoredGraph.Termination
import ProcessorSymmetry.Proofs.ColoredGraph.GeneratorCount
import ProcessorSymmetry.Proofs.ColoredGraph.Conjugation
import ProcessorSymmetry.Proofs.UniformSystem.ChannelCount
import ProcessorSymmetry.Proofs.Group.Extended
import ProcessorSymmetry.Proofs.ProcessorGraph.Joining
import ProcessorSymmetry.Proofs.ProcessorGraph.Classes
import ProcessorSymmetry.Proofs.Group.BasePoints
import ProcessorSymmetry.Proofs.ColoredGraph.Calls
import ProcessorSymmetry.Proofs.ProcessorGraph.CompositeLabels
import ProcessorSymmetry.Proofs.ProcessorGraph.Grids
import ProcessorSymmetry.Proofs.ProcessorGraph.Meshes
import ProcessorSymmetry.Proofs.Perm.Cycles
import ProcessorSymmetry.Proofs.Group.Sifting
import ProcessorSymmetry.Proofs.Group.Transversals
import ProcessorSymmetry.Proofs.ImageLists
import ProcessorSymmetry.Proofs.Perm.Accepted
import ProcessorSymmetry.Proofs.Mapping.Numbering

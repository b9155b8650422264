import ProcessorSymmetry.UniformSystem

/-!
# Architectures

An architecture is a processor graph, a uniform system, a cluster of independent architectures, or
a bare group of automorphisms. Its automorphism group acts on its processors, and clusters number
their processors part by part.
-/

namespace ProcessorSymmetry

/-- A system of processors with its symmetries. -/
inductive Architecture where
  | graph (g : ProcessorGraph)
  | uniform (s : UniformSystem)
  /-- Independent parts side by side, with the automorphism group if it has been computed since
  the last part was added. -/
  | cluster (parts : List Architecture) (cached : Option PermGroup)
  | group (G : PermGroup)

namespace Architecture

mutual

/-- The number of processors. -/
def processorCount : Architecture → Nat
  | .graph g => g.processorCount
  | .uniform s => s.processorCount
  | .cluster parts _ => processorCountAll parts
  | .group G => G.degree

/-- The number of processors of all parts. -/
def processorCountAll : List Architecture → Nat
  | [] => 0
  | a :: rest => a.processorCount + processorCountAll rest

end

mutual

/-- The number of channels. -/
def channelCount : Architecture → Nat
  | .graph g => g.channelCount
  | .uniform s => s.channelCount
  | .cluster parts _ => channelCountAll parts
  | .group _ => 0

/-- The number of channels of all parts. -/
def channelCountAll : List Architecture → Nat
  | [] => 0
  | a :: rest => a.channelCount + channelCountAll rest

end

mutual

/-- The automorphism group: the remembered one, or else one that is computed. No automorphism of a
cluster moves a processor to another part. -/
def automorphisms : Architecture → PermGroup
  | .graph g => g.automorphisms
  | .uniform s => s.automorphisms
  | .cluster _ (some G) => G
  | .cluster parts none => .directProduct (automorphismsAll parts)
  | .group G => G

/-- The automorphism group of each part. -/
def automorphismsAll : List Architecture → List PermGroup
  | [] => []
  | a :: rest => a.automorphisms :: automorphismsAll rest

end

/-- The architecture that remembers its automorphism group from now on. -/
def remember (a : Architecture) : Architecture :=
  match a with
  | .graph g => .graph g.remember
  | .uniform s => .uniform s.remember
  | .cluster parts _ => .cluster parts (some a.automorphisms)
  | .group G => .group G

/-- Decides whether two architectures have the same automorphism group. -/
def sameAutomorphisms (a b : Architecture) : Bool :=
  a.automorphisms.same b.automorphisms

/-- The architecture reduced to its automorphism group. -/
def expand (a : Architecture) : Architecture :=
  .group a.automorphisms

/-- The cluster of independent parts. -/
def ofParts (parts : List Architecture) : Architecture :=
  .cluster parts none

/-- The parts of a cluster. -/
def parts? : Architecture → Option (List Architecture)
  | .cluster parts _ => some parts
  | _ => none

/-- The cluster with one more part at the end. -/
def addPart? : Architecture → Architecture → Option Architecture
  | .cluster parts _, part => some (.cluster (parts ++ [part]) none)
  | _, _ => none

end Architecture
end ProcessorSymmetry

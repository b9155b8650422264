/-!
# Causes of failure

Everything a caller can do wrong with permutations, groups, task mappings and architectures, and
the text that reports it.
-/

namespace ProcessorSymmetry

/-- One of the two graphs that a uniform system is made of. -/
inductive SystemPart where
  | clusters
  | proto
  deriving DecidableEq, Repr

/-- What the part is called in a report. -/
def SystemPart.label : SystemPart → String
  | .clusters => "super"
  | .proto => "proto"

/-- Why a request is refused. -/
inductive Error where
  /-- Sizes that have to agree differ, or a list of images misses points. -/
  | degreeMismatch (expected actual : Nat)
  /-- A point lies outside of the domain `0..degree`. -/
  | outOfDomain (index degree : Nat)
  /-- A channel names a processor that its graph does not have. -/
  | unknownProcessor (processor count : Nat)
  /-- A part of a uniform system is directed. -/
  | directedPart (part : SystemPart)
  /-- A canonical form describes no architecture. -/
  | malformedForm (cause : Error)
  deriving DecidableEq, Repr

/-- The report of an error. -/
def Error.message : Error → String
  | .degreeMismatch expected actual => s!"Degree mismatch: expected {expected}, got {actual}"
  | .outOfDomain index degree => s!"Index {index} out of domain 0..{degree}"
  | .unknownProcessor processor count =>
    s!"Invalid graph: processor {processor} does not exist, there are {count} processors"
  | .directedPart part =>
    s!"Invalid graph: {part.label} graph of a uniform super graph must be undirected"
  | .malformedForm cause => s!"Deserialization failed: {cause.message}"

/-- Accepts a point of the domain `0..degree`. -/
def checkPoint (degree index : Nat) : Except Error Unit :=
  if index < degree then .ok () else .error (.outOfDomain index degree)

/-- Accepts a list of points if all of them lie in `0..degree`, and reports the first that does not. -/
def checkPoints (degree : Nat) (points : List Nat) : Except Error Unit :=
  points.forM (checkPoint degree)

end ProcessorSymmetry

import ProcessorSymmetry.Architecture.Basic
import ProcessorSymmetry.Perm.Images

/-!
# Canonical forms

A canonical form is plain data that describes an architecture. Every architecture has one, and a
form that does not describe an architecture is refused with the reason.
-/

namespace ProcessorSymmetry

/-- The description of an architecture. -/
inductive Form where
  | graph (record : GraphRecord)
  | uniform (clusters proto : GraphRecord)
  | cluster (parts : List Form)
  | group (degree : Nat) (generators : List (List Nat))

namespace Architecture

mutual

/-- The canonical form of an architecture. -/
def toForm : Architecture → Form
  | .graph g => .graph g.toRecord
  | .uniform s => .uniform s.clusters.toRecord s.proto.toRecord
  | .cluster parts _ => .cluster (toFormAll parts)
  | .group G => .group G.degree (G.generators.map Perm.toList)

/-- The canonical form of each part. -/
def toFormAll : List Architecture → List Form
  | [] => []
  | a :: rest => a.toForm :: toFormAll rest

end

/-- The system of two records. -/
def uniformOfRecords (clusters proto : GraphRecord) : Except Error UniformSystem := do
  let clusters ← ProcessorGraph.ofRecord clusters
  let proto ← ProcessorGraph.ofRecord proto
  (UniformSystem.ofGraphs clusters proto).mapError .malformedForm

/-- The group generated by permutations that are given by their images. -/
def groupOfImages (degree : Nat) (generators : List (List Nat)) : Except Error PermGroup :=
  (do
    let generators ← generators.mapM fun images => do
      let p ← Perm.ofImages images
      return (⟨images.length, p⟩ : AnyPerm)
    PermGroup.ofGenerators degree generators).mapError .malformedForm

mutual

/-- The architecture that a form describes. -/
def ofForm : Form → Except Error Architecture
  | .graph record => return .graph (← ProcessorGraph.ofRecord record)
  | .uniform clusters proto => return .uniform (← uniformOfRecords clusters proto)
  | .cluster parts => return .ofParts (← ofFormAll parts)
  | .group degree generators => return .group (← groupOfImages degree generators)

/-- The architectures that forms describe, refused at the first that describes none. -/
def ofFormAll : List Form → Except Error (List Architecture)
  | [] => return []
  | form :: rest => do
    let a ← ofForm form
    return a :: (← ofFormAll rest)

end

end Architecture
end ProcessorSymmetry

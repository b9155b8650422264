import ProcessorSymmetry.Group.Recognition
import ProcessorSymmetry.Mapping.Registry

/-!
# Representatives of task mappings

Two mappings are equivalent if a group element takes one to the other, and the lexicographically
least member of each class represents it. There are three ways to look for it: greedily through a
stabilizer chain, by walking the orbit, and by local search, which may stop early. All of them may
stop at a mapping that is registered as a representative already.
-/

namespace ProcessorSymmetry

/-- How a representative is looked for. -/
inductive SearchMethod where
  /-- Least images of the distinct processors, one level of a stabilizer chain after the other. -/
  | greedy
  /-- The least mapping of the whole orbit. -/
  | orbit
  /-- Generators as long as they make the mapping smaller. -/
  | descent
  deriving DecidableEq

/-- What one round of local search does. -/
inductive DescentRule where
  /-- Moves to the least image under all generators. -/
  | steepest
  /-- Applies each generator in turn that makes the mapping smaller. -/
  | successive
  deriving DecidableEq

/-- The settings of a search. -/
structure SearchOptions where
  method : SearchMethod := .greedy
  rule : DescentRule := .steepest
  /-- What the number of the first processor is. -/
  offset : Nat := 0
  /-- Whether the search stops at a registered representative. -/
  matchKnown : Bool := true
  /-- Whether a group that is symmetric on a range is treated without a search. -/
  useSymmetricRange : Bool := true
  /-- Whether local search also applies the inverses of the generators. -/
  useInverses : Bool := false
  /-- How many random elements local search applies besides the generators. -/
  randomGenerators : Nat := 0
  /-- The seed of the first random element. -/
  seed : Nat := 0
  deriving DecidableEq

/-- The mapping with all processor numbers raised. -/
def raise (offset : Nat) (mapping : TaskMapping) : TaskMapping :=
  mapping.map (· + offset)

/-- The processors of a mapping whose numbering starts at `offset`. -/
def toProcessors (degree offset : Nat) (mapping : TaskMapping) : Except Error TaskMapping :=
  mapping.mapM fun task =>
    if offset ≤ task ∧ task - offset < degree then
      .ok (task - offset)
    else
      .error (.outOfDomain task (degree + offset))

/-- Renumbers the processors of a range from its start on, in the order of their first
occurrence. -/
def relabel (first last : Nat) (mapping : TaskMapping) : TaskMapping :=
  let inside := fun x => decide (first ≤ x ∧ x < last)
  let order := (mapping.filter inside).eraseDups
  mapping.map fun x => if inside x then first + order.idxOf x else x

/-- The orbit point of a level whose image is least. -/
def Level.leastPoint {n : Nat} (level : Level n) (s : Perm n) : Nat :=
  level.orbit.foldl (fun best x => if s x < s best then x else best) level.base

/-- Multiplies representatives level by level, so that each base point gets its least image, until
the image of the mapping is known. -/
def greedyElement {n : Nat} (known : TaskMapping → Bool) (mapping : TaskMapping) :
    List (Level n) → Perm n → Perm n
  | [], s => s
  | level :: deeper, s =>
    if known (s.permute mapping) then
      s
    else
      let u := (level.representative? (level.leastPoint s)).getD 1
      greedyElement known mapping deeper (u * s)

namespace PermGroup

/-- The image of a mapping under the greedy choice of representatives, on a chain whose base
starts with the processors of the mapping. -/
def greedyImage (G : PermGroup) (known : TaskMapping → Bool) (mapping : TaskMapping) :
    Except Error TaskMapping := do
  if G.isTrivial then
    return mapping
  let points := mapping.eraseDups
  let c ← G.chainWithBase points
  return (greedyElement known mapping (c.levels.take points.length) 1).permute mapping

/-- The least mapping of an orbit, or the first known one on the way through it. -/
def orbitMinimum (G : PermGroup) (known : TaskMapping → Bool) (mapping : TaskMapping) :
    TaskMapping :=
  let walk := (OrbitWalk.start mapping).run G.generators known
    (mappingCount G.degree mapping.length)
  match walk.found[walk.visited]? with
  | some stopped => stopped
  | none => walk.found.foldl (fun least image => if image < least then image else least) mapping

/-- The permutations that local search applies. -/
def descentGenerators (G : PermGroup) (options : SearchOptions) : List (Perm G.degree) :=
  let inverses := if options.useInverses then G.generators.map (·⁻¹) else []
  let drawn := (List.range options.randomGenerators).map fun i =>
    G.randomElement (options.seed + i)
  distinctBy Perm.toList (G.generators ++ inverses ++ drawn)

/-- One round of local search. -/
def descend {n : Nat} (generators : List (Perm n)) (rule : DescentRule) (current : TaskMapping) :
    TaskMapping :=
  generators.foldl (fun best g =>
    let image := g.permute (match rule with | .steepest => current | .successive => best)
    if image < best then image else best) current

/-- Rounds of local search until the mapping is known or a round makes it no smaller. -/
def localMinimum (G : PermGroup) (known : TaskMapping → Bool) (options : SearchOptions)
    (mapping : TaskMapping) : TaskMapping :=
  let generators := G.descentGenerators options
  exhaust (fun current =>
    let next := descend generators options.rule current
    if ¬known current ∧ next < current then some next else none)
    (mappingCount G.degree mapping.length) mapping

/-- Looks for the representative of a mapping, stopping at known representatives. -/
def searchKnown (G : PermGroup) (known : TaskMapping → Bool) (options : SearchOptions)
    (mapping : TaskMapping) : Except Error TaskMapping := do
  let processors ← toProcessors G.degree options.offset mapping
  let known := fun image => known (raise options.offset image)
  let image ← match if options.useSymmetricRange then G.symmetricRange? else none with
    | some (first, last) => pure (relabel first last processors)
    | none =>
      match options.method with
      | .greedy => G.greedyImage known processors
      | .orbit => pure (G.orbitMinimum known processors)
      | .descent => pure (G.localMinimum known options processors)
  return raise options.offset image

/-- The representative of a mapping. -/
def representative (G : PermGroup) (mapping : TaskMapping) (options : SearchOptions) :
    Except Error TaskMapping :=
  G.searchKnown (fun _ => false) options mapping

/-- The representative of a mapping, where a search with a registry may stop at the representatives
in it. -/
def representativeBeside (G : PermGroup) (registry : Registry) (mapping : TaskMapping)
    (options : SearchOptions) : Except Error TaskMapping :=
  G.searchKnown (fun image => options.matchKnown && registry.contains image) options mapping

/-- The representative of a mapping, which is registered. -/
def representativeIn (G : PermGroup) (registry : Registry) (mapping : TaskMapping)
    (options : SearchOptions) : Except Error (TaskMapping × Registry) := do
  let representative ← G.representativeBeside registry mapping options
  return (representative, (registry.insert representative).2)

/-- Registers the class of a mapping. Answers whether it is new, and its number. -/
def insertMapping (G : PermGroup) (registry : Registry) (mapping : TaskMapping)
    (options : SearchOptions) : Except Error ((Bool × Nat) × Registry) := do
  let representative ← G.representativeBeside registry mapping options
  return registry.insert representative

/-- Decides whether two mappings of the same length have the same representative. -/
def equivalent (G : PermGroup) (a b : TaskMapping) (options : SearchOptions) :
    Except Error Bool := do
  if a.length = b.length then
    return (← G.representative a options) == (← G.representative b options)
  else
    throw (.degreeMismatch a.length b.length)

end PermGroup
end ProcessorSymmetry

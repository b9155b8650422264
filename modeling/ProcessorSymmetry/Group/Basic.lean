import ProcessorSymmetry.Group.SchreierSims
import ProcessorSymmetry.Group.SymmetricChain
import ProcessorSymmetry.Perm.Cycles
import ProcessorSymmetry.Perm.Embedding
import ProcessorSymmetry.RandomStream

/-!
# Permutation groups

A group is given by generators and answers questions through a stabilizer chain: order, membership,
elements, orbits, stabilizers.
-/

namespace ProcessorSymmetry

/-- The group generated by permutations of one degree. -/
structure PermGroup where
  degree : Nat
  /-- The generators in the order in which they were given. -/
  generators : List (Perm degree)
  chain : Chain degree
  /-- The chain is built from the generators, or it is the chain of the symmetric group. -/
  chain_eq : chain = .ofGenerators generators [] ∨
    chain = .symmetric degree ∧ generators = chain.strongGenerators

namespace PermGroup

/-- The group that the permutations generate. -/
def generatedBy {n : Nat} (generators : List (Perm n)) : PermGroup where
  degree := n
  generators := generators
  chain := .ofGenerators generators []
  chain_eq := .inl rfl

/-- The group that the permutations generate, refused at the first one of another degree. -/
def ofGenerators (degree : Nat) (generators : List AnyPerm) : Except Error PermGroup := do
  let generators ← generators.mapM fun g =>
    match g.2.ofDegree? degree with
    | some p => .ok p
    | none => .error (.degreeMismatch degree g.1)
  return generatedBy generators

/-- The group of the identity alone. -/
def trivial (degree : Nat) : PermGroup :=
  generatedBy (n := degree) []

/-- The group of all permutations of a degree. -/
def symmetric (degree : Nat) : PermGroup where
  degree := degree
  generators := (Chain.symmetric degree).strongGenerators
  chain := .symmetric degree
  chain_eq := .inr ⟨rfl, rfl⟩

/-- The number of elements. -/
def order (G : PermGroup) : Nat :=
  G.chain.order

/-- Membership. A permutation of another degree is no member. -/
def contains (G : PermGroup) {m : Nat} (p : Perm m) : Bool :=
  match p.ofDegree? G.degree with
  | some p => G.chain.contains p
  | none => false

/-- Decides whether the identity is the only element. -/
def isTrivial (G : PermGroup) : Bool :=
  G.chain.levels.isEmpty

/-- Decides whether two groups have the same elements: they have as many, and one of them contains
the generators of the other. -/
def same (G H : PermGroup) : Bool :=
  G.degree == H.degree && G.order == H.order && H.generators.all (G.contains ·)

/-- Decides whether the chains of two groups agree level by level. -/
def sameChain (G H : PermGroup) : Bool :=
  if h : H.degree = G.degree then G.chain == h ▸ H.chain else false

/-- All images of a point, sorted. -/
def orbitOf (G : PermGroup) (x : Nat) : Except Error (List Nat) := do
  checkPoint G.degree x
  return (Level.ofGenerators x G.generators).orbit.mergeSort

/-- A chain of the group whose base starts with the given points, without repetitions. The stored
chain is answered if its base does so already. -/
def chainWithBase (G : PermGroup) (points : List Nat) : Except Error (Chain G.degree) := do
  checkPoints G.degree points
  if points.eraseDups.isPrefixOf G.chain.base then
    return G.chain
  else
    return .ofGenerators G.chain.strongGenerators points

/-- Draws an orbit point of each level, the first level first. -/
def drawPoints {n : Nat} : List (Level n) → RandomStream → List Nat
  | [], _ => []
  | level :: deeper, stream =>
    let draw := stream.below 64 level.orbitLength
    level.orbit.getD draw.1 level.base :: drawPoints deeper draw.2

/-- The random element that belongs to a seed. -/
def randomElement (G : PermGroup) (seed : Nat) : Perm G.degree :=
  (G.chain.element? (drawPoints G.chain.levels (.ofSeed seed))).getD 1

/-- Degree, order and generators in cycle notation. -/
def text (G : PermGroup) : String :=
  s!"degree {G.degree}, order {G.order}: [" ++ ", ".intercalate (G.generators.map Perm.text) ++ "]"

end PermGroup
end ProcessorSymmetry

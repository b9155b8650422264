import ProcessorSymmetry.Group.SchreierSims
import ProcessorSymmetry.Perm.Embedding

/-!
# Levels and chains of unchecked input

Generators of other degrees, base points outside of the domain and permutations of another degree
are tolerated as long as nothing has to be computed with them. Otherwise there is no answer.
-/

namespace ProcessorSymmetry

namespace Level

variable {n : Nat}

/-- Adds the image of an orbit point under a generator, unless it is known. The point must lie in
the generator's domain, and only a generator of degree `n` can add a point. -/
def meet? (entry : Nat × Perm n) (found : List (Nat × Perm n)) (g : AnyPerm) :
    Option (List (Nat × Perm n)) :=
  if entry.1 < g.1 then
    if found.any (·.1 == g.2 entry.1) then
      some found
    else
      (g.2.ofDegree? n).map (meet entry found)
  else
    none

/-- Visits orbit points in turn, at most `bound` of them. -/
def visitAll? (generators : List AnyPerm) :
    Nat → Nat → List (Nat × Perm n) → Option (List (Nat × Perm n))
  | 0, _, found => some found
  | bound + 1, visited, found =>
    match found[visited]? with
    | none => some found
    | some entry => do
      let found ← generators.foldlM (meet? entry) found
      visitAll? generators bound (visited + 1) found

/-- The orbit of a base point under unchecked generators. The level keeps the generators of its
own degree; the others are seen to discover nothing. -/
def ofGenerators? (degree base : Nat) (generators : List AnyPerm) : Option (Level degree) := do
  let found ← visitAll? generators (degree + 1) 0 [(base, 1)]
  return ⟨base, generators.filterMap fun g => g.2.ofDegree? degree, found⟩

end Level

namespace Chain

variable {n : Nat}

/-- The chain of unchecked generators over unchecked points. Generators other than the identity
must have the right degree. Before a point outside of the domain, the points inside must leave
nothing to do: every generator moves one of them, and no level has a Schreier generator. -/
def ofGenerators? (degree : Nat) (generators : List AnyPerm) (points : List Nat) :
    Option (Chain degree) := do
  let generators ← (generators.filter (!·.2.isIdentity)).mapM fun g => g.2.ofDegree? degree
  let inside := points.takeWhile (· < degree)
  if inside.length < points.length then
    guard (generators.all fun g => inside.any fun b => g b ≠ b)
    guard ((levelsOn generators.eraseDups inside.eraseDups).all (·.schreierGenerators.isEmpty))
  return .ofGenerators generators points

/-- Takes an unchecked permutation back through the levels, as long as the base points that it
meets lie in its domain. One of another degree can only be stopped at the first level. -/
def sift? (c : Chain n) (p : AnyPerm) : Option (AnyPerm × Nat) :=
  match p.2.ofDegree? n with
  | some q =>
    let (residue, passed) := c.sift q
    if (c.base.take (passed + 1)).all (· < n) then some (⟨n, residue⟩, passed) else none
  | none =>
    match c.levels with
    | [] => some (p, 0)
    | level :: _ =>
      if level.base < p.1 ∧ (level.toBase? (p.2 level.base)).isNone then some (p, 0) else none

/-- Membership of an unchecked permutation. -/
def contains? (c : Chain n) (p : AnyPerm) : Option Bool :=
  if p.1 = n then
    (c.sift? p).map fun (residue, passed) => passed == c.levels.length && residue.2.isIdentity
  else
    some false

end Chain
end ProcessorSymmetry

import Mathlib
import ProcessorSymmetry.Proofs.ColoredGraph.Automorphisms

/-!
# The number of generators

Members of a group take points to points of the same orbit.  The search adds an
automorphism only if it takes a vertex out of its orbit under the group generated so
far, which joins two orbits.  At first every vertex is an orbit of its own, so that
there are no more generators than orbits that disappear until the end.
-/

namespace ProcessorSymmetry

namespace Perm

variable {n : Nat} {H K : Subgroup (Perm n)} {generators : List (Perm n)} {p : Perm n}
  {i j : Nat}

/-! ## Orbits of points -/

/-- Some member of the group takes `i` to `j`. -/
def SameOrbit (H : Subgroup (Perm n)) (i j : Nat) : Prop :=
  ∃ q ∈ H, q i = j

/-- The orbits of the points of the domain. -/
def orbits (H : Subgroup (Perm n)) : Setoid (Fin n) where
  r i j := SameOrbit H i j
  iseqv :=
    { refl := fun i => ⟨1, H.one_mem, one_app i⟩
      symm := by
        intro i j hij
        obtain ⟨q, hq, hqi⟩ := hij
        exact ⟨q⁻¹, H.inv_mem hq, q.inv_app_eq_iff.mpr hqi.symm⟩
      trans := by
        intro i j k hij hjk
        obtain ⟨q, hq, hqi⟩ := hij
        obtain ⟨s, hs, hsj⟩ := hjk
        exact ⟨q * s, H.mul_mem hq hs, by rw [mul_app, hqi, hsj]⟩ }

/-- The number of orbits of the points of the domain. -/
noncomputable def orbitCount (H : Subgroup (Perm n)) : Nat :=
  Nat.card (Quotient (orbits H))

/-- Without any generators every point is an orbit of its own. -/
theorem orbitCount_bot : orbitCount (⊥ : Subgroup (Perm n)) = n := by
  have hbijective : Function.Bijective (Quotient.mk (orbits (⊥ : Subgroup (Perm n)))) := by
    refine ⟨?_, Quotient.mk_surjective⟩
    intro i j hij
    have hsame : SameOrbit (⊥ : Subgroup (Perm n)) i j := Quotient.exact hij
    obtain ⟨q, hq, hqi⟩ := hsame
    rw [Subgroup.mem_bot.mp hq, one_app] at hqi
    exact Fin.ext hqi
  calc
    orbitCount (⊥ : Subgroup (Perm n)) = Nat.card (Fin n) :=
      (Nat.card_eq_of_bijective _ hbijective).symm
    _ = n := Nat.card_fin n

theorem orbitCount_pos (H : Subgroup (Perm n)) (hn : 0 < n) : 0 < orbitCount H := by
  have : Nonempty (Quotient (orbits H)) := ⟨Quotient.mk _ ⟨0, hn⟩⟩
  exact Nat.card_pos

/-- A larger group has fewer orbits if two of the smaller one are joined. -/
theorem orbitCount_lt (hle : H ≤ K) (hi : i < n) (hj : j < n) (hapart : ¬SameOrbit H i j)
    (hjoined : SameOrbit K i j) : orbitCount K < orbitCount H := by
  have hmap : orbits H ≤ orbits K := by
    intro a b hab
    obtain ⟨q, hq, hqa⟩ := hab
    exact ⟨q, hle hq, hqa⟩
  let join : Quotient (orbits H) → Quotient (orbits K) := Setoid.map_of_le hmap
  have hsurjective : Function.Surjective join := by
    intro orbit
    obtain ⟨a, rfl⟩ := Quotient.exists_rep orbit
    exact ⟨Quotient.mk _ a, rfl⟩
  by_contra hge
  have hbijective := hsurjective.bijective_of_nat_card_le (Nat.not_lt.mp hge)
  have himage : join (Quotient.mk _ ⟨i, hi⟩) = join (Quotient.mk _ ⟨j, hj⟩) :=
    Quotient.sound hjoined
  exact hapart (Quotient.exact (hbijective.injective himage))

/-! ## Generators that join orbits -/

/-- Each permutation of the list takes some point out of its orbit under the group that
the permutations before it generate. -/
def JoinsOrbits (generators : List (Perm n)) : Prop :=
  ∀ before p after, generators = before ++ p :: after →
    ∃ v < n, ¬SameOrbit (generated before) v (p v)

theorem joinsOrbits_nil : JoinsOrbits ([] : List (Perm n)) := by
  intro before p after heq
  simp at heq

namespace JoinsOrbits

theorem concat (h : JoinsOrbits generators) {v : Nat} (hv : v < n)
    (hnew : ¬SameOrbit (generated generators) v (p v)) : JoinsOrbits (generators ++ [p]) := by
  intro before q after heq
  rcases List.eq_nil_or_concat' after with rfl | ⟨rest, last, rfl⟩
  · obtain ⟨rfl, hlast⟩ := List.append_inj' heq rfl
    obtain rfl := List.singleton_inj.mp hlast
    exact ⟨v, hv, hnew⟩
  · have hsplit : generators ++ [p] = (before ++ q :: rest) ++ [last] := by
      rw [heq, List.append_assoc, List.cons_append]
    exact h before q rest (List.append_inj' hsplit rfl).1

theorem of_concat (h : JoinsOrbits (generators ++ [p])) : JoinsOrbits generators := by
  intro before q after heq
  exact h before q (after ++ [p]) (by simp [heq])

/-- A permutation that takes a point out of its orbit joins this orbit with another one. -/
theorem orbitCount_lt {before after : List (Perm n)}
    (h : JoinsOrbits (before ++ p :: after)) :
    orbitCount (generated (before ++ [p])) < orbitCount (generated before) := by
  obtain ⟨v, hv, hapart⟩ := h before p after rfl
  have hgrow : generated before ≤ generated (before ++ [p]) :=
    generated_mono fun q hq => List.mem_append_left _ hq
  have hp : p ∈ generated (before ++ [p]) :=
    subset_generated (List.mem_append_right _ List.mem_cons_self)
  exact Perm.orbitCount_lt hgrow hv (p.app_lt hv) hapart ⟨p, hp, rfl⟩

theorem length_add_orbitCount_le (h : JoinsOrbits generators) :
    generators.length + orbitCount (generated generators) ≤ n := by
  induction generators using List.reverseRecOn with
  | nil => simp [orbitCount_bot]
  | append_singleton generators p ih =>
      have hbefore := ih h.of_concat
      have hlt := h.orbitCount_lt
      rw [List.length_append, List.length_singleton]
      omega

end JoinsOrbits
end Perm

/-! ## Generators found by the search -/

namespace ColoredGraph

open Perm Refiner

variable {g : ColoredGraph} {colors : Coloring} {deeper : List Coloring} {v : Nat}

/-- The generators found at a node, with the orbit of the vertex individualized there. -/
structure JoinedAt (v : Nat) (found : List (Perm g.size) × List Nat) : Prop where
  joins : JoinsOrbits found.1
  orbit_eq : found.2 = (Level.ofGenerators v found.1).orbit

theorem joinedAt_orbit {generators : List (Perm g.size)} (h : JoinsOrbits generators) (v : Nat) :
    JoinedAt v (generators, (Level.ofGenerators v generators).orbit) :=
  ⟨h, rfl⟩

theorem JoinedAt.add {found : List (Perm g.size) × List Nat} (h : JoinedAt v found)
    (hv : v < g.size) {p : Perm g.size} (hnew : p v ∉ found.2) :
    JoinedAt v (found.1 ++ [p], (Level.ofGenerators v (found.1 ++ [p])).orbit) where
  joins := by
    apply h.joins.concat hv
    intro hsame
    have hmem := (Level.isOrbitOf_ofGenerators v found.1).mem_orbit_iff.mpr hsame
    exact hnew (h.orbit_eq ▸ hmem)
  orbit_eq := rfl

/-- Every generator that is found along a path joins orbits. -/
theorem joinsOrbits_generatorsAlong (hg : g.WellFormed) (hcolors : g.refiner.IsNode colors)
    (hpath : g.refiner.IsPath (colors :: deeper)) :
    JoinsOrbits (g.generatorsAlong g.refiner (colors :: deeper)) := by
  generalize hwhole : colors :: deeper = path at hpath
  induction hpath generalizing colors deeper with
  | leaf hnone =>
      simp only [generatorsAlong, hnone]
      exact joinsOrbits_nil
  | @node start v rest deeper hsome next ih =>
      obtain ⟨rfl, -⟩ := List.cons.inj hwhole
      have hbelow := ih (hcolors.individualize v) rfl
      obtain ⟨hv, -⟩ := (hcolors.mem_target_iff hsome).mp List.mem_cons_self
      rw [generatorsAlong, hsome]
      refine (List.foldlRecOn (v :: rest) _ (joinedAt_orbit hbelow v) ?_).joins
      intro found hfound w hw
      obtain ⟨hwlt, hwv⟩ := (hcolors.mem_target_iff hsome).mp hw
      rcases tryVertex_cases hg hcolors next hv hwlt hwv found with
        ⟨hkept, -⟩ | ⟨p, -, rfl, hnew, hadded⟩
      · rw [hkept]
        exact hfound
      · rw [hadded]
        exact hfound.add hv hnew

theorem joinsOrbits_generatorsBySearch (hg : g.WellFormed) : JoinsOrbits g.generatorsBySearch := by
  obtain ⟨deeper, hpath, hsearch⟩ := exists_isPath_generatorsBySearch g
  rw [hsearch]
  exact joinsOrbits_generatorsAlong hg (isNode_initial g) hpath

/-- Each generator that the search adds takes some vertex out of its orbit under the group
generated so far and leaves fewer orbits, until the whole automorphism group is generated.
Hence there are at most as many generators as the vertices outnumber the orbits of this
group, and fewer than vertices. -/
theorem length_generators_add_orbitCount_le (hg : g.WellFormed) :
    (∀ before p after, g.generators .search = before ++ p :: after →
      (∃ v < g.size, ¬SameOrbit (generated before) v (p v)) ∧
        orbitCount (generated (before ++ [p])) < orbitCount (generated before)) ∧
    generated (g.generators .search) = g.automorphismGroup ∧
    (g.generators .search).length + orbitCount g.automorphismGroup ≤ g.size ∧
    (1 ≤ g.size → (g.generators .search).length ≤ g.size - 1) := by
  have hjoins : JoinsOrbits (g.generators .search) := joinsOrbits_generatorsBySearch hg
  have hwhole := generated_generators hg .search
  have hcount := hjoins.length_add_orbitCount_le
  rw [hwhole] at hcount
  refine ⟨?_, hwhole, hcount, ?_⟩
  · intro before p after heq
    exact ⟨hjoins before p after heq, (heq ▸ hjoins).orbitCount_lt⟩
  · intro hsize
    have hpos := orbitCount_pos g.automorphismGroup hsize
    omega

/-- Both bounds are met on a complete graph, whose vertices are all in one orbit. -/
theorem length_generators_add_orbitCount_le_complete :
    let g := (ofColors false [0, 0, 0, 0]).addEdges
      [((0, 1), 0), ((0, 2), 0), ((0, 3), 0), ((1, 2), 0), ((1, 3), 0), ((2, 3), 0)]
    g.WellFormed ∧ g.size = 4 ∧ (g.generators .search).length = 3 ∧
      orbitCount g.automorphismGroup = 1 ∧ (g.generators .search).length ≤ g.size - 1 := by
  intro g
  have hg : g.WellFormed := (wellFormed_ofColors false [0, 0, 0, 0]).addEdges (by decide)
  have hsize : g.size = 4 := by simp [g]
  have hlength : (g.generators .search).length = 3 := by cbv
  obtain ⟨-, -, hcount, hfewer⟩ := length_generators_add_orbitCount_le hg
  have hpos : 0 < orbitCount g.automorphismGroup :=
    orbitCount_pos g.automorphismGroup (by omega)
  exact ⟨hg, hsize, hlength, by omega, hfewer (by omega)⟩

end ColoredGraph
end ProcessorSymmetry

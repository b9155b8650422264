import ProcessorSymmetry.Proofs.ColoredGraph.Automorphisms
import ProcessorSymmetry.Proofs.ColoredGraph.Permuted

/-!
# Permuted graphs and their automorphisms

A well-formed graph is determined by its colors and by looking edges up, so that names
of vertices lead to one graph.  Hence permuting twice is permuting once, a permutation
is an automorphism if it leaves the graph as it is, and the automorphisms of a permuted
graph are the conjugates of those of the graph.
-/

namespace ProcessorSymmetry
namespace ColoredGraph

variable {n : Nat} {g h k : ColoredGraph} {p q : Perm n}

/-! ## Graphs that say the same -/

/-- Targets ascend, so that lists of edges with the same edges are the same. -/
theorem WellFormed.edgesFrom_eq (hg : g.WellFormed) (hh : h.WellFormed) {i : Nat}
    (hedges : ∀ j, g.edge? i j = h.edge? i j) : g.edgesFrom i = h.edgesFrom i := by
  have hperm : (g.edgesFrom i).Perm (h.edgesFrom i) := by
    rw [List.perm_ext_iff_of_nodup (hg.nodup_edgesFrom i) (hh.nodup_edgesFrom i)]
    rintro ⟨j, c⟩
    rw [hg.mem_edgesFrom_iff, hh.mem_edgesFrom_iff, hedges]
  refine hperm.eq_of_pairwise ?_ (hg.ascending i) (hh.ascending i)
  intro a b _ _ hab hba
  exact absurd hba (Nat.lt_asymm hab)

/-- Well-formed graphs with the same colors and edges are the same. -/
theorem WellFormed.ext (hg : g.WellFormed) (hh : h.WellFormed) (hsize : g.size = h.size)
    (hdirected : g.directed = h.directed) (hcolors : ∀ i, g.color i = h.color i)
    (hedges : ∀ i j, g.edge? i j = h.edge? i j) : g = h := by
  have hcolors' : g.colors = h.colors := Coloring.ext_getD hsize fun i _ => hcolors i
  have htargets : g.targets = h.targets := by
    have hsizes : g.targets.size = h.targets.size :=
      hg.targets_size.trans (hsize.trans hh.targets_size.symm)
    apply Array.ext hsizes
    intro i hi hi'
    have hlists := hg.edgesFrom_eq hh (hedges i)
    simpa [edgesFrom, Array.getD_eq_getD_getElem?, hi, hi'] using hlists
  cases g
  cases h
  rw [ColoredGraph.mk.injEq]
  exact ⟨hdirected, hcolors', htargets⟩

/-- Names of vertices lead to one graph only. -/
theorem Relabels.unique (hh : h.WellFormed) (hk : k.WellFormed) (hp : g.Relabels p h)
    (hp' : g.Relabels p k) : h = k := by
  apply hh.ext hk
  · exact hp.image_size_eq.trans hp'.image_size_eq.symm
  · exact hp.directed_eq.trans hp'.directed_eq.symm
  · intro i
    rw [← p.app_inv_app i, hp.color_eq, hp'.color_eq]
  · intro i j
    rw [← p.app_inv_app i, ← p.app_inv_app j, hp.edge?_eq, hp'.edge?_eq]

/-! ## Permuting graphs -/

namespace WellFormed

theorem relabels_permuted_of_size (hg : g.WellFormed) (hsize : g.size = n) (p : Perm n) :
    g.Relabels p (g.permuted p) := by
  subst hsize
  exact hg.relabels_permuted p

theorem permuted_of_size (hg : g.WellFormed) (hsize : g.size = n) (p : Perm n) :
    (g.permuted p).WellFormed := by
  subst hsize
  exact hg.permuted p

theorem permuted?_of_size (hg : g.WellFormed) (hsize : g.size = n) (p : Perm n) :
    g.permuted? ⟨n, p⟩ = some (g.permuted p) := by
  subst hsize
  exact hg.permuted?_eq p

/-- Permuting twice is permuting by the product. -/
theorem permuted_permuted (hg : g.WellFormed) (hsize : g.size = n) (p q : Perm n) :
    (g.permuted p).permuted q = g.permuted (p * q) := by
  have hp := hg.relabels_permuted_of_size hsize p
  have hformed := hg.permuted_of_size hsize p
  have hq := hformed.relabels_permuted_of_size hp.image_size_eq q
  have hpq := hg.relabels_permuted_of_size hsize (p * q)
  exact (hp.mul hq).unique (hformed.permuted_of_size hp.image_size_eq q)
    (hg.permuted_of_size hsize (p * q)) hpq

/-- A permutation names the vertices of a graph so that the same graph arises exactly if
permuting leaves the graph as it is. -/
theorem relabels_iff_permuted_eq (hg : g.WellFormed) (hsize : g.size = n) :
    g.Relabels p g ↔ g.permuted p = g := by
  have hp := hg.relabels_permuted_of_size hsize p
  constructor
  · intro hself
    exact hp.unique (hg.permuted_of_size hsize p) hg hself
  · intro heq
    rwa [heq] at hp

theorem isAutomorphism?_eq (hg : g.WellFormed) (p : Perm g.size) :
    g.isAutomorphism? ⟨g.size, p⟩ = some (g.isAutomorphism p) := by
  have hdegree : p.ofDegree? g.size = some p := by simp [Perm.ofDegree?]
  cases hcolors : g.keepsColors p with
  | true => simp [isAutomorphism?, isAutomorphism, hdegree, hcolors, hg.isClosed]
  | false => simp [isAutomorphism?, isAutomorphism, hdegree, hcolors]

end WellFormed

/-- The relabellings of a renamed graph onto itself are those of the graph under new names. -/
theorem Relabels.conj_iff (hp : g.Relabels p h) :
    h.Relabels q h ↔ ∃ a, g.Relabels a g ∧ q = p⁻¹ * a * p := by
  constructor
  · intro hq
    refine ⟨p * q * p⁻¹, (hp.mul hq).mul hp.inv, ?_⟩
    rw [mul_assoc p q, inv_mul_cancel_left, inv_mul_cancel_right]
  · rintro ⟨a, ha, rfl⟩
    exact (hp.inv.mul ha).mul hp

/-- Permuting twice is permuting by the product, and the automorphisms are the permutations
that leave the graph as it is.  The group found by the search in the permuted graph has
the conjugates of the members of the group found in the graph as its members. -/
theorem permuted_mul_and_conjugates (hg : g.WellFormed) (p q : Perm g.size) :
    g.permuted? ⟨g.size, p⟩ = some (g.permuted p) ∧
    (g.permuted p).permuted? ⟨g.size, q⟩ = some (g.permuted (p * q)) ∧
    g.isAutomorphism? ⟨g.size, p⟩ = some (decide (g.permuted p = g)) ∧
    ∀ b : AnyPerm,
      (PermGroup.generatedBy ((g.permuted p).generators .search)).contains b.2 = true ↔
        ∃ a : Perm g.size, (PermGroup.generatedBy (g.generators .search)).contains a = true ∧
          b = ⟨g.size, p⁻¹ * a * p⟩ := by
  have hp := hg.relabels_permuted p
  have hformed := hg.permuted p
  refine ⟨hg.permuted?_eq p, ?_, ?_, ?_⟩
  · rw [hformed.permuted?_of_size hp.image_size_eq, hg.permuted_permuted rfl]
  · have hauto : g.isAutomorphism p = true ↔ g.permuted p = g :=
      hg.isAutomorphism_iff.trans (hg.relabels_iff_permuted_eq rfl)
    rw [hg.isAutomorphism?_eq, Bool.eq_iff_iff.mpr (hauto.trans decide_eq_true_iff.symm)]
  · rintro ⟨m, b⟩
    rw [hformed.contains_generators_iff]
    constructor
    · intro hb
      obtain rfl : m = g.size := hb.size_eq.symm.trans hp.image_size_eq
      obtain ⟨a, ha, heq⟩ := hp.conj_iff.mp hb
      exact ⟨a, (hg.contains_generators_iff .search).mpr ha, congrArg (Sigma.mk _) heq⟩
    · rintro ⟨a, ha, heq⟩
      obtain ⟨rfl, hb⟩ := Sigma.mk.inj heq
      have hself := (hg.contains_generators_iff .search).mp ha
      exact hp.conj_iff.mpr ⟨a, hself, eq_of_heq hb⟩

/-- On a directed ring whose edges have two colors in turn, the half turn is an automorphism.
Exchanging two neighbours is none, and it takes the half turn to an automorphism of the
permuted graph. -/
theorem permuted_mul_and_conjugates_ring :
    let g := (ofColors true [5, 5, 5, 5]).addEdges
      [((0, 1), 0), ((1, 2), 1), ((2, 3), 0), ((3, 0), 1)]
    let p := Perm.swap g.size 0 3
    let turn := Perm.swap g.size 0 2 * Perm.swap g.size 1 3
    g.WellFormed ∧ g.isAutomorphism? ⟨g.size, p⟩ = some false ∧
      (g.permuted p).permuted? ⟨g.size, p⟩ = some g ∧
      (PermGroup.generatedBy ((g.permuted p).generators .search)).contains
        (p⁻¹ * turn * p) = true := by
  intro g p turn
  have hg : g.WellFormed := (wellFormed_ofColors true [5, 5, 5, 5]).addEdges (by decide)
  have hother : g.permuted p ≠ g := by decide +kernel
  have hback : g.permuted (p * p) = g := by decide +kernel
  have hturn : (PermGroup.generatedBy (g.generators .search)).contains turn = true := by
    decide +kernel
  obtain ⟨-, htwice, hauto, hconjugates⟩ := permuted_mul_and_conjugates hg p p
  have hnone : g.isAutomorphism? ⟨g.size, p⟩ = some false := by
    rw [hauto, decide_eq_false hother]
  rw [hback] at htwice
  have hmember := (hconjugates ⟨g.size, p⁻¹ * turn * p⟩).mpr ⟨turn, hturn, rfl⟩
  exact ⟨hg, hnone, htwice, hmember⟩

end ColoredGraph
end ProcessorSymmetry

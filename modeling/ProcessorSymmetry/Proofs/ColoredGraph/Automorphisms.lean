import ProcessorSymmetry.Proofs.ColoredGraph.Building
import ProcessorSymmetry.Proofs.ColoredGraph.Search
import ProcessorSymmetry.Proofs.Group.Membership

/-!
# Generators of automorphism groups

Whether automorphisms are searched for or all permutations are tried out, the
generators are automorphisms other than the identity, and every automorphism is
a product of them.
-/

namespace ProcessorSymmetry
namespace ColoredGraph

open Perm

variable {g : ColoredGraph} {p : Perm g.size}

/-! ## Trying out permutations -/

/-- Vertices that are sent by an automorphism fit. -/
theorem fits_of_automorphism (hp : p ∈ g.automorphismGroup) (k : Nat) :
    g.fits ((List.range k).map p) (p k) = true := by
  rw [fits, List.length_map, List.length_range, Bool.and_eq_true, List.all_eq_true]
  constructor
  · rw [beq_iff_eq, hp.color_eq]
  · rintro ⟨y, j⟩ hj
    have hget := List.mk_mem_zipIdx_iff_getElem?.mp hj
    rw [List.getElem?_map] at hget
    obtain ⟨x, hx, rfl⟩ := Option.map_eq_some_iff.mp hget
    obtain ⟨hjk, rfl⟩ := List.getElem?_eq_some_iff.mp hx
    rw [List.getElem_range]
    simp [hp.edge?_eq]

theorem toList_mem_completions (hp : p ∈ g.automorphismGroup) {missing : Nat}
    {k : Nat} (hk : k + missing = g.size) {unused : List Nat}
    (hunused : ∀ x, k ≤ x → x < g.size → p x ∈ unused) :
    p.toList ∈ g.completions ((List.range k).map p) missing unused := by
  induction missing generalizing k unused with
  | zero =>
      obtain rfl : k = g.size := hk
      exact List.mem_singleton.mpr rfl
  | succ missing ih =>
      rw [completions, List.mem_flatMap]
      refine ⟨p k, List.mem_filter.mpr ⟨hunused k (Nat.le_refl k) (by omega), ?_⟩, ?_⟩
      · exact fits_of_automorphism hp k
      · have hrest : ∀ x, k + 1 ≤ x → x < g.size → p x ∈ unused.erase (p k) := by
          intro x hx hxn
          have hne : p x ≠ p k := by
            intro heq
            have := p.app_injective heq
            omega
          exact (List.mem_erase_of_ne hne).mpr (hunused x (by omega) hxn)
        have hnext := ih (by omega) hrest
        rwa [List.range_succ, List.map_append] at hnext

theorem mem_generatorsByTrial_iff (hg : g.WellFormed) :
    p ∈ g.generatorsByTrial ↔ p ≠ 1 ∧ p ∈ g.automorphismGroup := by
  rw [generatorsByTrial, List.mem_filter, Bool.and_eq_true, hg.isAutomorphism_iff,
    Bool.not_eq_true', ← Bool.not_eq_true, isIdentity_iff]
  constructor
  · exact And.right
  · rintro ⟨hne, hp⟩
    refine ⟨?_, hne, hp⟩
    rw [List.mem_filterMap]
    refine ⟨p.toList, ?_, permOfImages?_eq_some_iff.mpr rfl⟩
    apply toList_mem_completions hp (Nat.zero_add g.size)
    intro x _ hx
    exact List.mem_range.mpr (p.app_lt hx)

theorem generated_generatorsByTrial (hg : g.WellFormed) :
    generated g.generatorsByTrial = g.automorphismGroup := by
  apply le_antisymm
  · exact generated_le.mpr fun q hq => ((mem_generatorsByTrial_iff hg).mp hq).2
  · intro q hq
    by_cases hone : q = 1
    · rw [hone]
      exact Subgroup.one_mem _
    · exact subset_generated ((mem_generatorsByTrial_iff hg).mpr ⟨hone, hq⟩)

/-! ## Both finders -/

theorem generators_ne_one (hg : g.WellFormed) (finder : AutomorphismFinder) :
    ∀ q ∈ g.generators finder, q ≠ 1 := by
  cases finder with
  | search => exact (generatorsBySearch_spec hg).1
  | trial => exact fun q hq => ((mem_generatorsByTrial_iff hg).mp hq).1

theorem generated_generators (hg : g.WellFormed) (finder : AutomorphismFinder) :
    generated (g.generators finder) = g.automorphismGroup := by
  cases finder with
  | search => exact (generatorsBySearch_spec hg).2
  | trial => exact generated_generatorsByTrial hg

/-- The group that the generators generate contains what relabels the graph onto itself. -/
theorem WellFormed.contains_generators_iff (hg : g.WellFormed) (finder : AutomorphismFinder)
    {m : Nat} {q : Perm m} :
    (PermGroup.generatedBy (g.generators finder)).contains q = true ↔ g.Relabels q g := by
  rw [PermGroup.contains_iff]
  constructor
  · rintro ⟨rfl, hq⟩
    exact (generated_generators hg finder).le hq
  · intro hq
    obtain rfl := hq.size_eq
    exact ⟨rfl, (generated_generators hg finder).ge hq⟩

/-- The search answers with automorphisms other than the identity, every
automorphism is a product of them, and trying out all permutations gives an
equal group. -/
theorem search_generators_spec (hg : g.WellFormed) :
    (∀ q ∈ g.generators .search, q ≠ 1 ∧ g.isAutomorphism q = true) ∧
      (∀ q, g.isAutomorphism q = true ↔ IsProductOf (g.generators .search) q) ∧
      (PermGroup.generatedBy (g.generators .search)).same
        (.generatedBy (g.generators .trial)) = true := by
  have hsearch := generated_generators hg .search
  refine ⟨?_, ?_, ?_⟩
  · intro q hq
    refine ⟨generators_ne_one hg .search q hq, hg.isAutomorphism_iff.mpr ?_⟩
    rw [← hsearch]
    exact subset_generated hq
  · intro q
    rw [hg.isAutomorphism_iff, ← hsearch, mem_generated_iff]
  · exact PermGroup.same_generatedBy (hsearch.trans (generated_generators hg .trial).symm)

theorem search_generators_spec_exchange :
    let g := ((ofColors false [0, 0, 1]).addEdge 0 2 5).addEdge 1 2 5
    g.WellFormed ∧ IsProductOf (g.generators .search) (swap 3 0 1) ∧
      (∀ q ∈ g.generators .search, q ≠ 1 ∧ g.isAutomorphism q = true) ∧
      (PermGroup.generatedBy (g.generators .search)).same
        (.generatedBy (g.generators .trial)) = true := by
  intro g
  have hg : g.WellFormed :=
    ((wellFormed_ofColors false [0, 0, 1]).addEdge (by decide) (by decide)).addEdge
      (by decide) (by decide)
  obtain ⟨hauto, hproduct, hsame⟩ := search_generators_spec hg
  exact ⟨hg, (hproduct (swap 3 0 1)).mp (by decide), hauto, hsame⟩

end ColoredGraph
end ProcessorSymmetry

import Mathlib.GroupTheory.SpecificGroups.Alternating
import ProcessorSymmetry.Proofs.Perm.Counting

/-!
# Even permutations

A permutation is even if it is a product of an even number of exchanges of two
points.  On at least two points half of the permutations are even, and the even ones
are the only subgroup with half of the permutations.
-/

namespace ProcessorSymmetry
namespace Perm

variable {n : Nat}

/-- The exchange of two different points. -/
def IsExchange (p : Perm n) : Prop :=
  ∃ i j, i < n ∧ j < n ∧ i ≠ j ∧ p = swap n i j

/-- A product of an even number of exchanges. -/
def IsEven (p : Perm n) : Prop :=
  ∃ exchanges : List (Perm n), (∀ s ∈ exchanges, s.IsExchange) ∧ Even exchanges.length ∧
    exchanges.prod = p

/-! ## Bijections -/

/-- Products are read from left to right, so that a permutation corresponds to the
bijection that undoes it. -/
def toMulEquiv : Perm n ≃* Equiv.Perm (Fin n) where
  toEquiv := (Equiv.inv (Perm n)).trans toEquiv
  map_mul' := by
    intro p q
    ext i
    change (toEquiv (p * q)⁻¹ i : Nat) = toEquiv p⁻¹ (toEquiv q⁻¹ i)
    rw [mul_inv_rev, toEquiv_apply, mul_app, toEquiv_apply, toEquiv_apply]

theorem toMulEquiv_apply (p : Perm n) (i : Fin n) : (toMulEquiv p i : Nat) = p⁻¹ i :=
  toEquiv_apply p⁻¹ i

theorem swap_inv {i j : Nat} (hi : i < n) (hj : j < n) : (swap n i j)⁻¹ = swap n i j := by
  apply inv_eq_of_mul_eq_one_right
  apply ext
  intro x _
  rw [mul_app, swap_app hi hj, swap_app hi hj, one_app]
  (repeat' split) <;> omega

theorem toMulEquiv_swap (i j : Fin n) : toMulEquiv (swap n i j) = Equiv.swap i j := by
  ext x
  rw [toMulEquiv_apply, swap_inv i.isLt j.isLt, swap_app i.isLt j.isLt, Equiv.swap_apply_def]
  simp only [Fin.ext_iff]
  (repeat' split) <;> rfl

theorem isSwap_toMulEquiv_iff {p : Perm n} : (toMulEquiv p).IsSwap ↔ p.IsExchange := by
  constructor
  · rintro ⟨i, j, hij, h⟩
    refine ⟨i, j, i.isLt, j.isLt, fun heq => hij (Fin.ext heq), ?_⟩
    rwa [← toMulEquiv_swap, toMulEquiv.injective.eq_iff] at h
  · rintro ⟨i, j, hi, hj, hij, rfl⟩
    exact ⟨⟨i, hi⟩, ⟨j, hj⟩, fun heq => hij (congrArg Fin.val heq), toMulEquiv_swap ⟨i, hi⟩ ⟨j, hj⟩⟩

/-! ## The subgroup of the even permutations -/

/-- The even permutations, by their sign. -/
def evenPerms (n : Nat) : Subgroup (Perm n) :=
  (alternatingGroup (Fin n)).comap toMulEquiv.toMonoidHom

/-- Whichever exchanges have a permutation as their product, their number is even for
an even permutation and odd for any other. -/
theorem prod_mem_evenPerms_iff {exchanges : List (Perm n)} (h : ∀ s ∈ exchanges, s.IsExchange) :
    exchanges.prod ∈ evenPerms n ↔ Even exchanges.length := by
  have hswaps : ∀ e ∈ exchanges.map toMulEquiv, e.IsSwap := by
    intro e he
    obtain ⟨s, hs, rfl⟩ := List.mem_map.mp he
    exact isSwap_toMulEquiv_iff.mpr (h s hs)
  change toMulEquiv exchanges.prod ∈ alternatingGroup (Fin n) ↔ _
  rw [map_list_prod, Equiv.Perm.prod_list_swap_mem_alternatingGroup_iff_even_length hswaps,
    List.length_map]

theorem exists_exchanges (p : Perm n) :
    ∃ exchanges : List (Perm n), (∀ s ∈ exchanges, s.IsExchange) ∧ exchanges.prod = p := by
  obtain ⟨swaps, hprod, hswaps⟩ := (Equiv.Perm.truncSwapFactors (toMulEquiv p)).out
  refine ⟨swaps.map toMulEquiv.symm, ?_, ?_⟩
  · intro s hs
    obtain ⟨e, he, rfl⟩ := List.mem_map.mp hs
    rw [← isSwap_toMulEquiv_iff, MulEquiv.apply_symm_apply]
    exact hswaps e he
  · rw [← map_list_prod, hprod, MulEquiv.symm_apply_apply]

theorem mem_evenPerms_iff {p : Perm n} : p ∈ evenPerms n ↔ p.IsEven := by
  constructor
  · intro hp
    obtain ⟨exchanges, hexchanges, rfl⟩ := exists_exchanges p
    exact ⟨exchanges, hexchanges, (prod_mem_evenPerms_iff hexchanges).mp hp, rfl⟩
  · rintro ⟨exchanges, hexchanges, heven, rfl⟩
    exact (prod_mem_evenPerms_iff hexchanges).mpr heven

/-! ## Half of the permutations -/

theorem card_perms (n : Nat) : Nat.card (Perm n) = factorial n := by
  rw [Nat.card_congr toEquiv, Nat.card_perm, Nat.card_fin, factorial_eq]

theorem index_evenPerms (hn : 2 ≤ n) : (evenPerms n).index = 2 := by
  have : Nontrivial (Fin n) := Fin.nontrivial_iff_two_le.mpr hn
  rw [evenPerms, Subgroup.index_comap_of_surjective _ toMulEquiv.surjective,
    alternatingGroup.index_eq_two]

/-- Only the even permutations are half of all permutations. -/
theorem eq_evenPerms_of_index {H : Subgroup (Perm n)} (h : H.index = 2) : H = evenPerms n := by
  have hindex : (H.comap (toMulEquiv (n := n)).symm.toMonoidHom).index = 2 := by
    rw [Subgroup.index_comap_of_surjective _ (toMulEquiv (n := n)).symm.surjective, h]
  rw [evenPerms, ← Equiv.Perm.eq_alternatingGroup_of_index_eq_two hindex]
  ext p
  simp

theorem index_eq_two_iff_card (hn : 2 ≤ n) (H : Subgroup (Perm n)) :
    H.index = 2 ↔ Nat.card H = factorial n / 2 := by
  have hcard : Nat.card H * H.index = factorial n := by
    rw [Subgroup.card_mul_index, card_perms]
  have hpos : 0 < factorial n / 2 := by
    rw [factorial_eq]
    exact Nat.div_pos (hn.trans (Nat.self_le_factorial n)) two_pos
  constructor
  · intro hindex
    rw [hindex] at hcard
    omega
  · intro hhalf
    have heven : factorial n / 2 * 2 = factorial n := by
      rw [factorial_eq]
      exact Nat.div_mul_cancel (Nat.dvd_factorial two_pos hn)
    rw [hhalf, ← heven] at hcard
    exact Nat.eq_of_mul_eq_mul_left hpos (by simpa using hcard)

/-- On at least two points, the even permutations are told by their number. -/
theorem eq_evenPerms_iff_card (hn : 2 ≤ n) (H : Subgroup (Perm n)) :
    H = evenPerms n ↔ Nat.card H = factorial n / 2 := by
  rw [← index_eq_two_iff_card hn]
  constructor
  · rintro rfl
    exact index_evenPerms hn
  · exact eq_evenPerms_of_index

end Perm
end ProcessorSymmetry

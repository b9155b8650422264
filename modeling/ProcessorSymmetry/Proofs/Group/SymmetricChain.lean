import ProcessorSymmetry.Group.SymmetricChain
import ProcessorSymmetry.Proofs.Group.StabilizerChain

/-!
# The chain of the symmetric group

The closed form of the chain is a stabilizer chain of the group of all
permutations: exchanging neighbours generates whatever fixes the points before
them, and a rotation takes one such exchange to the next.
-/

namespace ProcessorSymmetry

open Perm

variable {n : Nat}

namespace Perm

@[simp] theorem swap_self (n i : Nat) : swap n i i = 1 := by
  apply ext
  intro x hx
  by_cases hi : i < n
  · rw [swap_app hi hi, one_app]
    split <;> simp_all
  · rw [swap, ofFn_app hx]
    simp [hi]

theorem rotation_app {i x : Nat} (hx : x < n) :
    rotation n i x = if x < i then x else if x + 1 = n then i else x + 1 :=
  ofFn_app hx

/-- The permutations that fix every point before `i`. -/
def fixingBelow (n i : Nat) : Subgroup (Perm n) :=
  ⨅ x : {x // x < i}, fixing x.1

theorem mem_fixingBelow {i : Nat} {p : Perm n} :
    p ∈ fixingBelow n i ↔ ∀ x < i, p x = x := by
  simp [fixingBelow, Subgroup.mem_iInf]

theorem fixingBelow_zero : fixingBelow n 0 = ⊤ := by
  rw [eq_top_iff]
  intro p _
  rw [mem_fixingBelow]
  intro x hx
  exact absurd hx (Nat.not_lt_zero x)

theorem fixingBelow_succ (i : Nat) :
    fixingBelow n (i + 1) = fixingBelow n i ⊓ fixing i := by
  ext p
  rw [Subgroup.mem_inf, mem_fixingBelow, mem_fixingBelow, mem_fixing]
  constructor
  · intro h
    exact ⟨fun x hx => h x (Nat.lt_succ_of_lt hx), h i (Nat.lt_succ_self i)⟩
  · rintro ⟨hbelow, hi⟩ x hx
    rcases Nat.lt_succ_iff_lt_or_eq.mp hx with hx | rfl
    · exact hbelow x hx
    · exact hi

/-- A permutation that fixes every point but the last fixes that one, too. -/
theorem fixingBelow_eq_bot {i : Nat} (h : n ≤ i + 1) : fixingBelow n i = ⊥ := by
  rw [eq_bot_iff]
  intro p hp
  rw [Subgroup.mem_bot]
  rw [mem_fixingBelow] at hp
  apply ext
  intro x hx
  rw [one_app]
  by_contra hmoved
  have hlast : ∀ y, y < n → p y ≠ y → y = i := by
    intro y hy hne
    by_contra hyi
    exact hne (hp y (by omega))
  have himage : p (p x) ≠ p x := fun heq => hmoved (p.app_injective heq)
  have hpx := hlast (p x) (p.app_lt hx) himage
  have hxi := hlast x hx hmoved
  exact hmoved (by rw [hpx, hxi])

/-- The image of `i` under a permutation that fixes the points before it. -/
theorem le_app_of_mem_fixingBelow {i : Nat} {p : Perm n} (hp : p ∈ fixingBelow n i) :
    i ≤ p i := by
  by_contra hlt
  have hfix := mem_fixingBelow.mp hp (p i) (Nat.lt_of_not_le hlt)
  have := p.app_injective hfix
  omega

/-! ## Exchanging neighbours -/

theorem swap_mem_fixingBelow {i j k : Nat} (hj : i ≤ j) (hk : i ≤ k) (hjn : j < n)
    (hkn : k < n) : swap n j k ∈ fixingBelow n i := by
  rw [mem_fixingBelow]
  intro x hx
  rw [swap_app hjn hkn, if_neg (by omega), if_neg (by omega)]

/-- Exchanges of neighbours from `i` on take every point from `i` on to `i`. -/
theorem exists_neighbours_app {K : Subgroup (Perm n)} {i : Nat}
    (hK : ∀ j, i ≤ j → j + 1 < n → swap n j (j + 1) ∈ K) {k : Nat} (hik : i ≤ k)
    (hk : k < n) : ∃ t ∈ K ⊓ fixingBelow n i, t k = i := by
  induction k, hik using Nat.le_induction with
  | base => exact ⟨1, Subgroup.one_mem _, one_app i⟩
  | succ k hik ih =>
      obtain ⟨t, ht, htk⟩ := ih (by omega)
      refine ⟨swap n k (k + 1) * t, Subgroup.mul_mem _ ⟨hK k hik hk, ?_⟩ ht, ?_⟩
      · exact swap_mem_fixingBelow hik (by omega) (by omega) hk
      · rw [mul_app, swap_app (by omega) hk]
        simpa using htk

/-- A subgroup with all exchanges of neighbours from `i` on contains whatever
fixes the points before `i`. -/
theorem fixingBelow_le {K : Subgroup (Perm n)} {i : Nat}
    (hK : ∀ j, i ≤ j → j + 1 < n → swap n j (j + 1) ∈ K) : fixingBelow n i ≤ K := by
  induction hleft : n - i generalizing i with
  | zero =>
      rw [fixingBelow_eq_bot (by omega)]
      exact bot_le
  | succ left ih =>
      have hnext : fixingBelow n (i + 1) ≤ K :=
        ih (fun j hj hjn => hK j (by omega) hjn) (by omega)
      intro p hp
      obtain ⟨t, ht, hti⟩ := exists_neighbours_app hK (le_app_of_mem_fixingBelow hp)
        (p.app_lt (by omega))
      have hfixes : p * t ∈ fixingBelow n (i + 1) := by
        rw [fixingBelow_succ]
        refine ⟨Subgroup.mul_mem _ hp ht.2, ?_⟩
        change (p * t) i = i
        rw [mul_app, hti]
      have hmem := K.mul_mem (hnext hfixes) (K.inv_mem ht.1)
      rwa [mul_inv_cancel_right] at hmem

theorem rotation_mem_fixingBelow {i : Nat} (hi : i < n) : rotation n i ∈ fixingBelow n i := by
  rw [mem_fixingBelow]
  intro x hx
  rw [rotation_app (by omega), if_pos hx]

/-- A rotation takes the exchange of two neighbours to the next exchange. -/
theorem rotation_conj_swap {i j : Nat} (hij : i ≤ j) (hj : j + 2 < n) :
    (rotation n i)⁻¹ * swap n j (j + 1) * rotation n i = swap n (j + 1) (j + 2) := by
  rw [mul_assoc, inv_mul_eq_iff_eq_mul]
  apply ext
  intro x hx
  rw [mul_app, mul_app, swap_app (by omega) (by omega), swap_app (by omega) hj,
    rotation_app hx, rotation_app (by split <;> (try split) <;> omega)]
  (repeat' split) <;> omega

end Perm

namespace Chain

theorem generated_symmetricLevel {i : Nat} (hi : i + 1 < n) :
    generated (symmetricLevel n i).generators = fixingBelow n i := by
  have hswap : swap n i (i + 1) ∈ generated (symmetricLevel n i).generators := by
    apply subset_generated
    rw [symmetricLevel]
    split <;> simp
  apply le_antisymm
  · rw [generated_le]
    intro g hg
    rw [symmetricLevel] at hg
    have hfirst : swap n i (i + 1) ∈ fixingBelow n i :=
      swap_mem_fixingBelow le_rfl (by omega) (by omega) hi
    split at hg
    · rcases List.mem_cons.mp hg with rfl | hg
      · exact hfirst
      · rw [List.mem_singleton.mp hg]
        exact rotation_mem_fixingBelow (by omega)
    · rw [List.mem_singleton.mp hg]
      exact hfirst
  · -- Conjugating by the rotation takes each exchange of neighbours to the next one.
    apply fixingBelow_le
    intro j hij
    induction j, hij using Nat.le_induction with
    | base => exact fun _ => hswap
    | succ j hij ih =>
        intro hj
        have hrotation : rotation n i ∈ generated (symmetricLevel n i).generators := by
          apply subset_generated
          rw [symmetricLevel, if_pos (by omega)]
          simp
        rw [← rotation_conj_swap hij hj]
        exact Subgroup.mul_mem _ (Subgroup.mul_mem _ (Subgroup.inv_mem _ hrotation)
          (ih (by omega))) hrotation

theorem orbit_symmetricLevel (n i : Nat) :
    (symmetricLevel n i).orbit = List.range' i (n - i) := by
  simp [Level.orbit, symmetricLevel, Function.comp_def]

theorem isOrbitOf_symmetricLevel {i : Nat} (hi : i < n) :
    (symmetricLevel n i).IsOrbitOf (fixingBelow n i) where
  start := by
    refine List.mem_map.mpr ⟨i, ?_, by rw [swap_self]; rfl⟩
    rw [List.mem_range'_1]
    omega
  nodup := by
    rw [orbit_symmetricLevel]
    exact List.nodup_range'
  back := by
    intro x t ht
    obtain ⟨j, hj, heq⟩ := List.mem_map.mp ht
    obtain ⟨rfl, rfl⟩ := Prod.mk.inj heq
    rw [List.mem_range'_1] at hj
    refine ⟨swap_mem_fixingBelow le_rfl hj.1 hi (by omega), ?_⟩
    rw [swap_app hi (by omega)]
    change (if j = i then j else if j = j then i else j) = i
    split <;> simp_all
  complete := by
    intro p hp
    have hle := le_app_of_mem_fixingBelow hp
    have hlt := p.app_lt hi
    refine Level.mem_orbit_iff_exists.mpr ⟨swap n i (p i), List.mem_map.mpr ⟨p i, ?_, rfl⟩⟩
    rw [List.mem_range'_1]
    omega

theorem isChainOf_symmetricLevels (i count : Nat) (hcount : i + count = n - 1) :
    IsChainOf ((List.range' i count).map (symmetricLevel n)) (fixingBelow n i) := by
  induction count generalizing i with
  | zero =>
      rw [fixingBelow_eq_bot (by omega)]
      exact .nil
  | succ count ih =>
      rw [List.range'_succ, List.map_cons]
      refine .cons (isOrbitOf_symmetricLevel (by omega)) (generated_symmetricLevel (by omega)) ?_
      have hrest := ih (i + 1) (by omega)
      rw [fixingBelow_succ] at hrest
      exact hrest

/-- The closed form is a stabilizer chain of the group of all permutations. -/
theorem isChainOf_symmetric (n : Nat) : IsChainOf (symmetric n).levels ⊤ := by
  have hchain := isChainOf_symmetricLevels (n := n) 0 (n - 1) (Nat.zero_add _)
  rw [fixingBelow_zero] at hchain
  rw [symmetric, List.range_eq_range']
  exact hchain

end Chain
end ProcessorSymmetry

import ProcessorSymmetry.Group.Chain
import ProcessorSymmetry.Proofs.Group.Orbit
import Mathlib.Data.List.NodupEquivFin
import Mathlib.SetTheory.Cardinal.Finite

/-!
# Chains of stabilizers

The levels of a finished chain belong to the successive stabilizers of the base
points.  On such a chain sifting decides membership, and the product of the
orbit lengths counts the members.
-/

namespace ProcessorSymmetry
namespace Chain

open Perm

variable {n : Nat} {H : Subgroup (Perm n)} {level : Level n} {levels deeper : List (Level n)}

/-- The first level belongs to `H`, and each level after it to the members that
fix the base points of all levels before. -/
inductive IsChainOf : List (Level n) → Subgroup (Perm n) → Prop
  | nil : IsChainOf [] ⊥
  | cons {level : Level n} {deeper : List (Level n)} {H : Subgroup (Perm n)}
      (orbit : level.IsOrbitOf H) (generators : generated level.generators = H)
      (rest : IsChainOf deeper (H ⊓ fixing level.base)) : IsChainOf (level :: deeper) H

/-- The group of the first level, trivial if there is none. -/
def topGroup : List (Level n) → Subgroup (Perm n)
  | [] => ⊥
  | level :: _ => generated level.generators

theorem IsChainOf.eq_topGroup (h : IsChainOf levels H) : H = topGroup levels := by
  cases h with
  | nil => rfl
  | cons _ hgenerators _ => exact hgenerators.symm

theorem IsChainOf.drop (h : IsChainOf levels H) (k : Nat) :
    ∃ K, IsChainOf (levels.drop k) K := by
  induction k generalizing levels H with
  | zero => exact ⟨H, h⟩
  | succ k ih =>
      cases h with
      | nil => exact ⟨⊥, .nil⟩
      | cons _ _ rest => exact ih rest

theorem topGroup_strongGenerators (c : Chain n) :
    generated c.strongGenerators = topGroup c.levels := by
  rw [strongGenerators]
  cases c.levels with
  | nil => exact generated_nil
  | cons level deeper => rfl

/-! ## Sifting -/

theorem takeBack?_eq_some (h : level.IsOrbitOf H) {p q : Perm n}
    (hq : level.takeBack? p = some q) :
    (∃ g ∈ H, q = p * g) ∧ q level.base = level.base := by
  rw [Level.takeBack?] at hq
  split at hq
  · rename_i hfix
    obtain rfl := Option.some.inj hq
    exact ⟨⟨1, H.one_mem, by simp⟩, hfix⟩
  · obtain ⟨t, ht, rfl⟩ := Option.map_eq_some_iff.mp hq
    obtain ⟨htH, htx⟩ := h.toBase?_spec ht
    exact ⟨⟨t, htH, rfl⟩, by rw [mul_app, htx]⟩

theorem takeBack?_eq_none_iff (h : level.IsOrbitOf H) {p : Perm n} :
    level.takeBack? p = none ↔ p level.base ∉ level.orbit := by
  rw [Level.takeBack?]
  split
  · rename_i hfix
    simp [hfix, h.base_mem]
  · rw [Option.map_eq_none_iff, Level.toBase?_eq_none_iff]

theorem siftThrough_passed_le (levels : List (Level n)) (p : Perm n) :
    (siftThrough levels p).2 ≤ levels.length := by
  induction levels generalizing p with
  | nil => simp [siftThrough]
  | cons level deeper ih =>
      rw [siftThrough]
      split
      · simp
      · exact Nat.succ_le_succ (ih _)

/-- Members leave nothing when they are sifted. -/
theorem IsChainOf.siftThrough_of_mem (h : IsChainOf levels H) {p : Perm n} (hp : p ∈ H) :
    siftThrough levels p = (1, levels.length) := by
  induction h generalizing p with
  | nil => rw [siftThrough, Subgroup.mem_bot.mp hp, List.length_nil]
  | @cons level deeper H orbit _ rest ih =>
      rw [siftThrough]
      split
      · rename_i hnone
        exact absurd (orbit.complete p hp) ((takeBack?_eq_none_iff orbit).mp hnone)
      · rename_i q hq
        obtain ⟨⟨g, hg, rfl⟩, hfix⟩ := takeBack?_eq_some orbit hq
        rw [ih ⟨H.mul_mem hp hg, hfix⟩, List.length_cons]

/-- Sifting multiplies by a member from the right. -/
theorem IsChainOf.residue_eq (h : IsChainOf levels H) (p : Perm n) :
    ∃ g ∈ H, (siftThrough levels p).1 = p * g := by
  induction h generalizing p with
  | nil => exact ⟨1, Subgroup.one_mem _, by simp [siftThrough]⟩
  | @cons level deeper H orbit _ rest ih =>
      rw [siftThrough]
      split
      · exact ⟨1, H.one_mem, by simp⟩
      · rename_i q hq
        obtain ⟨⟨g, hg, rfl⟩, -⟩ := takeBack?_eq_some orbit hq
        obtain ⟨k, hk, hres⟩ := ih (p * g)
        exact ⟨g * k, H.mul_mem hg hk.1, by rw [hres, mul_assoc]⟩

/-- What is left after sifting fixes the base points of the levels that were passed. -/
theorem IsChainOf.residue_fixes (h : IsChainOf levels H) (p : Perm n) :
    ∀ passed ∈ levels.take (siftThrough levels p).2,
      (siftThrough levels p).1 passed.base = passed.base := by
  induction h generalizing p with
  | nil => simp
  | @cons level deeper H orbit _ rest ih =>
      rw [siftThrough]
      split
      · simp
      · rename_i q hq
        obtain ⟨-, hfix⟩ := takeBack?_eq_some orbit hq
        intro passed hpassed
        rw [List.take_succ_cons, List.mem_cons] at hpassed
        rcases hpassed with rfl | hpassed
        · obtain ⟨g, hg, hres⟩ := rest.residue_eq q
          have hgfix : g passed.base = passed.base := hg.2
          change (siftThrough deeper q).1 passed.base = passed.base
          rw [hres, mul_app, hfix, hgfix]
        · exact ih q passed hpassed

/-- What is left moves the base point of the level where sifting stops out of the orbit. -/
theorem IsChainOf.residue_stuck (h : IsChainOf levels H) (p : Perm n)
    {stop : Level n} (hstop : levels[(siftThrough levels p).2]? = some stop) :
    (siftThrough levels p).1 stop.base ∉ stop.orbit := by
  induction h generalizing p with
  | nil => simp at hstop
  | @cons level deeper H orbit _ rest ih =>
      rw [siftThrough] at hstop ⊢
      split at hstop
      · rename_i hnone
        obtain rfl : level = stop := by simpa using hstop
        exact (takeBack?_eq_none_iff orbit).mp hnone
      · rename_i q hq
        exact ih q (by simpa using hstop)

theorem IsChainOf.mem_of_residue_eq_one (h : IsChainOf levels H) {p : Perm n}
    (hp : (siftThrough levels p).1 = 1) : p ∈ H := by
  obtain ⟨g, hg, hres⟩ := h.residue_eq p
  rw [hp] at hres
  rw [eq_inv_of_mul_eq_one_left hres.symm]
  exact H.inv_mem hg

/-- On a chain of `H`, membership in `H` is decided by sifting. -/
theorem IsChainOf.contains_iff {c : Chain n} (h : IsChainOf c.levels H) {p : Perm n} :
    c.contains p = true ↔ p ∈ H := by
  rw [contains, sift]
  constructor
  · intro hp
    rw [Bool.and_eq_true] at hp
    exact h.mem_of_residue_eq_one (isIdentity_iff.mp hp.2)
  · intro hp
    rw [h.siftThrough_of_mem hp]
    simp [isIdentity_iff]

/-! ## Counting -/

theorem card_mem_of_nodup {α : Type} [DecidableEq α] {entries : List α} (h : entries.Nodup) :
    Nat.card {a // a ∈ entries} = entries.length :=
  (Nat.card_congr (h.getEquiv entries)).symm.trans (Nat.card_fin _)

/-- A member is given by the image of the base point and a member that fixes it. -/
noncomputable def memberEquiv (h : level.IsOrbitOf H) :
    H ≃ {x // x ∈ level.orbit} × ↥(H ⊓ fixing level.base) where
  toFun p :=
    let x : {x // x ∈ level.orbit} := ⟨p.1 level.base, h.complete p p.2⟩
    let t := Classical.choose (Level.exists_toBase? x.2)
    have ht := h.toBase?_spec (Classical.choose_spec (Level.exists_toBase? x.2))
    (x, ⟨p.1 * t, H.mul_mem p.2 ht.1, by
      change (p.1 * t) level.base = level.base
      rw [mul_app, ht.2]⟩)
  invFun := fun (x, s) =>
    let t := Classical.choose (Level.exists_toBase? x.2)
    have ht := h.toBase?_spec (Classical.choose_spec (Level.exists_toBase? x.2))
    ⟨s.1 * t⁻¹, H.mul_mem s.2.1 (H.inv_mem ht.1)⟩
  left_inv p := by simp
  right_inv := by
    rintro ⟨⟨x, hx⟩, ⟨s, hs, hfix⟩⟩
    have ht := h.toBase?_spec (Classical.choose_spec (Level.exists_toBase? hx))
    have hbase : (s * (Classical.choose (Level.exists_toBase? hx))⁻¹) level.base = x := by
      have hs' : s level.base = level.base := hfix
      rw [mul_app, hs', inv_app_eq_iff, ht.2]
    simp [hbase]

theorem card_eq_mul (h : level.IsOrbitOf H) :
    Nat.card H = level.orbitLength * Nat.card ↥(H ⊓ fixing level.base) := by
  have horbit : Nat.card {x // x ∈ level.orbit} = level.orbitLength :=
    (card_mem_of_nodup h.nodup).trans (List.length_map _)
  rw [Nat.card_congr (memberEquiv h), Nat.card_prod, horbit]

/-- The product of the orbit lengths counts the members. -/
theorem IsChainOf.orderOf_eq (h : IsChainOf levels H) : orderOf levels = Nat.card H := by
  induction h with
  | nil => simp [orderOf]
  | cons orbit _ _ ih =>
      rw [card_eq_mul orbit, ← ih]
      rfl

end Chain
end ProcessorSymmetry

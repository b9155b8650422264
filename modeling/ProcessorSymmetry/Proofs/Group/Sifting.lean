import ProcessorSymmetry.Proofs.Group.BaseChange

/-!
# How far sifting gets

What sifting leaves of a permutation is its product with a member.  It fixes the base
points of the levels that were passed, and no product of the permutation with a member
fixes one base point more: otherwise that product would lead to the image at which
sifting got stuck, although the orbit of the level is complete.
-/

namespace ProcessorSymmetry

open Perm

namespace Chain

variable {n : Nat} {H : Subgroup (Perm n)} {c : Chain n}

/-- The residue fixes the base points of the levels that were passed. -/
theorem IsChainOf.residue_mem_fixingAll (h : IsChainOf c.levels H) (p : Perm n) :
    (c.sift p).1 ∈ fixingAll (c.base.take (c.sift p).2) := by
  intro b hb
  rw [base, ← List.map_take] at hb
  obtain ⟨level, hlevel, rfl⟩ := List.mem_map.mp hb
  exact h.residue_fixes p level hlevel

theorem take_base_succ {i : Nat} {level : Level n} (hi : c.levels[i]? = some level) :
    c.base.take (i + 1) = c.base.take i ++ [level.base] := by
  have hbase : c.base[i]? = some level.base := by rw [base, List.getElem?_map, hi, Option.map_some]
  rw [List.take_add_one, hbase, Option.toList_some]

/-- If sifting stops early, no member takes the permutation further. -/
theorem IsChainOf.mul_notMem_fixingAll (h : IsChainOf c.levels H) {p g : Perm n}
    (hstop : (c.sift p).2 < c.levels.length) (hg : g ∈ H) :
    p * g ∉ fixingAll (c.base.take ((c.sift p).2 + 1)) := by
  intro hfurther
  have hlevel := List.getElem?_eq_getElem hstop
  rw [take_base_succ hlevel] at hfurther
  have hpassed : p * g ∈ fixingAll (c.base.take (c.sift p).2) := fun b hb =>
    hfurther b (List.mem_append_left _ hb)
  have hnext := hfurther _ (List.mem_append_right _ List.mem_cons_self)
  obtain ⟨k, hk, hresidue⟩ := h.residue_eq p
  -- From the further product to the residue there is a member of the level's stabilizer.
  apply h.residue_stuck p hlevel
  rw [(h.level_spec hlevel).1.mem_orbit_iff]
  refine ⟨(p * g)⁻¹ * (c.sift p).1, ⟨?_, ?_⟩, ?_⟩
  · have hmember : (p * g)⁻¹ * (c.sift p).1 = g⁻¹ * k := by
      rw [sift, hresidue, mul_inv_rev, mul_assoc, inv_mul_cancel_left]
    rw [hmember]
    exact H.mul_mem (H.inv_mem hg) hk
  · exact Subgroup.mul_mem _ (Subgroup.inv_mem _ hpassed) (h.residue_mem_fixingAll p)
  · rw [mul_app, (inv_app_eq_iff _).mpr hnext.symm]
    rfl

/-- Nothing is left after all levels exactly if the permutation is a member. -/
theorem IsChainOf.sift_eq_iff (h : IsChainOf c.levels H) {p : Perm n} :
    c.sift p = (1, c.levels.length) ↔ p ∈ H := by
  constructor
  · intro hsift
    exact h.mem_of_residue_eq_one (congrArg Prod.fst hsift)
  · exact h.siftThrough_of_mem

end Chain

namespace PermGroup

variable {G : PermGroup}

/-- A chain along given points is a stabilizer chain of the members. -/
theorem isChainOf_chainWithBase {points : List Nat} {c : Chain G.degree}
    (hc : G.chainWithBase points = .ok c) : Chain.IsChainOf c.levels G.members := by
  obtain ⟨⟨⟩, hpoints, -⟩ := bind_eq_ok_iff.mp hc
  obtain ⟨c', hc', hchain, -⟩ := G.exists_chainWithBase (checkPoints_eq_ok_iff.mp hpoints)
  rw [hc] at hc'
  rwa [Except.ok.inj hc']

/-- Any permutation of the degree is sifted through the stored chain of a group, or one
along given points, to its product with a member.  This residue fixes the base points of
the levels that were passed, and it moves the next base point out of its orbit if there is
another level.  It is the identity after all levels exactly for members, and if sifting
stops early, no product with a member fixes one base point more. -/
theorem sift_residue_and_passed {c : Chain G.degree}
    (hc : c = G.chain ∨ ∃ points, G.chainWithBase points = .ok c) (p : Perm G.degree) :
    ∃ residue passed, c.sift p = (residue, passed) ∧ passed ≤ c.levels.length ∧
      (∃ g, IsProductOf G.generators g ∧ residue = p * g) ∧
      (∀ b ∈ c.base.take passed, residue b = b) ∧
      (∀ stop, c.levels[passed]? = some stop → residue stop.base ∉ stop.orbit) ∧
      (residue = 1 ∧ passed = c.levels.length ↔ IsProductOf G.generators p) ∧
      (c.contains p = true ↔ IsProductOf G.generators p) ∧
      (passed < c.levels.length → ∀ g, IsProductOf G.generators g →
        ∃ b ∈ c.base.take (passed + 1), (p * g) b ≠ b) := by
  have hchain : Chain.IsChainOf c.levels G.members := by
    rcases hc with rfl | ⟨points, hpoints⟩
    · exact G.isChainOf_members
    · exact isChainOf_chainWithBase hpoints
  refine ⟨_, _, rfl, Chain.siftThrough_passed_le c.levels p, ?_, ?_, ?_, ?_, ?_, ?_⟩
  · obtain ⟨g, hg, hresidue⟩ := hchain.residue_eq p
    exact ⟨g, mem_generated_iff.mp hg, hresidue⟩
  · exact hchain.residue_mem_fixingAll p
  · exact fun _ hstop => hchain.residue_stuck p hstop
  · rw [← mem_generated_iff, ← Prod.mk.injEq]
    exact hchain.sift_eq_iff
  · rw [hchain.contains_iff, ← mem_generated_iff]
    rfl
  · intro hstop g hg
    by_contra hnone
    apply hchain.mul_notMem_fixingAll hstop (mem_generated_iff.mpr hg)
    intro b hb
    by_contra hmoves
    exact hnone ⟨b, hb, hmoves⟩

/-- An exchange across two pairs whose points the group exchanges.  Sifting passes the
level of the first pair and stops at that of the second one. -/
theorem sift_residue_and_passed_pairs :
    let G := generatedBy [swap 4 0 1, swap 4 2 3]
    let p : Perm G.degree := swap 4 1 2
    G.chainWithBase [] = .ok G.chain ∧ G.chain.base = [0, 2] ∧ (G.chain.sift p).2 = 1 ∧
      ¬IsProductOf G.generators p ∧
      ∀ g, IsProductOf G.generators g → ∃ b ∈ [0, 2], (p * g) b ≠ b := by
  intro G p
  have hstored : G.chainWithBase [] = .ok G.chain := rfl
  have hbase : G.chain.base = [0, 2] := by decide +kernel
  have hpassed : (G.chain.sift p).2 = 1 := by decide +kernel
  have hlevels : G.chain.levels.length = 2 := by decide +kernel
  obtain ⟨residue, passed, hsift, -, -, -, -, hmember, -, hmaximal⟩ :=
    sift_residue_and_passed (.inr ⟨[], hstored⟩) p
  obtain rfl : passed = 1 := (congrArg Prod.snd hsift).symm.trans hpassed
  rw [hlevels] at hmember hmaximal
  rw [hbase] at hmaximal
  refine ⟨hstored, hbase, hpassed, ?_, hmaximal (by decide)⟩
  intro hproduct
  exact absurd (hmember.mpr hproduct).2 (by decide)

end PermGroup
end ProcessorSymmetry

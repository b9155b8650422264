import ProcessorSymmetry.Proofs.Group.IrredundantBase
import ProcessorSymmetry.Proofs.Group.Membership

/-!
# Chains along given points

A chain may be asked for whose base starts with given points.  Whether it is the
stored chain or a new one, its levels belong to the stabilizers of the base
points before them, and every level after the given points has something to
move.  Hence a group is trivial exactly if its own chain has no levels.
-/

namespace ProcessorSymmetry

open Perm

namespace Chain

variable {n : Nat} {H : Subgroup (Perm n)} {level : Level n} {levels : List (Level n)}

/-- A level belongs to the members that fix all base points before it. -/
theorem IsChainOf.level_spec (h : IsChainOf levels H) {i : Nat} (hi : levels[i]? = some level) :
    level.IsOrbitOf (H ⊓ fixingAll ((levels.map Level.base).take i)) ∧
      generated level.generators = H ⊓ fixingAll ((levels.map Level.base).take i) := by
  induction h generalizing i with
  | nil => simp at hi
  | @cons first deeper H orbit generators _ ih =>
      cases i with
      | zero =>
          obtain rfl : first = level := by simpa using hi
          rw [List.take_zero, fixingAll_nil, inf_top_eq]
          exact ⟨orbit, generators⟩
      | succ i =>
          rw [List.map_cons, List.take_succ_cons, fixingAll_cons, ← inf_assoc]
          exact ih (by simpa using hi)

/-- An orbit has two points if some member moves the base point. -/
theorem two_le_orbitLength (h : level.IsOrbitOf H) {p : Perm n} (hp : p ∈ H)
    (hmoves : p level.base ≠ level.base) : 2 ≤ level.orbitLength := by
  have hsub : [level.base, p level.base].Subperm level.orbit := by
    apply List.subperm_of_subset
    · simpa using hmoves.symm
    · simpa using ⟨h.base_mem, h.complete p hp⟩
  simpa [Level.orbit, Level.orbitLength] using hsub.length_le

end Chain

namespace PermGroup

variable {G : PermGroup}

/-! ## The stored chain -/

theorem chain_base_nodup (G : PermGroup) : G.chain.base.Nodup := by
  rcases G.chain_eq with hchain | ⟨hchain, -⟩
  · rw [hchain]
    exact (Chain.ofGenerators_spec G.generators []).2.2
  · rw [hchain, Chain.base_symmetric]
    exact List.nodup_range

/-- The stored chain has no superfluous levels at all. -/
theorem irredundant_chain (G : PermGroup) : Chain.IrredundantFrom 0 G.members G.chain.base := by
  rcases G.chain_eq with hchain | ⟨hchain, hgenerators⟩
  · rw [hchain, members]
    exact Chain.irredundant_ofGenerators G.generators []
  · rw [members_eq_top hchain hgenerators, hchain]
    exact Chain.irredundant_symmetric G.degree

/-! ## Trivial groups -/

theorem isTrivial_iff_members : G.isTrivial = true ↔ G.members = ⊥ := by
  constructor
  · exact G.members_eq_bot
  · intro hbot
    rw [isTrivial, List.isEmpty_iff]
    cases hlevels : G.chain.levels with
    | nil => rfl
    | cons level deeper =>
        have hbase : G.chain.base[0]? = some level.base := by
          rw [Chain.base, hlevels]
          rfl
        obtain ⟨p, hp, hmoves⟩ := G.irredundant_chain 0 level.base le_rfl hbase
        have hpG : p ∈ G.members := hp.1
        rw [hbot, Subgroup.mem_bot] at hpG
        rw [hpG, one_app] at hmoves
        exact absurd rfl hmoves

theorem isTrivial_iff_order : G.isTrivial = true ↔ G.order = 1 := by
  rw [isTrivial_iff_members, order_eq_card, Subgroup.card_eq_one]

theorem isTrivial_iff_generators :
    G.isTrivial = true ↔ ∀ g ∈ G.generators, g.isIdentity = true := by
  simp only [isTrivial_iff_members, isIdentity_iff, eq_bot_iff, members, generated_le,
    Subgroup.mem_bot]

/-! ## Chains with a given start of the base -/

/-- `c` is a chain of `G` whose base starts with the points in the order of their
first occurrence.  A level belongs to the members that fix the base points before
it, and only levels of the given points may have an orbit of one point. -/
structure IsChainAlong (G : PermGroup) (points : List Nat) (c : Chain G.degree) : Prop where
  order_eq : c.order = G.order
  contains_eq : ∀ p : Perm G.degree, c.contains p = G.contains p
  base_start : points.eraseDups <+: c.base
  base_nodup : c.base.Nodup
  generated_eq : ∀ i level, c.levels[i]? = some level →
    generated level.generators = G.members ⊓ fixingAll (c.base.take i)
  orbit_nodup : ∀ level ∈ c.levels, level.orbit.Nodup
  mem_orbit_iff : ∀ i level, c.levels[i]? = some level → ∀ x, x ∈ level.orbit ↔
    ∃ p ∈ G.members ⊓ fixingAll (c.base.take i), p level.base = x
  two_le_orbitLength : ∀ i level, c.levels[i]? = some level →
    points.eraseDups.length ≤ i → 2 ≤ level.orbitLength

theorem isChainAlong {points : List Nat} {c : Chain G.degree}
    (hchain : Chain.IsChainOf c.levels G.members) (hstart : points.eraseDups <+: c.base)
    (hnodup : c.base.Nodup)
    (hirredundant : Chain.IrredundantFrom points.eraseDups.length G.members c.base) :
    G.IsChainAlong points c where
  order_eq := hchain.orderOf_eq.trans G.order_eq_card.symm
  contains_eq := by
    intro p
    rw [Bool.eq_iff_iff, hchain.contains_iff, contains_iff_mem]
  base_start := hstart
  base_nodup := hnodup
  generated_eq := fun _ _ hlevel => (hchain.level_spec hlevel).2
  orbit_nodup := by
    intro level hmem
    obtain ⟨i, hlevel⟩ := List.mem_iff_getElem?.mp hmem
    exact (hchain.level_spec hlevel).1.nodup
  mem_orbit_iff := fun _ _ hlevel _ => (hchain.level_spec hlevel).1.mem_orbit_iff
  two_le_orbitLength := by
    intro i level hlevel hi
    have hbase : c.base[i]? = some level.base := by simp [Chain.base, hlevel]
    obtain ⟨p, hp, hmoves⟩ := hirredundant i level.base hi hbase
    exact Chain.two_le_orbitLength (hchain.level_spec hlevel).1 hp hmoves

/-- Points of the domain are accepted, with the stored chain or with a new one. -/
theorem exists_isChainAlong (G : PermGroup) {points : List Nat}
    (hpoints : ∀ x ∈ points, x < G.degree) :
    ∃ c, G.chainWithBase points = .ok c ∧ G.IsChainAlong points c := by
  rw [chainWithBase, checkPoints_eq_ok_iff.mpr hpoints]
  by_cases hstored : points.eraseDups.isPrefixOf G.chain.base = true
  · refine ⟨G.chain, if_pos hstored, isChainAlong G.isChainOf_members ?_ G.chain_base_nodup ?_⟩
    · exact List.isPrefixOf_iff_prefix.mp hstored
    · exact G.irredundant_chain.mono (Nat.zero_le _)
  · obtain ⟨hchain, hstart, hnodup⟩ := Chain.ofGenerators_spec G.chain.strongGenerators points
    have hirredundant := Chain.irredundant_ofGenerators G.chain.strongGenerators points
    rw [generated_strongGenerators] at hchain hirredundant
    exact ⟨_, if_neg hstored, isChainAlong hchain hstart hnodup hirredundant⟩

/-- The first point outside of the domain is refused.  Otherwise there is a chain
of stabilizers along the points.  A group is trivial exactly if its order is 1,
and exactly if all generators are the identity. -/
theorem chainWithBase_spec (G : PermGroup) (points : List Nat) :
    (∀ x, points.find? (G.degree ≤ ·) = some x →
      G.chainWithBase points = .error (.outOfDomain x G.degree)) ∧
    (points.find? (G.degree ≤ ·) = none →
      ∃ c, G.chainWithBase points = .ok c ∧ G.IsChainAlong points c) ∧
    (G.isTrivial = true ↔ G.order = 1) ∧
    (G.order = 1 ↔ ∀ g ∈ G.generators, g.isIdentity = true) := by
  refine ⟨?_, ?_, isTrivial_iff_order, isTrivial_iff_order.symm.trans isTrivial_iff_generators⟩
  · intro x hx
    rw [chainWithBase, checkPoints_eq_error hx]
    rfl
  · intro hnone
    apply G.exists_isChainAlong
    simpa using hnone

/-- Along a point that moves and one that does not, each asked for more than once. -/
theorem chainWithBase_spec_swap :
    let G := generatedBy [swap 4 1 3]
    [3, 7, 5].find? (G.degree ≤ ·) = some 7 ∧ [3, 0, 3, 0].find? (G.degree ≤ ·) = none ∧
      G.chainWithBase [3, 7, 5] = .error (.outOfDomain 7 4) ∧
      ∃ c, G.chainWithBase [3, 0, 3, 0] = .ok c ∧ G.IsChainAlong [3, 0, 3, 0] c := by
  intro G
  have houtside : [3, 7, 5].find? (G.degree ≤ ·) = some 7 := by decide
  have hinside : [3, 0, 3, 0].find? (G.degree ≤ ·) = none := by decide
  exact ⟨houtside, hinside, (chainWithBase_spec G [3, 7, 5]).1 7 houtside,
    (chainWithBase_spec G [3, 0, 3, 0]).2.1 hinside⟩

end PermGroup
end ProcessorSymmetry

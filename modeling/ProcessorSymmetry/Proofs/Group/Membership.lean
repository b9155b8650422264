import ProcessorSymmetry.Group.Basic
import ProcessorSymmetry.Proofs.Checks
import ProcessorSymmetry.Proofs.Group.GeneratedChain
import ProcessorSymmetry.Proofs.Group.SymmetricChain

/-!
# Membership and order of permutation groups

A group answers through its stored chain.  Its answers are those of the subgroup
that its generators generate: membership is being a product of generators, and
the order is the number of such products.
-/

namespace ProcessorSymmetry

open Perm

namespace PermGroup

/-- The subgroup that a group stands for. -/
def members (G : PermGroup) : Subgroup (Perm G.degree) :=
  generated G.generators

/-- A group that answers through the chain of the symmetric group has all permutations. -/
theorem members_eq_top {G : PermGroup} (hchain : G.chain = .symmetric G.degree)
    (hgenerators : G.generators = G.chain.strongGenerators) : G.members = ⊤ := by
  rw [members, hgenerators, Chain.topGroup_strongGenerators, hchain,
    ← (Chain.isChainOf_symmetric G.degree).eq_topGroup]

/-- Whichever way a group was made, its chain is a stabilizer chain of its members. -/
theorem isChainOf_members (G : PermGroup) : Chain.IsChainOf G.chain.levels G.members := by
  rcases G.chain_eq with hchain | ⟨hchain, hgenerators⟩
  · rw [hchain, members]
    exact (Chain.ofGenerators_spec G.generators []).1
  · rw [members_eq_top hchain hgenerators, hchain]
    exact Chain.isChainOf_symmetric G.degree

theorem generated_strongGenerators (G : PermGroup) :
    generated G.chain.strongGenerators = G.members := by
  rw [Chain.topGroup_strongGenerators, ← G.isChainOf_members.eq_topGroup]

theorem chain_contains_iff (G : PermGroup) {p : Perm G.degree} :
    G.chain.contains p = true ↔ p ∈ G.members :=
  G.isChainOf_members.contains_iff

/-- A permutation is contained if it has the right degree and is a member. -/
theorem contains_iff (G : PermGroup) {m : Nat} {p : Perm m} :
    G.contains p = true ↔ ∃ h : m = G.degree, h ▸ p ∈ G.members := by
  rw [contains, ofDegree?]
  split
  · rename_i q hq
    split at hq
    · rename_i h
      obtain rfl := Option.some.inj hq
      rw [chain_contains_iff]
      constructor
      · intro hp
        exact ⟨h, hp⟩
      · rintro ⟨_, hp⟩
        exact hp
    · cases hq
  · rename_i hnone
    constructor
    · intro hfalse
      cases hfalse
    · rintro ⟨h, -⟩
      rw [dif_pos h] at hnone
      cases hnone

theorem contains_iff_mem (G : PermGroup) {p : Perm G.degree} :
    G.contains p = true ↔ p ∈ G.members := by
  rw [contains_iff]
  constructor
  · rintro ⟨_, hp⟩
    exact hp
  · intro hp
    exact ⟨rfl, hp⟩

theorem order_eq_card (G : PermGroup) : G.order = Nat.card G.members :=
  G.isChainOf_members.orderOf_eq

/-- Permutations that all have the demanded degree are accepted as generators. -/
theorem ofGenerators_map_mk {n : Nat} (generators : List (Perm n)) :
    ofGenerators n (generators.map (Sigma.mk n)) = .ok (generatedBy generators) := by
  rw [ofGenerators, mapM_map_eq_ok]
  · rfl
  · intro p _
    simp only [ofDegree?, dite_true]

/-- A group given by permutations of one degree contains exactly the finite
products of these permutations, and its order is the number of such products. -/
theorem exists_ofGenerators_contains_iff_and_order {n : Nat} (generators : List (Perm n)) :
    ∃ G, ofGenerators n (generators.map (Sigma.mk n)) = .ok G ∧
      (∀ {m : Nat} (p : Perm m), G.contains p = true ↔
        ∃ h : m = n, IsProductOf generators (h ▸ p)) ∧
      G.order = Nat.card {p : Perm n // IsProductOf generators p} := by
  refine ⟨generatedBy generators, ofGenerators_map_mk generators, ?_, ?_⟩
  · intro m p
    rw [contains_iff]
    exact exists_congr fun h => mem_generated_iff
  · rw [order_eq_card]
    apply Nat.card_congr
    exact Equiv.subtypeEquivRight fun p => mem_generated_iff

/-- Lists that generate the same subgroup give equal groups. -/
theorem same_generatedBy {n : Nat} {gs hs : List (Perm n)}
    (h : generated gs = generated hs) : (generatedBy gs).same (generatedBy hs) = true := by
  have horder : (generatedBy gs).order = (generatedBy hs).order := by
    rw [order_eq_card, order_eq_card]
    exact congrArg (fun H : Subgroup (Perm n) => Nat.card H) h
  have hmem : ∀ q ∈ (generatedBy hs).generators, (generatedBy gs).contains q = true := by
    intro q hq
    have hqmem : q ∈ generated hs := subset_generated hq
    rw [← h] at hqmem
    exact (generatedBy gs).contains_iff_mem.mpr hqmem
  rw [same, horder, List.all_eq_true.mpr hmem]
  simp [generatedBy]

/-! ## Chains with a given base -/

/-- Points of the domain are accepted as the start of a base.  The chain is one of
the same group, whether it is the stored chain or a new one. -/
theorem exists_chainWithBase (G : PermGroup) {points : List Nat}
    (hpoints : ∀ x ∈ points, x < G.degree) :
    ∃ c, G.chainWithBase points = .ok c ∧ Chain.IsChainOf c.levels G.members ∧
      points.eraseDups <+: c.base := by
  rw [chainWithBase, checkPoints_eq_ok_iff.mpr hpoints]
  by_cases hprefix : points.eraseDups.isPrefixOf G.chain.base = true
  · refine ⟨G.chain, if_pos hprefix, G.isChainOf_members, ?_⟩
    exact List.isPrefixOf_iff_prefix.mp hprefix
  · refine ⟨.ofGenerators G.chain.strongGenerators points, if_neg hprefix, ?_⟩
    obtain ⟨hchain, hbase, -⟩ := Chain.ofGenerators_spec G.chain.strongGenerators points
    rw [generated_strongGenerators] at hchain
    exact ⟨hchain, hbase⟩

/-- A group whose chain has no levels has the identity as its only member. -/
theorem members_eq_bot (G : PermGroup) (h : G.isTrivial = true) : G.members = ⊥ := by
  rw [G.isChainOf_members.eq_topGroup, List.isEmpty_iff.mp h, Chain.topGroup]

end PermGroup
end ProcessorSymmetry

import ProcessorSymmetry.Group.Recognition
import ProcessorSymmetry.Proofs.Group.Membership
import ProcessorSymmetry.Proofs.Perm.Parity

/-!
# Symmetric and alternating groups

A group is recognized by its order alone.  This is enough for the group of all
permutations, and also for the group of the even ones, since no other group has half
of all permutations.
-/

namespace ProcessorSymmetry
namespace PermGroup

open Perm

variable {G : PermGroup}

theorem isSymmetric_iff_members : G.isSymmetric = true ↔ G.members = ⊤ := by
  rw [isSymmetric, beq_iff_eq, order_eq_card, ← card_perms, Subgroup.card_eq_iff_eq_top]

theorem isAlternating_iff_members :
    G.isAlternating = true ↔ 2 ≤ G.degree ∧ G.members = evenPerms G.degree := by
  rw [isAlternating, Bool.and_eq_true, decide_eq_true_eq, beq_iff_eq, order_eq_card]
  exact and_congr_right fun hn => (eq_evenPerms_iff_card hn G.members).symm

/-- A group is recognized as symmetric exactly if it contains all permutations of its
degree.  It is recognized as alternating exactly if it has at least two points and
contains the even permutations and no others. -/
theorem isSymmetric_and_isAlternating_iff (G : PermGroup) :
    (G.isSymmetric = true ↔ ∀ p : Perm G.degree, G.contains p = true) ∧
    (G.isAlternating = true ↔
      2 ≤ G.degree ∧ ∀ p : Perm G.degree, G.contains p = true ↔ p.IsEven) := by
  constructor
  · rw [isSymmetric_iff_members, Subgroup.eq_top_iff']
    exact forall_congr' fun p => G.contains_iff_mem.symm
  · rw [isAlternating_iff_members, SetLike.ext_iff]
    refine and_congr_right fun _ => forall_congr' fun p => ?_
    rw [contains_iff_mem, mem_evenPerms_iff]

example : (generatedBy [swap 4 0 1 * swap 4 2 3, rotation 4 1]).isAlternating = true := by
  decide +kernel

end PermGroup
end ProcessorSymmetry

import Mathlib.GroupTheory.Coset.Card
import ProcessorSymmetry.Proofs.Group.Elements
import ProcessorSymmetry.Proofs.Perm.Images

/-!
# Groups with the same elements

The answer whether two groups are the same only compares degrees, orders and the
generators of one of them.  It is nevertheless the answer whether they contain
the same permutations, so that it does not matter which group is asked.  A group
that contains another one has a multiple of its order, and is the same if it has
no larger order.
-/

namespace ProcessorSymmetry

open Perm

namespace PermGroup

variable {G H K : PermGroup} {n : Nat}

theorem degree_eq_of_contains {p : Perm n} (h : G.contains p = true) : n = G.degree := by
  obtain ⟨hn, -⟩ := G.contains_iff.mp h
  exact hn

theorem exists_member_of_contains {p : Perm n} (h : G.contains p = true) :
    ∃ q ∈ G.members, ∀ x, q x = p x := by
  obtain rfl := degree_eq_of_contains h
  exact ⟨p, G.contains_iff_mem.mp h, fun _ => rfl⟩

theorem contains_one (G : PermGroup) : G.contains (1 : Perm G.degree) = true :=
  G.contains_iff_mem.mpr G.members.one_mem

/-- The members of a group whose degree is known. -/
def membersOf (G : PermGroup) (h : G.degree = n) : Subgroup (Perm n) :=
  h ▸ G.members

theorem mem_membersOf (h : G.degree = n) {p : Perm n} :
    p ∈ G.membersOf h ↔ G.contains p = true := by
  subst h
  exact G.contains_iff_mem.symm

theorem card_membersOf (h : G.degree = n) : Nat.card (G.membersOf h) = G.order := by
  subst h
  exact G.order_eq_card.symm

/-! ## Groups in groups -/

/-- Every element of `G` is an element of `H`. -/
def IsContainedIn (G H : PermGroup) : Prop :=
  ∀ ⦃n : Nat⦄ (p : Perm n), G.contains p = true → H.contains p = true

theorem IsContainedIn.degree_eq (h : G.IsContainedIn H) : G.degree = H.degree :=
  degree_eq_of_contains (h 1 G.contains_one)

theorem IsContainedIn.membersOf_le (h : G.IsContainedIn H) :
    G.membersOf h.degree_eq ≤ H.members := by
  intro p hp
  exact H.contains_iff_mem.mp (h p ((mem_membersOf h.degree_eq).mp hp))

/-- The order of a group divides that of a group that contains it. -/
theorem IsContainedIn.order_dvd (h : G.IsContainedIn H) : G.order ∣ H.order := by
  rw [← card_membersOf h.degree_eq, order_eq_card]
  exact Subgroup.card_dvd_of_le h.membersOf_le

/-- A group that contains another one without having a larger order has no other elements. -/
theorem IsContainedIn.of_order_eq (h : G.IsContainedIn H) (horder : G.order = H.order) :
    H.IsContainedIn G := by
  intro n p hp
  obtain rfl := degree_eq_of_contains hp
  have hcard : Nat.card H.members ≤ Nat.card (G.membersOf h.degree_eq) := by
    rw [card_membersOf, horder, order_eq_card]
  have hall := Subgroup.eq_of_le_of_card_ge h.membersOf_le hcard
  rw [← mem_membersOf h.degree_eq, hall]
  exact H.contains_iff_mem.mp hp

theorem isContainedIn_iff_generators (hdegree : H.degree = G.degree) :
    H.IsContainedIn G ↔ ∀ q ∈ H.generators, G.contains q = true := by
  constructor
  · intro h q hq
    exact h q (H.contains_iff_mem.mpr (subset_generated hq))
  · intro h n p hp
    obtain rfl := degree_eq_of_contains hp
    have hle : H.members ≤ G.membersOf hdegree.symm :=
      generated_le.mpr fun q hq => (mem_membersOf hdegree.symm).mpr (h q hq)
    exact (mem_membersOf hdegree.symm).mp (hle (H.contains_iff_mem.mp hp))

/-- Groups are the same if and only if they contain the same permutations. -/
theorem same_iff : G.same H = true ↔ G.IsContainedIn H ∧ H.IsContainedIn G := by
  simp only [same, Bool.and_eq_true, beq_iff_eq, List.all_eq_true]
  constructor
  · rintro ⟨⟨hdegree, horder⟩, hgenerators⟩
    have hcontained := (isContainedIn_iff_generators hdegree.symm).mpr hgenerators
    exact ⟨hcontained.of_order_eq horder.symm, hcontained⟩
  · rintro ⟨hGH, hHG⟩
    have horder := Nat.dvd_antisymm hGH.order_dvd hHG.order_dvd
    exact ⟨⟨hGH.degree_eq, horder⟩, (isContainedIn_iff_generators hHG.degree_eq).mp hHG⟩

theorem same_iff_contains :
    G.same H = true ↔ ∀ ⦃n : Nat⦄ (p : Perm n), G.contains p = true ↔ H.contains p = true := by
  rw [same_iff]
  constructor
  · rintro ⟨hGH, hHG⟩ n p
    exact ⟨hGH p, hHG p⟩
  · intro h
    exact ⟨fun n p => (h p).mp, fun n p => (h p).mpr⟩

theorem same_self (G : PermGroup) : G.same G = true :=
  same_iff_contains.mpr fun _ _ => Iff.rfl

theorem same_symm (h : G.same H = true) : H.same G = true :=
  same_iff.mpr (same_iff.mp h).symm

theorem same_trans (hGH : G.same H = true) (hHK : H.same K = true) : G.same K = true := by
  rw [same_iff_contains] at hGH hHK ⊢
  exact fun n p => (hGH p).trans (hHK p)

theorem degree_eq_of_same (h : G.same H = true) : G.degree = H.degree :=
  (same_iff.mp h).1.degree_eq

theorem order_eq_of_same (h : G.same H = true) : G.order = H.order :=
  Nat.dvd_antisymm (same_iff.mp h).1.order_dvd (same_iff.mp h).2.order_dvd

/-- A group and a group that contains it are the same if and only if they have one order. -/
theorem IsContainedIn.same_iff_order_eq (h : G.IsContainedIn H) :
    G.same H = true ↔ G.order = H.order := by
  constructor
  · exact order_eq_of_same
  · exact fun horder => same_iff.mpr ⟨h, h.of_order_eq horder⟩

/-! ## The elements of two groups -/

theorem isProductOf_iff_contains {p : Perm G.degree} :
    IsProductOf G.generators p ↔ G.contains p = true :=
  mem_generated_iff.symm.trans G.contains_iff_mem.symm

theorem same_iff_isProductOf :
    G.same H = true ↔ ∃ h : G.degree = H.degree, ∀ p : Perm G.degree,
      IsProductOf G.generators p ↔ IsProductOf H.generators (h ▸ p) := by
  constructor
  · intro hsame
    have h := degree_eq_of_same hsame
    refine ⟨h, fun p => ?_⟩
    rw [isProductOf_iff_contains, same_iff_contains.mp hsame p, contains_iff,
      exists_prop_of_true h]
    exact mem_generated_iff
  · rintro ⟨h, hproducts⟩
    rw [same_iff_contains]
    intro n p
    constructor
    · intro hp
      obtain rfl := degree_eq_of_contains hp
      rw [contains_iff]
      exact ⟨h, mem_generated_iff.mpr ((hproducts p).mp (isProductOf_iff_contains.mpr hp))⟩
    · intro hp
      obtain ⟨hn, hmember⟩ := H.contains_iff.mp hp
      obtain rfl : n = G.degree := hn.trans h.symm
      exact isProductOf_iff_contains.mp ((hproducts p).mpr (mem_generated_iff.mp hmember))

/-- The lists of images of the elements. -/
def elementImages (G : PermGroup) : List (List Nat) :=
  G.elements.map toList

theorem mem_elementImages_iff {images : List Nat} :
    images ∈ G.elementImages ↔ ∃ n, ∃ p : Perm n, G.contains p = true ∧ p.toList = images := by
  rw [elementImages, List.mem_map]
  constructor
  · rintro ⟨p, hp, himages⟩
    exact ⟨_, p, G.contains_iff_mem.mpr (mem_elements_iff.mp hp), himages⟩
  · rintro ⟨n, p, hp, himages⟩
    obtain rfl := degree_eq_of_contains hp
    exact ⟨p, mem_elements_iff.mpr (G.contains_iff_mem.mp hp), himages⟩

theorem contains_iff_toList_mem {p : Perm n} :
    G.contains p = true ↔ p.toList ∈ G.elementImages := by
  rw [mem_elementImages_iff]
  constructor
  · intro hp
    exact ⟨n, p, hp, rfl⟩
  · rintro ⟨m, q, hq, himages⟩
    obtain rfl : m = n := by
      rw [← length_toList q, himages, length_toList]
    rwa [← toList_injective himages]

theorem same_iff_elementImages :
    G.same H = true ↔ G.elementImages.Perm H.elementImages := by
  have hG : G.elementImages.Nodup := G.nodup_elements.map toList_injective
  have hH : H.elementImages.Nodup := H.nodup_elements.map toList_injective
  rw [same_iff_contains, List.perm_ext_iff_of_nodup hG hH]
  constructor
  · intro h images
    rw [mem_elementImages_iff, mem_elementImages_iff]
    exact exists_congr fun n => exists_congr fun p => and_congr_left' (h p)
  · intro h n p
    rw [contains_iff_toList_mem, contains_iff_toList_mem, h]

/-- To be the same is an equivalence relation between groups, and means to have the same
degree and the same elements: to contain the same permutations, to have the same
products of generators, and to list the same elements in some order. -/
theorem same_equivalence_and_iff_elements :
    Equivalence (fun G H : PermGroup => G.same H = true) ∧
    ∀ G H : PermGroup,
      (G.same H = true ↔ G.degree = H.degree ∧
        ∀ ⦃n : Nat⦄ (p : Perm n), G.contains p = true ↔ H.contains p = true) ∧
      (G.same H = true ↔ ∃ h : G.degree = H.degree, ∀ p : Perm G.degree,
        IsProductOf G.generators p ↔ IsProductOf H.generators (h ▸ p)) ∧
      (G.same H = true ↔ G.degree = H.degree ∧ G.elementImages.Perm H.elementImages) := by
  refine ⟨⟨same_self, same_symm, same_trans⟩, fun G H => ⟨?_, same_iff_isProductOf, ?_⟩⟩
  · rw [← same_iff_contains]
    exact (and_iff_right_of_imp degree_eq_of_same).symm
  · rw [← same_iff_elementImages]
    exact (and_iff_right_of_imp degree_eq_of_same).symm

end PermGroup
end ProcessorSymmetry

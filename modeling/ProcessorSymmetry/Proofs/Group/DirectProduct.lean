import ProcessorSymmetry.Proofs.Group.Equality
import ProcessorSymmetry.Group.Product

/-!
# Direct products

A member of a direct product acts on the range of points of each group by a member
of this group, and every choice of members gives a member of the product.  Hence
only the elements of the groups matter, and not by what they are generated.
-/

namespace ProcessorSymmetry

namespace Perm

variable {m n offset : Nat} {p q : Perm n} {groups : List PermGroup}

/-! ## Permutations that are moved up -/

theorem shift_app_below (p : Perm m) (h : offset + m ≤ n) {x : Nat} (hx : x < offset) :
    p.shift offset n h x = x := by
  rw [shift_app p h (by omega), if_neg (by omega)]

theorem shift_app_inside (p : Perm m) (h : offset + m ≤ n) {x : Nat} (hx : x < m) :
    p.shift offset n h (offset + x) = offset + p x := by
  rw [shift_app p h (by omega), if_pos (Nat.le_add_right _ _), Nat.add_sub_cancel_left]

theorem shift_app_above (p : Perm m) (h : offset + m ≤ n) {x : Nat} (hx : offset + m ≤ x) :
    p.shift offset n h x = x := by
  by_cases hxn : x < n
  · rw [shift_app p h hxn, if_pos (by omega), p.app_of_le (by omega)]
    omega
  · exact app_of_le _ (Nat.not_lt.mp hxn)

/-- A point lies below the range of `m` points from `offset` on, inside of it or above it. -/
theorem range_cases (offset m x : Nat) :
    x < offset ∨ (∃ y < m, x = offset + y) ∨ offset + m ≤ x := by
  by_cases hlow : x < offset
  · exact .inl hlow
  · by_cases hhigh : offset + m ≤ x
    · exact .inr (.inr hhigh)
    · exact .inr (.inl ⟨x - offset, by omega, by omega⟩)

theorem shift_one (h : offset + m ≤ n) : (1 : Perm m).shift offset n h = 1 := by
  apply ext
  intro x _
  rw [one_app]
  rcases range_cases offset m x with hx | ⟨y, hy, rfl⟩ | hx
  · exact shift_app_below _ h hx
  · rw [shift_app_inside _ h hy, one_app]
  · exact shift_app_above _ h hx

theorem shift_mul (p q : Perm m) (h : offset + m ≤ n) :
    (p * q).shift offset n h = p.shift offset n h * q.shift offset n h := by
  apply ext
  intro x _
  rw [mul_app]
  rcases range_cases offset m x with hx | ⟨y, hy, rfl⟩ | hx
  · simp only [shift_app_below _ h hx]
  · rw [shift_app_inside _ h hy, shift_app_inside _ h hy, shift_app_inside _ h (p.app_lt hy),
      mul_app]
  · simp only [shift_app_above _ h hx]

/-! ## Permutations of ranges side by side -/

/-- Groups have ranges of points, one after the other from `offset` on, and `p` acts
on each range by an element of its group. -/
def ActsInRanges (p : Perm n) : Nat → List PermGroup → Prop
  | _, [] => True
  | offset, G :: rest =>
    (∃ q : Perm G.degree, G.contains q = true ∧ ∀ x < G.degree, p (offset + x) = offset + q x) ∧
      p.ActsInRanges (offset + G.degree) rest

/-- Only what happens from the first range on matters. -/
theorem ActsInRanges.congr (h : p.ActsInRanges offset groups)
    (hsame : ∀ x, offset ≤ x → p x = q x) : q.ActsInRanges offset groups := by
  induction groups generalizing offset with
  | nil => exact True.intro
  | cons G rest ih =>
      obtain ⟨⟨r, hr, hfirst⟩, hrest⟩ := h
      refine ⟨⟨r, hr, fun x hx => ?_⟩, ih hrest fun x hx => hsame x (by omega)⟩
      rw [← hsame _ (Nat.le_add_right _ _), hfirst x hx]

theorem actsInRanges_one (offset : Nat) (groups : List PermGroup) :
    (1 : Perm n).ActsInRanges offset groups := by
  induction groups generalizing offset with
  | nil => exact True.intro
  | cons G rest ih => exact ⟨⟨1, G.contains_one, by simp⟩, ih _⟩

theorem ActsInRanges.mul (hp : p.ActsInRanges offset groups)
    (hq : q.ActsInRanges offset groups) : (p * q).ActsInRanges offset groups := by
  induction groups generalizing offset with
  | nil => exact True.intro
  | cons G rest ih =>
      obtain ⟨⟨r, hr, hpr⟩, hpRest⟩ := hp
      obtain ⟨⟨s, hs, hqs⟩, hqRest⟩ := hq
      rw [PermGroup.contains_iff_mem] at hr hs
      refine ⟨⟨r * s, G.contains_iff_mem.mpr (G.members.mul_mem hr hs), fun x hx => ?_⟩,
        ih hpRest hqRest⟩
      rw [mul_app, hpr x hx, hqs _ (r.app_lt hx), mul_app]

theorem ActsInRanges.inv (hp : p.ActsInRanges offset groups) :
    p⁻¹.ActsInRanges offset groups := by
  induction groups generalizing offset with
  | nil => exact True.intro
  | cons G rest ih =>
      obtain ⟨⟨r, hr, hpr⟩, hrest⟩ := hp
      rw [PermGroup.contains_iff_mem] at hr
      refine ⟨⟨r⁻¹, G.contains_iff_mem.mpr (G.members.inv_mem hr), fun x hx => ?_⟩, ih hrest⟩
      rw [inv_app_eq_iff, hpr _ (r⁻¹.app_lt hx), app_inv_app]

/-- The permutations of `0..n` that fix all points below the first range and act on
each range by an element of its group. -/
def inRanges (n offset : Nat) (groups : List PermGroup) : Subgroup (Perm n) where
  carrier := {p | (∀ x < offset, p x = x) ∧ p.ActsInRanges offset groups}
  one_mem' := ⟨by simp, actsInRanges_one offset groups⟩
  mul_mem' := by
    rintro p q ⟨hp, hpActs⟩ ⟨hq, hqActs⟩
    refine ⟨fun x hx => ?_, hpActs.mul hqActs⟩
    rw [mul_app, hp x hx, hq x hx]
  inv_mem' := by
    rintro p ⟨hp, hpActs⟩
    refine ⟨fun x hx => ?_, hpActs.inv⟩
    rw [inv_app_eq_iff, hp x hx]

/-- What acts on the later ranges fixes the first one. -/
theorem inRanges_le_cons (n offset : Nat) (G : PermGroup) (groups : List PermGroup) :
    inRanges n (offset + G.degree) groups ≤ inRanges n offset (G :: groups) := by
  rintro p ⟨hfixed, hacts⟩
  refine ⟨fun x hx => hfixed x (by omega), ⟨1, G.contains_one, fun x hx => ?_⟩, hacts⟩
  rw [hfixed _ (by omega), one_app]

theorem shift_mem_inRanges {G : PermGroup} {g : Perm G.degree} (hg : G.contains g = true)
    (h : offset + G.degree ≤ n) : g.shift offset n h ∈ inRanges n offset (G :: groups) := by
  refine ⟨fun x hx => shift_app_below g h hx,
    ⟨g, hg, fun x hx => shift_app_inside g h hx⟩, ?_⟩
  exact (actsInRanges_one _ groups).congr fun x hx => by
    rw [one_app, shift_app_above g h hx]

end Perm

namespace PermGroup

open Perm

variable {n offset : Nat} {groups : List PermGroup}

/-! ## The members of a product -/

theorem generated_sideBySide_le (h : offset + totalDegree groups ≤ n) :
    generated (sideBySide n offset groups h) ≤ inRanges n offset groups := by
  induction groups generalizing offset with
  | nil => simp [sideBySide]
  | cons G rest ih =>
      rw [generated_le]
      intro p hp
      rw [sideBySide] at hp
      rcases List.mem_append.mp hp with hfirst | hrest
      · obtain ⟨g, hg, rfl⟩ := List.mem_map.mp hfirst
        exact shift_mem_inRanges (G.contains_iff_mem.mpr (subset_generated hg)) _
      · exact inRanges_le_cons n offset G rest (ih _ (subset_generated hrest))

/-- A member of the first group, moved up to its range, is generated. -/
theorem shift_mem_sideBySide {G : PermGroup} (hG : offset + G.degree ≤ n)
    (h : offset + totalDegree (G :: groups) ≤ n) {g : Perm G.degree} (hg : g ∈ G.members) :
    g.shift offset n hG ∈ generated (sideBySide n offset (G :: groups) h) := by
  refine generated_induction
    (P := fun g => g.shift offset n hG ∈ generated (sideBySide n offset (G :: groups) h))
    ?_ ?_ hg
  · rw [shift_one]
    exact Subgroup.one_mem _
  · intro p hp g hg
    rw [shift_mul]
    refine Subgroup.mul_mem _ hp (subset_generated ?_)
    exact List.mem_append_left _ (List.mem_map_of_mem hg)

/-- First the points of the first range move, then those of the others. -/
theorem exists_eq_shift_mul {G : PermGroup} (hG : offset + G.degree ≤ n) {p : Perm n}
    (hp : p ∈ inRanges n offset (G :: groups)) :
    ∃ q ∈ G.members, ∃ r ∈ inRanges n (offset + G.degree) groups,
      p = q.shift offset n hG * r := by
  obtain ⟨hfixed, ⟨q, hq, hfirst⟩, hrest⟩ := hp
  refine ⟨q, G.contains_iff_mem.mp hq, q⁻¹.shift offset n hG * p,
    ⟨fun x hx => ?_, hrest.congr fun x hx => ?_⟩, ?_⟩
  · rw [mul_app]
    rcases range_cases offset G.degree x with hlow | ⟨y, hy, rfl⟩ | hhigh
    · rw [shift_app_below _ hG hlow, hfixed x hlow]
    · rw [shift_app_inside _ hG hy, hfirst _ (q⁻¹.app_lt hy), app_inv_app]
    · omega
  · rw [mul_app, shift_app_above _ hG hx]
  · rw [← mul_assoc, ← shift_mul, mul_inv_cancel, shift_one, one_mul]

theorem inRanges_eq_bot (n : Nat) : inRanges n n [] = ⊥ := by
  rw [Subgroup.eq_bot_iff_forall]
  rintro p ⟨hfixed, -⟩
  apply ext
  intro x hx
  rw [one_app, hfixed x hx]

theorem inRanges_le_generated_sideBySide (h : offset + totalDegree groups = n) :
    inRanges n offset groups ≤ generated (sideBySide n offset groups h.le) := by
  induction groups generalizing offset with
  | nil =>
      obtain rfl : offset = n := h
      rw [inRanges_eq_bot]
      exact bot_le
  | cons G rest ih =>
      intro p hp
      rw [totalDegree, ← Nat.add_assoc] at h
      have hG : offset + G.degree ≤ n := by omega
      obtain ⟨q, hq, r, hr, rfl⟩ := exists_eq_shift_mul hG hp
      refine Subgroup.mul_mem _ (shift_mem_sideBySide hG _ hq) ?_
      exact generated_mono (fun g hg => List.mem_append_right _ hg) (ih h hr)

theorem members_directProduct (groups : List PermGroup) :
    (directProduct groups).members = inRanges (totalDegree groups) 0 groups :=
  (generated_sideBySide_le (Nat.zero_add _).le).antisymm
    (inRanges_le_generated_sideBySide (Nat.zero_add _))

/-- The direct product consists of the permutations that act on the range of each
group by an element of this group. -/
theorem contains_directProduct_iff {p : Perm n} :
    (directProduct groups).contains p = true ↔
      n = totalDegree groups ∧ p.ActsInRanges 0 groups := by
  constructor
  · intro h
    obtain rfl : n = totalDegree groups := degree_eq_of_contains h
    have hp : p ∈ (directProduct groups).members := (contains_iff_mem _).mp h
    rw [members_directProduct] at hp
    exact ⟨rfl, hp.2⟩
  · rintro ⟨rfl, hp⟩
    refine (contains_iff_mem (directProduct groups)).mpr ?_
    rw [members_directProduct]
    exact ⟨by simp, hp⟩

/-! ## Groups with the same elements -/

theorem totalDegree_eq_of_same {others : List PermGroup}
    (h : List.Forall₂ (fun G H => G.same H = true) groups others) :
    totalDegree groups = totalDegree others := by
  induction h with
  | nil => rfl
  | cons hsame _ ih => rw [totalDegree, totalDegree, degree_eq_of_same hsame, ih]

/-- The degree of an element need not be known beforehand. -/
theorem exists_acting_iff {G : PermGroup} {p : Perm n} :
    (∃ q : Perm G.degree, G.contains q = true ∧
      ∀ x < G.degree, p (offset + x) = offset + q x) ↔
    ∃ (m : Nat) (q : Perm m), G.contains q = true ∧ ∀ x < m, p (offset + x) = offset + q x := by
  constructor
  · rintro ⟨q, hq⟩
    exact ⟨G.degree, q, hq⟩
  · rintro ⟨m, q, hq, hacts⟩
    obtain rfl := degree_eq_of_contains hq
    exact ⟨q, hq, hacts⟩

theorem actsInRanges_iff_of_same {others : List PermGroup} {p : Perm n}
    (h : List.Forall₂ (fun G H => G.same H = true) groups others) :
    p.ActsInRanges offset groups ↔ p.ActsInRanges offset others := by
  induction h generalizing offset with
  | nil => exact Iff.rfl
  | cons hsame _ ih =>
      have hdegree := degree_eq_of_same hsame
      rw [same_iff_contains] at hsame
      rw [ActsInRanges, ActsInRanges, exists_acting_iff, exists_acting_iff, hdegree, ih]
      simp only [hsame _]

/-- A direct product only depends on the elements of its groups. -/
theorem same_directProduct {others : List PermGroup}
    (h : List.Forall₂ (fun G H => G.same H = true) groups others) :
    (directProduct groups).same (directProduct others) = true := by
  rw [same_iff_contains]
  intro n p
  rw [contains_directProduct_iff, contains_directProduct_iff, totalDegree_eq_of_same h,
    actsInRanges_iff_of_same h]

end PermGroup
end ProcessorSymmetry

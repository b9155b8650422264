import Mathlib.Algebra.BigOperators.Group.List.Basic
import ProcessorSymmetry.Proofs.Group.DirectProduct

/-!
# Ranges of a direct product

A permutation belongs to a direct product exactly if it maps the range of points of each
group onto itself and belongs to this group there.  Hence the order of the product is the
product of the orders, and a product among the groups may be replaced by its own groups.
-/

namespace ProcessorSymmetry

namespace Perm

variable {m n offset : Nat} {p : Perm n} {groups others : List PermGroup}

/-! ## Restrictions -/

/-- The range of `m` points from `offset` on is mapped onto itself. -/
def KeepsRange (p : Perm n) (offset m : Nat) : Prop :=
  ∀ x, offset ≤ p x ∧ p x < offset + m ↔ offset ≤ x ∧ x < offset + m

theorem KeepsRange.app_bounds (h : p.KeepsRange offset m) {x : Nat} (hx : x < m) :
    offset ≤ p (offset + x) ∧ p (offset + x) < offset + m :=
  (h _).mpr ⟨Nat.le_add_right offset x, Nat.add_lt_add_left hx offset⟩

theorem KeepsRange.inv (h : p.KeepsRange offset m) : p⁻¹.KeepsRange offset m := by
  intro x
  rw [← h (p⁻¹ x), app_inv_app]

/-- What a permutation does on a range that it keeps, moved down to the points from zero on. -/
def restriction (p : Perm n) (offset m : Nat) (h : p.KeepsRange offset m) : Perm m :=
  have hlt : ∀ q : Perm n, q.KeepsRange offset m → ∀ x < m, q (offset + x) - offset < m := by
    intro q hq x hx
    have := hq.app_bounds hx
    omega
  have hinv : ∀ q r : Perm n, q.KeepsRange offset m → (∀ y, r (q y) = y) → ∀ x < m,
      r (offset + (q (offset + x) - offset)) - offset = x := by
    intro q r hq hqr x hx
    rw [Nat.add_sub_cancel' (hq.app_bounds hx).1, hqr, Nat.add_sub_cancel_left]
  ofFn (fun x => p (offset + x) - offset) (fun x => p⁻¹ (offset + x) - offset)
    (hlt p h) (hlt p⁻¹ h.inv) (hinv p p⁻¹ h p.inv_app_app) (hinv p⁻¹ p h.inv p.app_inv_app)

theorem add_restriction_app (h : p.KeepsRange offset m) {x : Nat} (hx : x < m) :
    p (offset + x) = offset + p.restriction offset m h x := by
  rw [restriction, ofFn_app hx, Nat.add_sub_cancel' (h.app_bounds hx).1]

/-- A permutation that acts on a range like a permutation of its points keeps the range. -/
theorem keepsRange_of_acts {q : Perm m} (h : ∀ x < m, p (offset + x) = offset + q x) :
    p.KeepsRange offset m := by
  intro x
  constructor
  · rintro ⟨hle, hlt⟩
    obtain ⟨z, hz⟩ := Nat.exists_eq_add_of_le hle
    have hzm : q⁻¹ z < m := q⁻¹.app_lt (by omega)
    have hx : x = offset + q⁻¹ z := by
      apply p.app_injective
      rw [h _ hzm, app_inv_app, hz]
    omega
  · rintro ⟨hle, hlt⟩
    obtain ⟨y, rfl⟩ := Nat.exists_eq_add_of_le hle
    have hy : y < m := by omega
    rw [h y hy]
    have := q.app_lt hy
    omega

/-- A permutation acts on a range by an element of a group if its restriction belongs to it. -/
theorem exists_acting_iff_restriction {G : PermGroup} :
    (∃ q : Perm G.degree, G.contains q = true ∧
      ∀ x < G.degree, p (offset + x) = offset + q x) ↔
    ∃ h : p.KeepsRange offset G.degree,
      G.contains (p.restriction offset G.degree h) = true := by
  constructor
  · rintro ⟨q, hq, hacts⟩
    have h := keepsRange_of_acts hacts
    have heq : p.restriction offset G.degree h = q := by
      apply ext
      intro x hx
      exact Nat.add_left_cancel ((add_restriction_app h hx).symm.trans (hacts x hx))
    exact ⟨h, heq ▸ hq⟩
  · rintro ⟨h, hcontains⟩
    exact ⟨_, hcontains, fun x hx => add_restriction_app h hx⟩

/-! ## Ranges side by side -/

/-- Each range is the one that follows the ranges of all groups before. -/
theorem actsInRanges_iff_getElem? :
    p.ActsInRanges offset groups ↔ ∀ (i : Nat) (G : PermGroup), groups[i]? = some G →
      ∃ q : Perm G.degree, G.contains q = true ∧ ∀ x < G.degree,
        p (offset + PermGroup.totalDegree (groups.take i) + x) =
          offset + PermGroup.totalDegree (groups.take i) + q x := by
  induction groups generalizing offset with
  | nil => simp [ActsInRanges]
  | cons G rest ih =>
      rw [ActsInRanges, ih]
      constructor
      · rintro ⟨hfirst, hrest⟩ i H hH
        cases i with
        | zero =>
            obtain rfl := Option.some.inj hH
            exact hfirst
        | succ i =>
            rw [List.take_succ_cons, PermGroup.totalDegree, ← Nat.add_assoc]
            exact hrest i H hH
      · intro h
        refine ⟨h 0 G rfl, fun i H hH => ?_⟩
        have hlater := h (i + 1) H hH
        rwa [List.take_succ_cons, PermGroup.totalDegree, ← Nat.add_assoc] at hlater

theorem actsInRanges_append :
    p.ActsInRanges offset (groups ++ others) ↔ p.ActsInRanges offset groups ∧
      p.ActsInRanges (offset + PermGroup.totalDegree groups) others := by
  induction groups generalizing offset with
  | nil => simp [ActsInRanges, PermGroup.totalDegree]
  | cons G rest ih =>
      rw [List.cons_append, ActsInRanges, ActsInRanges, ih, PermGroup.totalDegree,
        ← Nat.add_assoc, and_assoc]

/-- The ranges may be moved together with the permutation. -/
theorem actsInRanges_add_iff {q : Perm m} {k : Nat}
    (h : ∀ x, k ≤ x → x < k + PermGroup.totalDegree groups → p (offset + x) = offset + q x) :
    p.ActsInRanges (offset + k) groups ↔ q.ActsInRanges k groups := by
  induction groups generalizing k with
  | nil => exact Iff.rfl
  | cons G rest ih =>
      rw [PermGroup.totalDegree] at h
      rw [ActsInRanges, ActsInRanges, Nat.add_assoc]
      refine and_congr (exists_congr fun r => and_congr_right fun _ => ?_)
        (ih fun x hle hlt => h x (by omega) (by omega))
      refine forall_congr' fun x => imp_congr_right fun hx => ?_
      rw [Nat.add_assoc, h (k + x) (by omega) (by omega), Nat.add_assoc, Nat.add_left_cancel_iff]

theorem ActsInRanges.app_bounds (h : p.ActsInRanges offset groups) {x : Nat}
    (hx : x < PermGroup.totalDegree groups) :
    offset ≤ p (offset + x) ∧ p (offset + x) < offset + PermGroup.totalDegree groups := by
  induction groups generalizing offset x with
  | nil => exact absurd hx (Nat.not_lt_zero x)
  | cons G rest ih =>
      obtain ⟨⟨q, -, hfirst⟩, hrest⟩ := h
      rw [PermGroup.totalDegree] at hx ⊢
      by_cases hxG : x < G.degree
      · have := q.app_lt hxG
        rw [hfirst x hxG]
        omega
      · obtain ⟨y, rfl⟩ := Nat.exists_eq_add_of_le (Nat.not_lt.mp hxG)
        have := ih hrest (x := y) (by omega)
        rw [Nat.add_assoc] at this
        omega

/-- Ranges side by side are one range that is kept. -/
theorem ActsInRanges.keepsRange (h : p.ActsInRanges offset groups) :
    p.KeepsRange offset (PermGroup.totalDegree groups) := by
  intro x
  constructor
  · rintro ⟨hle, hlt⟩
    obtain ⟨z, hz⟩ := Nat.exists_eq_add_of_le hle
    have := h.inv.app_bounds (x := z) (by omega)
    rwa [← hz, inv_app_app] at this
  · rintro ⟨hle, hlt⟩
    obtain ⟨y, rfl⟩ := Nat.exists_eq_add_of_le hle
    exact h.app_bounds (by omega)

end Perm

namespace PermGroup

open Perm

variable {n offset : Nat} {groups front inner back : List PermGroup} {p : Perm n}

/-- A permutation belongs to a direct product if it maps the range of each group onto
itself and its restriction to this range belongs to the group. -/
theorem contains_directProduct_iff_restriction :
    (directProduct groups).contains p = true ↔
      n = totalDegree groups ∧ ∀ (i : Nat) (G : PermGroup), groups[i]? = some G →
        ∃ h : p.KeepsRange (totalDegree (groups.take i)) G.degree,
          G.contains (p.restriction (totalDegree (groups.take i)) G.degree h) = true := by
  rw [contains_directProduct_iff, actsInRanges_iff_getElem?]
  refine and_congr_right fun _ => forall_congr' fun i => forall_congr' fun G =>
    imp_congr_right fun _ => ?_
  rw [Nat.zero_add, exists_acting_iff_restriction]

/-! ## Orders -/

theorem card_inRanges_cons {G : PermGroup} (hG : offset + G.degree ≤ n) :
    Nat.card (inRanges n offset (G :: groups)) =
      G.order * Nat.card (inRanges n (offset + G.degree) groups) := by
  let join : G.members × inRanges n (offset + G.degree) groups →
      inRanges n offset (G :: groups) := fun parts =>
    ⟨parts.1.1.shift offset n hG * parts.2.1, Subgroup.mul_mem _
      (shift_mem_inRanges (G.contains_iff_mem.mpr parts.1.2) hG)
      (inRanges_le_cons n offset G groups parts.2.2)⟩
  have hfirst : ∀ parts, ∀ x < G.degree, (join parts).1 (offset + x) = offset + parts.1.1 x := by
    intro parts x hx
    have := parts.1.1.app_lt hx
    change (parts.1.1.shift offset n hG * parts.2.1) (offset + x) = _
    rw [mul_app, shift_app_inside _ hG hx, parts.2.2.1 _ (by omega)]
  have hinjective : Function.Injective join := by
    rintro ⟨q, r⟩ ⟨q', r'⟩ h
    have hq : q = q' := by
      apply Subtype.ext
      apply ext
      intro x hx
      apply Nat.add_left_cancel (n := offset)
      rw [← hfirst ⟨q, r⟩ x hx, ← hfirst ⟨q', r'⟩ x hx, h]
    subst hq
    have hr : r = r' := Subtype.ext (mul_left_cancel (congrArg Subtype.val h))
    rw [hr]
  have hsurjective : Function.Surjective join := by
    rintro ⟨p, hp⟩
    obtain ⟨q, hq, r, hr, rfl⟩ := exists_eq_shift_mul hG hp
    exact ⟨⟨⟨q, hq⟩, ⟨r, hr⟩⟩, rfl⟩
  rw [order_eq_card, ← Nat.card_prod]
  exact (Nat.card_congr (Equiv.ofBijective join ⟨hinjective, hsurjective⟩)).symm

theorem card_inRanges (h : offset + totalDegree groups = n) :
    Nat.card (inRanges n offset groups) = (groups.map order).prod := by
  induction groups generalizing offset with
  | nil =>
      obtain rfl : offset = n := h
      rw [inRanges_eq_bot, Subgroup.card_bot]
      rfl
  | cons G rest ih =>
      rw [totalDegree, ← Nat.add_assoc] at h
      rw [card_inRanges_cons (by omega), ih h, List.map_cons, List.prod_cons]

/-- The order of a direct product is the product of the orders. -/
theorem order_directProduct (groups : List PermGroup) :
    (directProduct groups).order = (groups.map order).prod := by
  rw [order_eq_card, members_directProduct]
  exact card_inRanges (Nat.zero_add _)

/-! ## Products in products -/

theorem totalDegree_append (front back : List PermGroup) :
    totalDegree (front ++ back) = totalDegree front + totalDegree back := by
  induction front with
  | nil => rw [List.nil_append, totalDegree, Nat.zero_add]
  | cons G rest ih => rw [List.cons_append, totalDegree, totalDegree, ih, Nat.add_assoc]

theorem exists_acting_directProduct_iff :
    (∃ q : Perm (directProduct inner).degree, (directProduct inner).contains q = true ∧
      ∀ x < (directProduct inner).degree, p (offset + x) = offset + q x) ↔
    p.ActsInRanges offset inner := by
  have hmoved : ∀ {q : Perm (totalDegree inner)},
      (∀ x < totalDegree inner, p (offset + x) = offset + q x) →
        (p.ActsInRanges offset inner ↔ q.ActsInRanges 0 inner) := fun hacts =>
    actsInRanges_add_iff (k := 0) fun x _ hx => hacts x (by omega)
  constructor
  · rintro ⟨q, hq, hacts⟩
    exact (hmoved hacts).mpr (contains_directProduct_iff.mp hq).2
  · intro h
    have hacts := fun x => add_restriction_app h.keepsRange (x := x)
    exact ⟨_, contains_directProduct_iff.mpr ⟨rfl, (hmoved hacts).mp h⟩, hacts⟩

/-- In place of a product its groups may be listed. -/
theorem same_directProduct_splice (front inner back : List PermGroup) :
    (directProduct (front ++ directProduct inner :: back)).same
      (directProduct (front ++ inner ++ back)) = true := by
  rw [same_iff_contains]
  intro n p
  have hdegree : totalDegree (front ++ directProduct inner :: back) =
      totalDegree (front ++ inner ++ back) := by
    rw [totalDegree_append, totalDegree_append, totalDegree_append, totalDegree, Nat.add_assoc]
    rfl
  have hinner : (directProduct inner).degree = totalDegree inner := rfl
  rw [contains_directProduct_iff, contains_directProduct_iff, hdegree, actsInRanges_append,
    actsInRanges_append, actsInRanges_append, ActsInRanges, exists_acting_directProduct_iff,
    totalDegree_append front inner, ← Nat.add_assoc, hinner, and_assoc]

end PermGroup
end ProcessorSymmetry

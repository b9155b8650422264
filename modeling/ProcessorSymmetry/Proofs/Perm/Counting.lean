import Mathlib.Data.Finite.Perm
import Mathlib.Data.Fintype.Fin
import Mathlib.GroupTheory.Perm.DomMulAct
import Mathlib.Order.Interval.Finset.Nat
import Mathlib.SetTheory.Cardinal.Finite
import ProcessorSymmetry.Factorial
import ProcessorSymmetry.Proofs.Perm.Group

/-!
# Counting permutations

The permutations that fix every point outside of a range rearrange the points of
the range at will, so that there are as many of them as the factorial of its
length.  Those that keep a label on every point rearrange at will the points of
each label.
-/

namespace ProcessorSymmetry

theorem factorial_eq (n : Nat) : factorial n = Nat.factorial n := by
  induction n with
  | zero => exact factorial_zero
  | succ n ih => rw [factorial_succ, ih, Nat.factorial_succ]

namespace Perm

variable {n first last : Nat}

theorem get_ofFn_symm (e : Equiv.Perm (Fin n)) (i : Fin n) :
    (Vector.ofFn e.symm).get ((Vector.ofFn e).get i) = i := by
  calc
    (Vector.ofFn e.symm).get ((Vector.ofFn e).get i) = e.symm ((Vector.ofFn e).get i) :=
      Vector.getElem_ofFn _
    _ = e.symm (e i) := congrArg e.symm (Vector.getElem_ofFn _)
    _ = i := e.symm_apply_apply i

/-- The same permutation as a bijection between the points of the domain. -/
def toBijection (p : Perm n) : Equiv.Perm (Fin n) where
  toFun := p.images.get
  invFun := p.preimages.get
  left_inv := p.preimage_image
  right_inv := p.image_preimage

/-- The permutation that acts on the domain as a bijection. -/
def ofBijection (e : Equiv.Perm (Fin n)) : Perm n where
  images := Vector.ofFn e
  preimages := Vector.ofFn e.symm
  preimage_image := get_ofFn_symm e
  image_preimage := get_ofFn_symm e.symm

theorem ofBijection_toBijection (p : Perm n) : ofBijection p.toBijection = p := by
  apply ext
  intro x hx
  rw [app_of_lt _ hx, app_of_lt _ hx]
  exact congrArg Fin.val (Vector.getElem_ofFn hx)

theorem toBijection_ofBijection (e : Equiv.Perm (Fin n)) : (ofBijection e).toBijection = e := by
  ext i
  exact congrArg Fin.val (Vector.getElem_ofFn i.isLt)

/-- Permutations are the bijections between the points of the domain. -/
def toEquiv : Perm n ≃ Equiv.Perm (Fin n) where
  toFun := toBijection
  invFun := ofBijection
  left_inv := ofBijection_toBijection
  right_inv := toBijection_ofBijection

theorem toEquiv_apply (p : Perm n) (i : Fin n) : (toEquiv p i : Nat) = p i :=
  (app_of_lt p i.isLt).symm

/-- The permutations that fix every point outside of the range from `first` to
just before `last`. -/
def fixingOutside (n first last : Nat) : Subgroup (Perm n) where
  carrier := {p | ∀ x, ¬(first ≤ x ∧ x < last) → p x = x}
  one_mem' := fun x _ => one_app x
  mul_mem' := by
    intro p q hp hq x hx
    rw [mul_app, hp x hx, hq x hx]
  inv_mem' := by
    intro p hp x hx
    rw [inv_app_eq_iff, hp x hx]

/-- A permutation that fixes all points outside of a range keeps the range. -/
theorem app_mem_range_iff {p : Perm n} (hp : p ∈ fixingOutside n first last) (x : Nat) :
    (first ≤ p x ∧ p x < last) ↔ first ≤ x ∧ x < last := by
  constructor
  · intro h
    by_contra hx
    rw [hp x hx] at h
    exact hx h
  · intro h
    by_contra hpx
    have hfix : p x = x := p.app_injective (hp (p x) hpx)
    rw [hfix] at hpx
    exact hpx h

/-- The points outside of the domain are fixed in any case. -/
theorem fixingOutside_min (n first last : Nat) :
    fixingOutside n first (min last n) = fixingOutside n first last := by
  ext p
  constructor
  · intro hp x hx
    exact hp x fun h => hx ⟨h.1, lt_min_iff.mp h.2 |>.1⟩
  · intro hp x hx
    by_cases hxn : x < n
    · exact hp x fun h => hx ⟨h.1, lt_min_iff.mpr ⟨h.2, hxn⟩⟩
    · exact p.app_of_le (Nat.not_lt.mp hxn)

theorem swap_mem_fixingOutside_iff {x y : Nat} (hx : x < n) (hy : y < n) (hxy : x ≠ y) :
    swap n x y ∈ fixingOutside n first last ↔
      (first ≤ x ∧ x < last) ∧ (first ≤ y ∧ y < last) := by
  constructor
  · intro h
    constructor
    · by_contra hout
      have hfixed := h x hout
      rw [swap_app hx hy, if_pos rfl] at hfixed
      exact hxy hfixed.symm
    · by_contra hout
      have hfixed := h y hout
      rw [swap_app hx hy, if_neg hxy.symm, if_pos rfl] at hfixed
      exact hxy hfixed
  · rintro ⟨hxin, hyin⟩ z hz
    rw [swap_app hx hy, if_neg, if_neg]
    · rintro rfl
      exact hz hyin
    · rintro rfl
      exact hz hxin

theorem card_fixingOutside (hlast : last ≤ n) :
    Nat.card (fixingOutside n first last) = factorial (last - first) := by
  let inside := fun i : Fin n => first ≤ i.val ∧ i.val < last
  have hperms : fixingOutside n first last ≃ Equiv.Perm {i // inside i} := by
    refine (toEquiv.subtypeEquiv fun p => ?_).trans (Equiv.Perm.subtypeEquivSubtypePerm inside).symm
    constructor
    · intro hp i hi
      exact Fin.ext ((toEquiv_apply p i).trans (hp i hi))
    · intro hp x hx
      by_cases hxn : x < n
      · exact (toEquiv_apply p ⟨x, hxn⟩).symm.trans (congrArg Fin.val (hp ⟨x, hxn⟩ hx))
      · exact p.app_of_le (Nat.not_lt.mp hxn)
  have hpoints : {i // inside i} ≃ {x // x ∈ Finset.Ico first last} :=
    { toFun := fun i => ⟨i.1, Finset.mem_Ico.mpr i.2⟩
      invFun := fun x =>
        ⟨⟨x.1, (Finset.mem_Ico.mp x.2).2.trans_le hlast⟩, Finset.mem_Ico.mp x.2⟩
      left_inv := fun _ => rfl
      right_inv := fun _ => rfl }
  calc
    Nat.card (fixingOutside n first last) = Nat.card (Equiv.Perm {i // inside i}) :=
      Nat.card_congr hperms
    _ = (Nat.card {i // inside i}).factorial := Nat.card_perm
    _ = (last - first).factorial := by
      rw [Nat.card_congr hpoints, Nat.card_eq_fintype_card, Fintype.card_coe, Nat.card_Ico]
    _ = factorial (last - first) := (factorial_eq _).symm

/-! ## Labelled points -/

variable {α : Type}

/-- The permutations that move every point to one with the same label. -/
def keeping (n : Nat) (f : Nat → α) : Subgroup (Perm n) where
  carrier := {p | ∀ i < n, f (p i) = f i}
  one_mem' := fun i _ => congrArg f (one_app i)
  mul_mem' := by
    intro p q hp hq i hi
    rw [mul_app, hq (p i) (p.app_lt hi), hp i hi]
  inv_mem' := by
    intro p hp i hi
    have hback := hp (p⁻¹ i) (p⁻¹.app_lt hi)
    rw [app_inv_app] at hback
    exact hback.symm

/-- The points of each label are rearranged independently of the others. -/
theorem card_keeping [DecidableEq α] (n : Nat) (f : Nat → α) :
    Nat.card (keeping n f) =
      ∏ k ∈ (Finset.range n).image f, (Finset.card {i ∈ Finset.range n | f i = k}).factorial := by
  let label := fun i : Fin n => f i
  have hperms : keeping n f ≃ {e : Equiv.Perm (Fin n) // label ∘ e = label} := by
    refine toEquiv.subtypeEquiv fun p => ?_
    constructor
    · intro hp
      funext i
      exact (congrArg f (toEquiv_apply p i)).trans (hp i i.isLt)
    · intro hp i hi
      exact (congrArg f (toEquiv_apply p ⟨i, hi⟩)).symm.trans (congrFun hp ⟨i, hi⟩)
  have hrange : Finset.range n = (Finset.univ : Finset (Fin n)).map Fin.valEmbedding := by
    rw [Fin.map_valEmbedding_univ, Nat.Iio_eq_range]
  have hlabels : Finset.univ.image label = (Finset.range n).image f := by
    rw [hrange, Finset.map_eq_image, Finset.image_image]
    rfl
  have hclass : ∀ k, Fintype.card {i // label i = k} =
      Finset.card {i ∈ Finset.range n | f i = k} := by
    intro k
    rw [Fintype.card_subtype, hrange, Finset.filter_map, Finset.card_map]
    rfl
  calc
    Nat.card (keeping n f) = Fintype.card {e : Equiv.Perm (Fin n) // label ∘ e = label} := by
      rw [Nat.card_congr hperms, Nat.card_eq_fintype_card]
    _ = ∏ k ∈ Finset.univ.image label, (Fintype.card {i // label i = k}).factorial :=
      DomMulAct.stabilizer_card' label
    _ = _ := by
      rw [hlabels]
      exact Finset.prod_congr rfl fun k _ => congrArg Nat.factorial (hclass k)

end Perm
end ProcessorSymmetry

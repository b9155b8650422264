import ProcessorSymmetry.Perm.Basic

/-!
# Multiplying by swaps in place

Multiplying by a swap from the left exchanges two images, and from the right two preimages. Both
take the same time at every degree.
-/

namespace ProcessorSymmetry
namespace Perm

variable {n : Nat}

/-- Vectors that undo each other still do so after entries are exchanged in both. -/
theorem swap_get_swap {xs ys : Vector (Fin n) n} (hyx : ∀ i, ys.get (xs.get i) = i)
    (i j k : Fin n) :
    (ys.swap (xs.get i) (xs.get j) (Fin.isLt _) (Fin.isLt _)).get
      ((xs.swap i j i.isLt j.isLt).get k) = k := by
  have hinj : ∀ a b, xs.get a = xs.get b → a = b := by
    intro a b hab
    rw [← hyx a, ← hyx b, hab]
  have hget : ∀ (v : Vector (Fin n) n) (a : Fin n), v.get a = v[a] := fun _ _ => rfl
  simp only [hget, Fin.getElem_fin, Vector.getElem_swap] at hinj hyx ⊢
  by_cases hki : k = i
  · subst hki
    by_cases hkj : k = j
    · subst hkj
      simpa using hyx k
    · have hne : ¬(xs[j] : Fin n).val = (xs[k] : Fin n).val := fun h =>
        hkj (hinj k j (Fin.ext h).symm)
      have := hyx k
      simp_all
  · by_cases hkj : k = j
    · subst hkj
      have hne : ¬k.val = i.val := fun h => hki (Fin.ext h)
      have := hyx k
      simp_all
    · have hi : ¬k.val = i.val := fun h => hki (Fin.ext h)
      have hj : ¬k.val = j.val := fun h => hkj (Fin.ext h)
      have hxi : ¬(xs[k] : Fin n).val = (xs[i] : Fin n).val := fun h => hki (hinj k i (Fin.ext h))
      have hxj : ¬(xs[k] : Fin n).val = (xs[j] : Fin n).val := fun h => hkj (hinj k j (Fin.ext h))
      have := hyx k
      simp_all

theorem swap_get_swap_get {xs ys : Vector (Fin n) n} (hyx : ∀ i, ys.get (xs.get i) = i)
    (hxy : ∀ i, xs.get (ys.get i) = i) (i j k : Fin n) :
    (xs.swap i j i.isLt j.isLt).get
      ((ys.swap (xs.get i) (xs.get j) (Fin.isLt _) (Fin.isLt _)).get k) = k := by
  have key := swap_get_swap hxy (xs.get i) (xs.get j) k
  simp only [hyx] at key
  exact key

/-- The permutation with the images of `i` and `j` exchanged. -/
def exchangeImages (p : Perm n) (i j : Fin n) : Perm n :=
  let images := p.images
  let preimages := p.preimages
  let a := images.get i
  let b := images.get j
  ⟨images.swap i j i.isLt j.isLt, preimages.swap a b a.isLt b.isLt,
    swap_get_swap p.preimage_image i j, swap_get_swap_get p.preimage_image p.image_preimage i j⟩

/-- First the exchange of two points, then `p`. -/
def swapBefore (p : Perm n) (i j : Nat) : Perm n :=
  if h : i < n ∧ j < n then p.exchangeImages ⟨i, h.1⟩ ⟨j, h.2⟩ else p

/-- First `p`, then the exchange of two points. -/
def swapAfter (p : Perm n) (x y : Nat) : Perm n :=
  (p⁻¹.swapBefore x y)⁻¹

theorem swapBefore_eq (p : Perm n) (i j : Nat) : p.swapBefore i j = swap n i j * p := by
  apply ext
  intro x hx
  rw [mul_app, swapBefore]
  split
  · rename_i h
    rw [swap_app h.1 h.2, app_of_lt _ hx]
    simp only [exchangeImages, Vector.getElem_swap]
    split
    · rw [app_of_lt _ h.2]
    · split
      · rw [app_of_lt _ h.1]
      · rw [app_of_lt _ hx]
  · rename_i h
    rw [swap, ofFn_app hx]
    simp [h]

@[simp] theorem swap_swap_app (i j x : Nat) : swap n i j (swap n i j x) = x := by
  by_cases h : i < n ∧ j < n
  · rw [swap_app h.1 h.2, swap_app h.1 h.2]
    (repeat' split) <;> omega
  · by_cases hx : x < n
    · simp [swap, ofFn_app hx, h]
    · rw [app_of_le _ (Nat.not_lt.mp hx), app_of_le _ (Nat.not_lt.mp hx)]

theorem swapAfter_eq (p : Perm n) (x y : Nat) : p.swapAfter x y = p * swap n x y := by
  apply ext
  intro z _
  apply (p⁻¹.swapBefore x y).app_injective
  rw [swapAfter, app_inv_app, swapBefore_eq, mul_app, mul_app, swap_swap_app, inv_app_app]

end Perm
end ProcessorSymmetry

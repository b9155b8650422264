import ProcessorSymmetry.Perm.Embedding
import ProcessorSymmetry.Perm.Images
import ProcessorSymmetry.Proofs.Perm.Group
import Mathlib.Data.Set.Function

/-!
# Permutations and their lists of images

A list is accepted as the images of a permutation exactly if it is the list of
images of one, and then it is of that one.  The lists of images are the bijections
of the domain, written out.
-/

namespace ProcessorSymmetry
namespace Perm

variable {m n : Nat} {images : List Nat}

@[simp] theorem length_toList (p : Perm n) : p.toList.length = n := by
  simp [toList]

theorem toList_perm_range (p : Perm n) : p.toList.Perm (List.range n) := by
  apply perm_of_nodup_of_subset List.nodup_range
  · intro x hx
    rw [toList, List.mem_map]
    exact ⟨p⁻¹ x, List.mem_range.mpr (p⁻¹.app_lt (List.mem_range.mp hx)), p.app_inv_app x⟩
  · simp

theorem mem_toList_iff {p : Perm n} {x : Nat} : x ∈ p.toList ↔ x < n := by
  rw [p.toList_perm_range.mem_iff, List.mem_range]

theorem nodup_toList (p : Perm n) : p.toList.Nodup :=
  p.toList_perm_range.nodup_iff.mpr List.nodup_range

theorem toList_ofCovered (h : covered images = images.length) :
    (ofCovered images h).toList = images := by
  apply List.ext_getElem
  · simp
  · intro i hi hi'
    simp [toList, ofCovered, ofFn_app hi', hi']

theorem covered_toList (p : Perm n) : covered p.toList = p.toList.length := by
  rw [covered_eq, List.length_filter_eq_length_iff.mpr, List.length_range]
  intro x hx
  rw [length_toList, List.mem_range] at hx
  rwa [List.contains_iff_mem, mem_toList_iff]

/-- The only permutation that is made from a list is the one with these images. -/
theorem ofImages_eq_ok_iff {q : Perm images.length} :
    ofImages images = .ok q ↔ q.toList = images := by
  rw [ofImages]
  constructor
  · intro h
    split at h
    · rename_i hcovered
      rw [← Except.ok.inj h]
      exact toList_ofCovered hcovered
    · cases h
  · intro h
    have hcovered : covered images = images.length := by
      have hq := covered_toList q
      rwa [h] at hq
    rw [dif_pos hcovered]
    congr 1
    apply toList_injective
    rw [toList_ofCovered, h]

/-- Every arrangement of the domain is the list of images of a permutation. -/
theorem exists_toList_eq (h : images.Perm (List.range n)) : ∃ p : Perm n, p.toList = images := by
  have hlength : images.length = n := by rw [h.length_eq, List.length_range]
  subst hlength
  have hcovered : covered images = images.length := by
    rw [covered_eq, List.length_filter_eq_length_iff.mpr, List.length_range]
    intro x hx
    rwa [List.contains_iff_mem, h.mem_iff]
  exact ⟨ofCovered images hcovered, toList_ofCovered hcovered⟩

/-! ## Bijections of the domain -/

/-- There is an image for each point of `0..n`, and each point is the image of one. -/
structure IsBijection (n : Nat) (images : List Nat) : Prop where
  length_eq : images.length = n
  bijOn : Set.BijOn (fun x => images.getD x 0) (Set.Iio n) (Set.Iio n)

/-- A bijection of the domain rearranges the points. -/
theorem isBijection_iff_perm_range : IsBijection n images ↔ images.Perm (List.range n) := by
  constructor
  · rintro ⟨rfl, hmaps, hinj, hsurj⟩
    apply perm_of_nodup_of_subset List.nodup_range
    · intro y hy
      obtain ⟨x, hx, rfl⟩ := hsurj (List.mem_range.mp hy)
      rw [Set.mem_Iio] at hx
      simp [hx]
    · simp
  · intro h
    have hlength : images.length = n := by rw [h.length_eq, List.length_range]
    have hnodup : images.Nodup := h.nodup_iff.mpr List.nodup_range
    refine ⟨hlength, ?_, ?_, ?_⟩
    · intro x hx
      rw [Set.mem_Iio, ← hlength] at hx
      have hmem : images[x] ∈ List.range n := h.mem_iff.mp (List.getElem_mem hx)
      simpa [hx] using hmem
    · intro x hx y hy hxy
      rw [Set.mem_Iio, ← hlength] at hx hy
      simpa [hx, hy, hnodup.getElem_inj_iff] using hxy
    · intro y hy
      obtain ⟨x, hx, rfl⟩ := List.getElem_of_mem (h.mem_iff.mpr (List.mem_range.mpr hy))
      exact ⟨x, hlength ▸ hx, by simp [hx]⟩

theorem isBijection_toList (p : Perm n) : IsBijection n p.toList :=
  isBijection_iff_perm_range.mpr p.toList_perm_range

/-- A permutation is read back from its list of images, together with its degree. -/
theorem ofImages_toList (a : AnyPerm) :
    (do let p ← ofImages a.2.toList; return (⟨a.2.toList.length, p⟩ : AnyPerm)) =
      (.ok a : Except Error AnyPerm) := by
  obtain ⟨n, p⟩ := a
  -- The degree `n` and the length of the list are only provably equal.
  have hread : ∀ m, n = m → ∃ q : Perm m, q.toList = p.toList ∧ (⟨m, q⟩ : AnyPerm) = ⟨n, p⟩ := by
    rintro _ rfl
    exact ⟨p, rfl, rfl⟩
  obtain ⟨q, hq, heq⟩ := hread p.toList.length (length_toList p).symm
  rw [ofImages_eq_ok_iff.mpr hq]
  exact congrArg Except.ok heq

theorem ofDegree?_eq_some_iff {p : Perm n} {q : Perm m} :
    p.ofDegree? m = some q ↔ n = m ∧ p.toList = q.toList := by
  rw [ofDegree?]
  constructor
  · intro h
    split at h
    · rename_i heq
      subst heq
      exact ⟨rfl, congrArg toList (Option.some.inj h)⟩
    · cases h
  · rintro ⟨rfl, h⟩
    rw [dif_pos rfl, toList_injective h]

end Perm
end ProcessorSymmetry

import Std.Data.TreeMap
import Std.Data.TreeSet
import ProcessorSymmetry.Perm.Basic

/-!
# Permutations from lists of images

A list of `n` numbers is the list of images of a permutation as soon as it hits every point of
`0..n`: then no number is missing, none is repeated, and none lies outside.
-/

namespace ProcessorSymmetry
namespace Perm

/-- How many points of the domain occur among the images. -/
def covered (images : List Nat) : Nat :=
  let met := Std.TreeSet.ofList images
  ((List.range images.length).filter (met.contains ·)).length

theorem covered_eq (images : List Nat) :
    covered images = ((List.range images.length).filter (images.contains ·)).length := by
  simp [covered, Std.TreeSet.contains_ofList]

theorem mem_of_covered {images : List Nat} (h : covered images = images.length) {x : Nat}
    (hx : x < images.length) : x ∈ images := by
  have hall : ((List.range images.length).filter (images.contains ·)).length =
      (List.range images.length).length := by
    simpa [covered_eq] using h
  have key := List.length_filter_eq_length_iff.mp hall x (List.mem_range.mpr hx)
  simpa using key

/-- A list that contains a repetition-free list of the same length rearranges it. -/
theorem perm_of_nodup_of_subset {xs ys : List Nat} (hnodup : xs.Nodup)
    (hsubset : ∀ x ∈ xs, x ∈ ys) (hlength : ys.length = xs.length) : ys.Perm xs := by
  induction xs generalizing ys with
  | nil => simp_all
  | cons x xs ih =>
    have hmem : x ∈ ys := hsubset x List.mem_cons_self
    have hperm := List.perm_cons_erase hmem
    refine hperm.trans (List.Perm.cons x (ih (List.nodup_cons.mp hnodup).2 ?_ ?_))
    · intro y hy
      have hne : y ≠ x := by
        rintro rfl
        exact (List.nodup_cons.mp hnodup).1 hy
      exact (List.mem_erase_of_ne hne).mpr (hsubset y (List.mem_cons_of_mem x hy))
    · have := hperm.length_eq
      simp only [List.length_cons] at this hlength
      omega

theorem perm_range_of_covered {images : List Nat} (h : covered images = images.length) :
    images.Perm (List.range images.length) := by
  apply perm_of_nodup_of_subset List.nodup_range
  · intro x hx
    exact mem_of_covered h (List.mem_range.mp hx)
  · simp

/-- The position of each entry. -/
def positions (images : List Nat) : Std.TreeMap Nat Nat :=
  Std.TreeMap.ofList images.zipIdx

/-- In a list without repetitions a position is found again from its entry. -/
theorem positions_getElem {images : List Nat} (hnodup : images.Nodup) {i : Nat}
    (h : i < images.length) : (positions images)[images[i]]? = some i := by
  apply Std.TreeMap.getElem?_ofList_of_mem (k := images[i]) (by simp)
  · have hpairs : images.zipIdx.Pairwise fun a b => a.1 ≠ b.1 :=
      List.pairwise_map.mp (by rwa [List.zipIdx_map_fst])
    exact hpairs.imp fun hne heq => hne (by simpa using heq)
  · exact List.mk_mem_zipIdx_iff_getElem?.mpr (List.getElem?_eq_getElem h)

/-- The permutation that sends `i` to the `i`-th entry of a list that hits every point. -/
def ofCovered (images : List Nat) (h : covered images = images.length) : Perm images.length :=
  let entries := images.toArray
  let places := positions images
  have hnodup : images.Nodup := (perm_range_of_covered h).nodup_iff.mpr List.nodup_range
  have hplace : ∀ x, x < images.length → ∃ i, i < images.length ∧ places[x]? = some i ∧
      entries[i]? = some x := by
    intro x hx
    obtain ⟨i, hi, rfl⟩ := List.getElem_of_mem (mem_of_covered h hx)
    exact ⟨i, hi, positions_getElem hnodup hi, by simp [entries, hi]⟩
  ofFn (fun i => entries[i]?.getD i) (fun x => places[x]?.getD x)
    (by
      intro i hi
      have hmem : images[i] ∈ List.range images.length :=
        (perm_range_of_covered h).mem_iff.mp (List.getElem_mem hi)
      simpa [entries, hi] using List.mem_range.mp hmem)
    (by
      intro x hx
      obtain ⟨i, hi, hplace, _⟩ := hplace x hx
      simpa [hplace] using hi)
    (by
      intro i hi
      simp [entries, places, hi, positions_getElem hnodup hi])
    (by
      intro x hx
      obtain ⟨i, _, hplace, hentry⟩ := hplace x hx
      simp [hplace, hentry])

/-- The permutation with the given images, refused if they miss a point. -/
def ofImages (images : List Nat) : Except Error (Perm images.length) :=
  if h : covered images = images.length then
    .ok (ofCovered images h)
  else
    .error (.degreeMismatch images.length (covered images))

/-- The lexicographic order of the image lists, also across degrees. -/
def compareImages {m n : Nat} (p : Perm m) (q : Perm n) : Ordering :=
  compare p.toList q.toList

end Perm

/-- The permutations in ascending order of their image lists. -/
def AnyPerm.sort (perms : List AnyPerm) : List AnyPerm :=
  perms.mergeSort fun p q => (p.2.compareImages q.2).isLE

end ProcessorSymmetry

import Mathlib.Data.Finset.Card
import ProcessorSymmetry.Proofs.Checks
import ProcessorSymmetry.Proofs.Distinct
import ProcessorSymmetry.Proofs.Perm.Images

/-!
# Lists that are accepted as permutations

The places of a list are the numbers below its length.  To accept a list it is enough
to count the places that occur in it: if all of them do, then no entry is left that
could repeat another one or be out of range.  Products and inverses rely on this, and
look entries up and write them without any further check.
-/

namespace ProcessorSymmetry
namespace Perm

variable {n : Nat} {images : List Nat}

/-! ## Counting places -/

/-- The places that occur among the entries of a list. -/
def placesAmong (images : List Nat) : Finset Nat :=
  images.toFinset.filter (· < images.length)

theorem covered_eq_card (images : List Nat) : covered images = (placesAmong images).card := by
  have hnodup : ((List.range images.length).filter (images.contains ·)).Nodup :=
    List.nodup_range.filter _
  rw [covered_eq, ← List.toFinset_card_of_nodup hnodup]
  congr 1
  ext x
  simp [placesAmong, and_comm]

/-- A mark for each place, which is set as soon as the place is met. -/
def marks (images : List Nat) : Array Bool :=
  images.foldl (fun marks x => marks.setIfInBounds x true) (Array.replicate images.length false)

theorem getElem?_foldl_setIfInBounds_true (xs : List Nat) (marks : Array Bool) (i : Nat) :
    (xs.foldl (fun marks x => marks.setIfInBounds x true) marks)[i]? =
      marks[i]?.map (xs.contains i || ·) := by
  induction xs generalizing marks with
  | nil => simp
  | cons x xs ih =>
      rw [List.foldl_cons, ih, Array.getElem?_setIfInBounds]
      by_cases hx : x = i
      · subst hx
        by_cases hlt : x < marks.size
        · simp [hlt]
        · simp [hlt]
      · simp [hx, Ne.symm hx]

theorem toList_marks (images : List Nat) :
    (marks images).toList = (List.range images.length).map (images.contains ·) := by
  apply List.ext_getElem?
  intro i
  rw [Array.getElem?_toList, marks, getElem?_foldl_setIfInBounds_true, Array.getElem?_replicate,
    List.getElem?_map]
  by_cases hi : i < images.length
  · simp [hi]
  · simp [hi]

theorem count_marks (images : List Nat) :
    (marks images).count true = (placesAmong images).card := by
  rw [← Array.count_toList, toList_marks, List.count, List.countP_map,
    List.countP_eq_length_filter, ← covered_eq_card, covered_eq]
  congr 2
  funext x
  simp

/-! ## Acceptance -/

/-- If every place occurs, then every entry is a place and no two are the same. -/
theorem covered_eq_length_iff :
    covered images = images.length ↔ IsBijection images.length images := by
  rw [isBijection_iff_perm_range]
  constructor
  · exact perm_range_of_covered
  · intro h
    obtain ⟨p, hp⟩ := exists_toList_eq h
    have hcovered := covered_toList p
    rwa [hp] at hcovered

theorem exists_ofImages_eq_ok_iff :
    (∃ p, ofImages images = .ok p) ↔ IsBijection images.length images := by
  rw [← covered_eq_length_iff, ofImages]
  constructor
  · rintro ⟨p, hp⟩
    split at hp
    · assumption
    · cases hp
  · intro h
    exact ⟨ofCovered images h, dif_pos h⟩

theorem ofImages_eq_error_iff {cause : Error} :
    ofImages images = .error cause ↔ ¬IsBijection images.length images ∧
      cause = .degreeMismatch images.length (placesAmong images).card := by
  rw [← covered_eq_length_iff, ← covered_eq_card, ofImages]
  split
  · rename_i h
    simp [h]
  · rename_i h
    rw [Except.error.injEq]
    exact ⟨fun hcause => ⟨h, hcause.symm⟩, fun hcause => hcause.2.symm⟩

/-- A list is accepted as the permutation `p`, and its length is the degree of `p`. -/
def IsAcceptedAs (images : List Nat) (p : Perm n) : Prop :=
  (do let q ← ofImages images; return (⟨images.length, q⟩ : AnyPerm)) =
    (.ok ⟨n, p⟩ : Except Error AnyPerm)

theorem isAcceptedAs_iff {p : Perm n} : IsAcceptedAs images p ↔ p.toList = images := by
  constructor
  · intro h
    obtain ⟨q, hq, heq⟩ := bind_eq_ok_iff.mp h
    cases heq
    exact ofImages_eq_ok_iff.mp hq
  · rintro rfl
    exact ofImages_toList ⟨n, p⟩

/-! ## Products and inverses -/

/-- The images of a product, where every entry has to be a place of the second list. -/
def mulChecked (images others : List Nat) : Option (List Nat) :=
  images.mapM (others[·]?)

theorem mulChecked_toList (p q : Perm n) :
    mulChecked p.toList q.toList = some (p * q).toList := by
  have hlookup : ∀ x ∈ p.toList, q.toList[x]? = pure (q x) := by
    intro x hx
    rw [mem_toList_iff] at hx
    simp [toList, hx]
  rw [mulChecked, mapM_eq_pure_map hlookup, toList, List.map_map]
  exact congrArg some (List.map_congr_left fun x _ => (mul_app p q x).symm)

/-- Writes a place to the slot with the number of its image, which has to be there. -/
def placeChecked (places : Array Nat) : Nat × Nat → Option (Array Nat)
  | (x, i) => do
    guard (x < places.size)
    return places.setIfInBounds x i

/-- The images of an inverse, written place by place. -/
def inverseChecked (images : List Nat) : Option (Array Nat) :=
  images.zipIdx.foldlM placeChecked (Array.replicate images.length 0)

theorem foldlM_placeChecked (pairs : List (Nat × Nat)) (places : Array Nat)
    (h : ∀ pair ∈ pairs, pair.1 < places.size) :
    pairs.foldlM placeChecked places =
      some (pairs.foldl (fun places (x, i) => places.setIfInBounds x i) places) := by
  induction pairs generalizing places with
  | nil => rfl
  | cons pair rest ih =>
      obtain ⟨hfirst, hrest⟩ := List.forall_mem_cons.mp h
      rw [List.foldlM_cons, List.foldl_cons, ← ih _ (by simpa using hrest)]
      simp [placeChecked, hfirst, guard]

theorem inverseChecked_toList (p : Perm n) :
    inverseChecked p.toList = some p⁻¹.toList.toArray := by
  have hplaces : ∀ pair ∈ p.toList.zipIdx, pair.1 < (Array.replicate p.toList.length 0).size := by
    intro pair hpair
    simpa using mem_toList_iff.mp (List.fst_mem_of_mem_zipIdx hpair)
  have hnodup : (p.toList.zipIdx.map Prod.fst).Nodup := by
    rw [List.zipIdx_map_fst]
    exact p.nodup_toList
  rw [inverseChecked, foldlM_placeChecked _ _ hplaces]
  congr 1
  apply Array.ext_getElem?
  intro x
  rw [getElem?_foldl_setIfInBounds _ _ hnodup, List.getElem?_toArray]
  by_cases hx : x < n
  · have hmem : (x, p⁻¹ x) ∈ p.toList.zipIdx := by
      rw [List.mk_mem_zipIdx_iff_getElem?]
      simp [toList, p⁻¹.app_lt hx]
    rw [(lookup_eq_some_iff_mem hnodup).mpr hmem]
    simp [toList, hx]
  · simp [toList, hx]

/-- A list is accepted exactly if it is a bijection of its places.  Any other list is
refused with its length and the number of places that occur in it, which is the number of
marks.  The permutations of degree `n` are what the lists of length `n` are accepted as.
They form a group in which the first factor is applied first, and all lookups and writes
for a product or an inverse stay within the lists. -/
theorem ofImages_bijections_and_group_laws :
    (∀ images : List Nat,
      ((∃ p, ofImages images = .ok p) ↔ IsBijection images.length images) ∧
      (∀ cause, ofImages images = .error cause ↔ ¬IsBijection images.length images ∧
        cause = .degreeMismatch images.length (placesAmong images).card) ∧
      (marks images).count true = (placesAmong images).card) ∧
    ∀ {n : Nat} (p q r : Perm n),
      (∀ images, IsAcceptedAs images p ↔ p.toList = images) ∧
      p.compose q = .ok (p * q) ∧
      mulChecked p.toList q.toList = some (p * q).toList ∧
      inverseChecked p.toList = some p⁻¹.toList.toArray ∧
      (1 : Perm n).toList = List.range n ∧
      (∀ x, (p * q) x = q (p x)) ∧
      p * q * r = p * (q * r) ∧
      1 * p = p ∧ p * 1 = p ∧
      p⁻¹ * p = 1 ∧ p * p⁻¹ = 1 := by
  constructor
  · intro images
    exact ⟨exists_ofImages_eq_ok_iff, fun cause => ofImages_eq_error_iff, count_marks images⟩
  · intro n p q r
    have hidentity : (1 : Perm n).toList = List.range n :=
      (List.map_congr_left fun x _ => one_app x).trans (List.map_id _)
    exact ⟨fun images => isAcceptedAs_iff, dif_pos rfl, mulChecked_toList p q,
      inverseChecked_toList p, hidentity, mul_app p q, mul_assoc p q r, one_mul p, mul_one p,
      inv_mul_cancel p, mul_inv_cancel p⟩

/-- Of four places two occur, one of them twice, and one entry is no place. -/
example : ofImages [3, 0, 7, 3] = .error (.degreeMismatch 4 2) := by
  decide +kernel

end Perm
end ProcessorSymmetry

import ProcessorSymmetry.Proofs.Distinct
import ProcessorSymmetry.Proofs.Mapping.Greedy
import ProcessorSymmetry.Proofs.Perm.Counting

/-!
# Numbering in order of first occurrence

Renumbering the processors of a range in the order of their first occurrence
only depends on which entries of a mapping are equal.  Hence all images under
permutations of the range are renumbered alike, and the result is the least of
them.
-/

namespace ProcessorSymmetry

open Perm

variable {n first last : Nat} {p : Perm n} {mapping : TaskMapping}

/-! ## Images are renumbered alike -/

theorem idxOf_map_app (p : Perm n) (points : List Nat) (x : Nat) :
    (points.map p).idxOf (p x) = points.idxOf x := by
  induction points with
  | nil => rfl
  | cons y rest ih =>
      have heq : (p y == p x) = (y == x) := by
        rw [Bool.eq_iff_iff, beq_iff_eq, beq_iff_eq]
        exact ⟨p.app_injective, congrArg p⟩
      simp only [List.map_cons, List.idxOf_cons, heq, ih]

theorem eraseDups_map_app (p : Perm n) (points : List Nat) :
    (points.map p).eraseDups = points.eraseDups.map p := by
  match points with
  | [] => rfl
  | x :: rest =>
      have hrest : (rest.map p).filter (fun y => !y == p x) =
          (rest.filter fun y => !y == x).map p := by
        rw [List.filter_map]
        congr 1
        apply List.filter_congr
        intro y _
        by_cases hxy : y = x
        · simp [hxy]
        · have hne : p y ≠ p x := fun heq => hxy (p.app_injective heq)
          simp [hxy, hne]
      rw [List.map_cons, List.eraseDups_cons, hrest, eraseDups_map_app p, List.eraseDups_cons,
        List.map_cons]
termination_by points.length
decreasing_by exact Nat.lt_succ_of_le (List.length_filter_le _ _)

/-- The points of a range that occur in a mapping, each listed once. -/
def occurring (first last : Nat) (mapping : TaskMapping) : List Nat :=
  (mapping.filter fun x => decide (first ≤ x ∧ x < last)).eraseDups

theorem relabel_eq (first last : Nat) (mapping : TaskMapping) :
    relabel first last mapping = mapping.map fun x =>
      if first ≤ x ∧ x < last then first + (occurring first last mapping).idxOf x else x := by
  simp only [relabel, occurring, decide_eq_true_eq]

theorem mem_occurring {x : Nat} :
    x ∈ occurring first last mapping ↔ x ∈ mapping ∧ first ≤ x ∧ x < last := by
  simp [occurring, List.mem_eraseDups]

theorem occurring_permute (hp : p ∈ fixingOutside n first last) (mapping : TaskMapping) :
    occurring first last (p.permute mapping) = (occurring first last mapping).map p := by
  rw [occurring, permute, List.filter_map, eraseDups_map_app]
  congr 2
  apply List.filter_congr
  intro x _
  exact decide_eq_decide.mpr (app_mem_range_iff hp x)

/-- Moving processors within the range does not change the numbering. -/
theorem relabel_permute (hp : p ∈ fixingOutside n first last) (mapping : TaskMapping) :
    relabel first last (p.permute mapping) = relabel first last mapping := by
  rw [relabel_eq, relabel_eq, permute, List.map_map, ← permute, occurring_permute hp]
  apply List.map_congr_left
  intro x _
  by_cases hx : first ≤ x ∧ x < last
  · have hpx := (app_mem_range_iff hp x).mpr hx
    simp only [Function.comp_apply, if_pos hx, if_pos hpx, idxOf_map_app]
  · simp only [Function.comp_apply, hp x hx, if_neg hx]

/-! ## The numbering is a permutation of the range -/

/-- The points of a range, those that occur in a mapping before the others. -/
def rangeInOrder (first last : Nat) (mapping : TaskMapping) : List Nat :=
  occurring first last mapping ++
    (List.range' first (last - first)).filter (· ∉ occurring first last mapping)

theorem mem_rangeInOrder (mapping : TaskMapping) {x : Nat} :
    x ∈ rangeInOrder first last mapping ↔ first ≤ x ∧ x < last := by
  have hrange : x ∈ List.range' first (last - first) ↔ first ≤ x ∧ x < last := by
    rw [List.mem_range'_1]
    omega
  rw [rangeInOrder, List.mem_append, List.mem_filter, hrange, decide_eq_true_eq]
  constructor
  · rintro (hx | ⟨hx, -⟩)
    · exact (mem_occurring.mp hx).2
    · exact hx
  · intro hx
    by_cases hold : x ∈ occurring first last mapping
    · exact .inl hold
    · exact .inr ⟨hx, hold⟩

theorem nodup_rangeInOrder (first last : Nat) (mapping : TaskMapping) :
    (rangeInOrder first last mapping).Nodup := by
  apply List.Nodup.append
  · exact eraseDups_nodup _
  · exact List.Nodup.filter _ List.nodup_range'
  · intro x hx hnew
    simp [hx] at hnew

theorem length_rangeInOrder (first last : Nat) (mapping : TaskMapping) :
    (rangeInOrder first last mapping).length = last - first := by
  have hperm : (rangeInOrder first last mapping).Perm (List.range' first (last - first)) := by
    rw [List.perm_ext_iff_of_nodup (nodup_rangeInOrder first last mapping) List.nodup_range']
    intro x
    rw [mem_rangeInOrder, List.mem_range'_1]
    omega
  simpa using hperm.length_eq

/-- The number of a point of the range is its place among all points of the range. -/
def numberOf (first last : Nat) (mapping : TaskMapping) (x : Nat) : Nat :=
  if first ≤ x ∧ x < last then first + (rangeInOrder first last mapping).idxOf x else x

/-- The point of the range that has a number. -/
def pointOf (first last : Nat) (mapping : TaskMapping) (y : Nat) : Nat :=
  if first ≤ y ∧ y < last then (rangeInOrder first last mapping)[y - first]?.getD y else y

theorem numberOf_of_outside {x : Nat} (hx : ¬(first ≤ x ∧ x < last)) :
    numberOf first last mapping x = x :=
  if_neg hx

theorem pointOf_of_outside {y : Nat} (hy : ¬(first ≤ y ∧ y < last)) :
    pointOf first last mapping y = y :=
  if_neg hy

theorem numberOf_mem_range {x : Nat} (hx : first ≤ x ∧ x < last) :
    first ≤ numberOf first last mapping x ∧ numberOf first last mapping x < last := by
  have hlt := List.idxOf_lt_length_iff.mpr ((mem_rangeInOrder mapping).mpr hx)
  rw [length_rangeInOrder] at hlt
  rw [numberOf, if_pos hx]
  omega

theorem relabel_eq_map_numberOf (first last : Nat) (mapping : TaskMapping) :
    relabel first last mapping = mapping.map (numberOf first last mapping) := by
  rw [relabel_eq]
  refine List.map_congr_left fun x hx => ?_
  by_cases hin : first ≤ x ∧ x < last
  · rw [if_pos hin, numberOf, if_pos hin, rangeInOrder,
      List.idxOf_append_of_mem (mem_occurring.mpr ⟨hx, hin⟩)]
  · rw [if_neg hin, numberOf_of_outside hin]

/-- The points of the range that occur in a mapping get consecutive numbers. -/
theorem map_numberOf_occurring (first last : Nat) (mapping : TaskMapping) :
    (occurring first last mapping).map (numberOf first last mapping) =
      List.range' first (occurring first last mapping).length := by
  have hnodup : (occurring first last mapping).Nodup := eraseDups_nodup _
  apply List.ext_getElem
  · simp
  · intro i hi _
    rw [List.length_map] at hi
    have hmem := List.getElem_mem hi
    rw [List.getElem_map, numberOf, if_pos (mem_occurring.mp hmem).2, rangeInOrder,
      List.idxOf_append_of_mem hmem, hnodup.idxOf_getElem, List.getElem_range', Nat.one_mul]

theorem exists_pointOf (mapping : TaskMapping) {y : Nat} (hy : first ≤ y ∧ y < last) :
    ∃ h : y - first < (rangeInOrder first last mapping).length,
      pointOf first last mapping y = (rangeInOrder first last mapping)[y - first] := by
  have hlt : y - first < (rangeInOrder first last mapping).length := by
    rw [length_rangeInOrder]
    omega
  exact ⟨hlt, by simp [pointOf, hy, hlt]⟩

theorem pointOf_mem_range {y : Nat} (hy : first ≤ y ∧ y < last) :
    first ≤ pointOf first last mapping y ∧ pointOf first last mapping y < last := by
  obtain ⟨hlt, heq⟩ := exists_pointOf mapping hy
  rw [heq]
  exact (mem_rangeInOrder mapping).mp (List.getElem_mem hlt)

theorem pointOf_numberOf (first last : Nat) (mapping : TaskMapping) (x : Nat) :
    pointOf first last mapping (numberOf first last mapping x) = x := by
  by_cases hx : first ≤ x ∧ x < last
  · have hlt := List.idxOf_lt_length_iff.mpr ((mem_rangeInOrder mapping).mpr hx)
    rw [pointOf, if_pos (numberOf_mem_range hx), numberOf, if_pos hx, Nat.add_sub_cancel_left,
      List.getElem?_eq_getElem hlt]
    exact List.getElem_idxOf hlt
  · rw [numberOf_of_outside hx, pointOf_of_outside hx]

theorem numberOf_pointOf (first last : Nat) (mapping : TaskMapping) (y : Nat) :
    numberOf first last mapping (pointOf first last mapping y) = y := by
  by_cases hy : first ≤ y ∧ y < last
  · obtain ⟨hlt, heq⟩ := exists_pointOf mapping hy
    rw [numberOf, if_pos (pointOf_mem_range hy), heq,
      (nodup_rangeInOrder first last mapping).idxOf_getElem]
    omega
  · rw [pointOf_of_outside hy, numberOf_of_outside hy]

/-- A map that keeps a range and nothing else moves keeps the domain around it. -/
theorem lt_of_fixes_outside {f : Nat → Nat} (hlast : last ≤ n)
    (hinside : ∀ x, first ≤ x ∧ x < last → first ≤ f x ∧ f x < last)
    (houtside : ∀ x, ¬(first ≤ x ∧ x < last) → f x = x) : ∀ x, x < n → f x < n := by
  intro x hx
  by_cases hin : first ≤ x ∧ x < last
  · exact (hinside x hin).2.trans_le hlast
  · rwa [houtside x hin]

/-- The permutation that gives numbers to the points of a range, to those that
occur in a mapping first. -/
def numbering (n first last : Nat) (hlast : last ≤ n) (mapping : TaskMapping) : Perm n :=
  ofFn (numberOf first last mapping) (pointOf first last mapping)
    (lt_of_fixes_outside hlast (fun _ => numberOf_mem_range) (fun _ => numberOf_of_outside))
    (lt_of_fixes_outside hlast (fun _ => pointOf_mem_range) (fun _ => pointOf_of_outside))
    (fun x _ => pointOf_numberOf first last mapping x)
    (fun y _ => numberOf_pointOf first last mapping y)

theorem numbering_app (hlast : last ≤ n) (mapping : TaskMapping) (x : Nat) :
    numbering n first last hlast mapping x = numberOf first last mapping x := by
  by_cases hx : x < n
  · rw [numbering, ofFn_app hx]
  · rw [app_of_le _ (Nat.not_lt.mp hx), numberOf_of_outside]
    omega

theorem numbering_mem (hlast : last ≤ n) (mapping : TaskMapping) :
    numbering n first last hlast mapping ∈ fixingOutside n first last := by
  intro x hx
  rw [numbering_app, numberOf_of_outside hx]

/-- The renumbered mapping is an image of the mapping under a permutation of the range. -/
theorem permute_numbering (hlast : last ≤ n) (mapping : TaskMapping) :
    (numbering n first last hlast mapping).permute mapping = relabel first last mapping := by
  rw [relabel_eq_map_numberOf, permute]
  exact List.map_congr_left fun x _ => numbering_app hlast mapping x

/-! ## No image is smaller -/

/-- Numbers given in a row are at most the points that get them. -/
theorem range'_le_of_nodup {points : List Nat} (hnodup : points.Nodup)
    (hfirst : ∀ x ∈ points, first ≤ x) : List.range' first points.length ≤ points := by
  induction points generalizing first with
  | nil => simp
  | cons x rest ih =>
      obtain ⟨hx, hrest⟩ := List.nodup_cons.mp hnodup
      rw [List.length_cons, List.range'_succ, cons_le_cons_iff_of_linear]
      rcases (hfirst x List.mem_cons_self).lt_or_eq with hlt | rfl
      · exact .inl hlt
      · refine .inr ⟨rfl, ih hrest fun y hy => ?_⟩
        have hle := hfirst y (List.mem_cons_of_mem _ hy)
        exact Nat.lt_of_le_of_ne hle fun heq => hx (heq ▸ hy)

theorem relabel_le (first last : Nat) (mapping : TaskMapping) :
    relabel first last mapping ≤ mapping := by
  rw [relabel_eq_map_numberOf]
  conv_rhs => rw [← List.map_id mapping]
  refine map_le_map_of_filter (fun x => decide (first ≤ x ∧ x < last)) ?_ ?_
  · intro y hy
    exact numberOf_of_outside (of_decide_eq_false hy)
  · apply map_le_map_of_eraseDups
    change (occurring first last mapping).map _ ≤ (occurring first last mapping).map id
    rw [map_numberOf_occurring, List.map_id]
    exact range'_le_of_nodup (eraseDups_nodup _) fun x hx => (mem_occurring.mp hx).2.1

/-- Of all images under permutations of the range, the renumbered mapping is the least. -/
theorem isLeast_relabel (first : Nat) (hlast : last ≤ n) (mapping : TaskMapping) :
    IsLeast (imagesUnder (fixingOutside n first last) mapping) (relabel first last mapping) := by
  constructor
  · exact ⟨_, numbering_mem hlast mapping, permute_numbering hlast mapping⟩
  · rintro image ⟨p, hp, rfl⟩
    rw [← relabel_permute hp]
    exact relabel_le first last _

end ProcessorSymmetry

import Mathlib.Data.List.Sort
import ProcessorSymmetry.Group.Recognition
import ProcessorSymmetry.Proofs.Group.Equality
import ProcessorSymmetry.Proofs.Perm.Counting

/-!
# Groups that are symmetric on a range

The recognized range reaches from the lowest to the highest point that some
generator moves.  A group that has as many members as this range has
arrangements consists of all permutations that fix the points outside.  Conversely
the generators of such a group move all points of its range and no others, whichever
generators they are, so that the range is recognized.
-/

namespace ProcessorSymmetry
namespace PermGroup

open Perm

variable {G : PermGroup} {first last : Nat}

theorem mem_movedPoints {x : Nat} :
    x ∈ G.movedPoints ↔ x < G.degree ∧ ∃ g ∈ G.generators, g x ≠ x := by
  rw [movedPoints, Std.TreeSet.mem_toList, Std.TreeSet.mem_ofList]
  simp only [List.contains_eq_mem, decide_eq_true_eq, List.mem_flatMap, Perm.movedPoints,
    List.mem_filter, List.mem_range, ne_eq]
  constructor
  · rintro ⟨g, hg, hx, hmoved⟩
    exact ⟨hx, g, hg, hmoved⟩
  · rintro ⟨hx, g, hg, hmoved⟩
    exact ⟨g, hg, hx, hmoved⟩

theorem movedPoints_ascending (G : PermGroup) : G.movedPoints.Pairwise (· < ·) := by
  have hordered := Std.TreeSet.ordered_toList
    (t := Std.TreeSet.ofList (G.generators.flatMap Perm.movedPoints))
  exact hordered.imp fun h => Nat.compare_eq_lt.mp h

/-- The first and the last entry of an ascending list enclose all entries. -/
theorem between_of_ascending {points : List Nat} (h : points.Pairwise (· < ·))
    (hfirst : points.head? = some first) (hlast : points.getLast? = some last) :
    ∀ x ∈ points, first ≤ x ∧ x ≤ last := by
  intro x hx
  constructor
  · obtain ⟨rest, rfl⟩ := List.head?_eq_some_iff.mp hfirst
    rcases List.mem_cons.mp hx with rfl | hrest
    · exact le_rfl
    · exact (List.rel_of_pairwise_cons h hrest).le
  · obtain ⟨before, rfl⟩ := List.getLast?_eq_some_iff.mp hlast
    rcases List.mem_append.mp hx with hbefore | hend
    · exact ((List.pairwise_append.mp h).2.2 x hbefore last (List.mem_singleton_self last)).le
    · exact (List.mem_singleton.mp hend).le

theorem symmetricRange?_eq_some_iff :
    G.symmetricRange? = some (first, last) ↔
      ∃ top, G.movedPoints.head? = some first ∧ G.movedPoints.getLast? = some top ∧
        G.movedPoints.length = top - first + 1 ∧
        G.order = factorial G.movedPoints.length ∧ last = top + 1 := by
  rw [symmetricRange?]
  cases hhead : G.movedPoints.head? with
  | none => simp
  | some low =>
      cases htop : G.movedPoints.getLast? with
      | none => simp
      | some top =>
          simp only [Option.ite_none_right_eq_some, Option.some.injEq, Prod.mk.injEq]
          constructor
          · rintro ⟨⟨hlength, horder⟩, rfl, rfl⟩
            exact ⟨top, rfl, rfl, hlength, horder, rfl⟩
          · rintro ⟨_, rfl, rfl, hlength, horder, rfl⟩
            exact ⟨⟨hlength, horder⟩, rfl, rfl⟩

/-- A group with a symmetric range consists of all permutations that fix every
point outside of the range. -/
theorem members_of_symmetricRange? (h : G.symmetricRange? = some (first, last)) :
    last ≤ G.degree ∧ G.members = fixingOutside G.degree first last := by
  obtain ⟨top, hfirst, htop, hlength, horder, rfl⟩ := symmetricRange?_eq_some_iff.mp h
  have hbetween := between_of_ascending G.movedPoints_ascending hfirst htop
  have hdegree : top + 1 ≤ G.degree :=
    (mem_movedPoints.mp (List.mem_of_getLast? htop)).1
  have hordered : first ≤ top := (hbetween top (List.mem_of_getLast? htop)).1
  have hle : G.members ≤ fixingOutside G.degree first (top + 1) := by
    refine generated_le.mpr fun g hg x hx => ?_
    by_contra hmoved
    have hxn : x < G.degree := by
      by_contra hlarge
      exact hmoved (g.app_of_le (Nat.not_lt.mp hlarge))
    obtain ⟨hlow, hhigh⟩ := hbetween x (mem_movedPoints.mpr ⟨hxn, g, hg, hmoved⟩)
    exact hx ⟨hlow, Nat.lt_succ_of_le hhigh⟩
  refine ⟨hdegree, Subgroup.eq_of_le_of_card_ge hle ?_⟩
  have hlengths : top + 1 - first = G.movedPoints.length := by omega
  rw [card_fixingOutside hdegree, hlengths, ← horder, order_eq_card]

/-- A recognized range has at least two points, since a generator that moves the first
one also moves its image. -/
theorem add_two_le_of_symmetricRange? (h : G.symmetricRange? = some (first, last)) :
    first + 2 ≤ last := by
  obtain ⟨top, hfirst, htop, -, -, rfl⟩ := symmetricRange?_eq_some_iff.mp h
  have hbetween := between_of_ascending G.movedPoints_ascending hfirst htop
  obtain ⟨hdomain, g, hg, hmoved⟩ := mem_movedPoints.mp (List.mem_of_head? hfirst)
  have himage : g first ∈ G.movedPoints :=
    mem_movedPoints.mpr ⟨g.app_lt hdomain, g, hg, fun heq => hmoved (g.app_injective heq)⟩
  obtain ⟨hlow, hhigh⟩ := hbetween (g first) himage
  omega

/-! ## Ranges of groups that are symmetric on them -/

section Members

variable (h : G.members = fixingOutside G.degree first last) (hlast : last ≤ G.degree)
  (hpoints : first + 2 ≤ last)

include h hlast hpoints

/-- The generators move all points of the range, since a point that they fix would be
fixed by all members. -/
theorem mem_movedPoints_of_members {x : Nat} :
    x ∈ G.movedPoints ↔ first ≤ x ∧ x < last := by
  rw [mem_movedPoints]
  constructor
  · rintro ⟨-, g, hg, hmoved⟩
    by_contra hout
    have hmember : g ∈ G.members := subset_generated hg
    rw [h] at hmember
    exact hmoved (hmember x hout)
  · rintro ⟨hlow, hhigh⟩
    refine ⟨hhigh.trans_le hlast, ?_⟩
    by_contra! hfixed
    have hle : G.members ≤ fixing x := generated_le.mpr hfixed
    obtain ⟨y, hy, hxy⟩ : ∃ y, (first ≤ y ∧ y < last) ∧ x ≠ y := by
      by_cases hx : x = first
      · exact ⟨first + 1, by omega, by omega⟩
      · exact ⟨first, by omega, hx⟩
    have hxn : x < G.degree := hhigh.trans_le hlast
    have hyn : y < G.degree := hy.2.trans_le hlast
    have hmember : swap G.degree x y ∈ G.members := by
      rw [h, swap_mem_fixingOutside_iff hxn hyn hxy]
      exact ⟨⟨hlow, hhigh⟩, hy⟩
    have hsame := mem_fixing.mp (hle hmember)
    rw [swap_app hxn hyn, if_pos rfl] at hsame
    exact hxy hsame.symm

theorem movedPoints_eq_range' : G.movedPoints = List.range' first (last - first) := by
  refine G.movedPoints_ascending.eq_of_mem_iff List.pairwise_lt_range' fun x => ?_
  rw [mem_movedPoints_of_members h hlast hpoints, List.mem_range'_1]
  omega

/-- The range of a group that is symmetric on a range is recognized. -/
theorem symmetricRange?_of_members : G.symmetricRange? = some (first, last) := by
  rw [symmetricRange?_eq_some_iff, movedPoints_eq_range' h hlast hpoints, List.length_range',
    order_eq_card, h, card_fixingOutside hlast]
  refine ⟨last - 1, ?_, ?_, by omega, rfl, by omega⟩
  · rw [List.head?_range', if_neg (by omega)]
  · rw [List.getLast?_range', if_neg (by omega)]
    congr 1
    omega

end Members

/-- The elements are exactly the permutations of the degree that fix every point
outside of the range from `first` to just before `last`. -/
def IsSymmetricOn (G : PermGroup) (first last : Nat) : Prop :=
  ∀ ⦃n : Nat⦄ (p : Perm n), G.contains p = true ↔
    n = G.degree ∧ ∀ x, ¬(first ≤ x ∧ x < last) → p x = x

theorem isSymmetricOn_iff :
    G.IsSymmetricOn first last ↔ G.members = fixingOutside G.degree first last := by
  constructor
  · intro h
    ext p
    rw [← contains_iff_mem, h p]
    exact and_iff_right rfl
  · intro h n p
    constructor
    · intro hp
      obtain rfl := degree_eq_of_contains hp
      rw [contains_iff_mem, h] at hp
      exact ⟨rfl, hp⟩
    · rintro ⟨rfl, hp⟩
      rw [contains_iff_mem, h]
      exact hp

theorem symmetricRange?_eq_some_iff_isSymmetricOn :
    G.symmetricRange? = some (first, last) ↔
      first + 2 ≤ last ∧ last ≤ G.degree ∧ G.IsSymmetricOn first last := by
  rw [isSymmetricOn_iff]
  constructor
  · intro h
    obtain ⟨hlast, hmembers⟩ := members_of_symmetricRange? h
    exact ⟨add_two_le_of_symmetricRange? h, hlast, hmembers⟩
  · rintro ⟨hpoints, hlast, hmembers⟩
    exact symmetricRange?_of_members hmembers hlast hpoints

theorem symmetricRange?_eq_none_of_members (h : G.IsSymmetricOn first last)
    (hpoints : last < first + 2) : G.symmetricRange? = none := by
  rw [Option.eq_none_iff_forall_ne_some]
  rintro ⟨low, high⟩ hrange
  obtain ⟨hmore, hhigh, hother⟩ := symmetricRange?_eq_some_iff_isSymmetricOn.mp hrange
  rw [isSymmetricOn_iff] at h hother
  -- The exchange of the first two points of the other range is a member.
  have hlow : low < G.degree := by omega
  have hnext : low + 1 < G.degree := by omega
  have hmember : swap G.degree low (low + 1) ∈ fixingOutside G.degree low high := by
    rw [swap_mem_fixingOutside_iff hlow hnext (by omega)]
    omega
  rw [← hother, h, swap_mem_fixingOutside_iff hlow hnext (by omega)] at hmember
  omega

/-- A range that reaches beyond the domain is cut there. -/
theorem isSymmetricOn_min :
    G.IsSymmetricOn first (min last G.degree) ↔ G.IsSymmetricOn first last := by
  rw [isSymmetricOn_iff, isSymmetricOn_iff, fixingOutside_min]

theorem isSymmetricOn_congr {H : PermGroup} (h : G.same H = true) :
    G.IsSymmetricOn first last ↔ H.IsSymmetricOn first last := by
  rw [IsSymmetricOn, IsSymmetricOn, degree_eq_of_same h]
  refine forall_congr' fun n => forall_congr' fun p => ?_
  rw [same_iff_contains.mp h p]

/-- A range of points is recognized exactly if it has at least two points and the
elements are the permutations that fix every point outside of it, and nothing is
recognized if there is no such range.  A group that is symmetric on a range beyond
the domain is recognized by the part of the range in the domain.  Other generators
of the same group make no difference. -/
theorem symmetricRange?_recognizes (G : PermGroup) :
    (∀ first last, G.symmetricRange? = some (first, last) ↔
      first + 2 ≤ last ∧ last ≤ G.degree ∧ G.IsSymmetricOn first last) ∧
    (G.symmetricRange? = none ↔
      ∀ first last, first + 2 ≤ last → last ≤ G.degree → ¬G.IsSymmetricOn first last) ∧
    (∀ first last, G.IsSymmetricOn first last → G.symmetricRange? =
      if first + 2 ≤ min last G.degree then some (first, min last G.degree) else none) ∧
    ∀ H : PermGroup, G.same H = true → H.symmetricRange? = G.symmetricRange? := by
  refine ⟨fun first last => symmetricRange?_eq_some_iff_isSymmetricOn, ?_, ?_, ?_⟩
  · rw [Option.eq_none_iff_forall_ne_some, Prod.forall]
    refine forall₂_congr fun first last => ?_
    rw [ne_eq, symmetricRange?_eq_some_iff_isSymmetricOn, not_and, not_and]
  · intro first last h
    rw [← isSymmetricOn_min] at h
    by_cases hpoints : first + 2 ≤ min last G.degree
    · rw [if_pos hpoints]
      exact symmetricRange?_eq_some_iff_isSymmetricOn.mpr ⟨hpoints, min_le_right _ _, h⟩
    · rw [if_neg hpoints]
      exact symmetricRange?_eq_none_of_members h (Nat.lt_of_not_le hpoints)
  · intro H h
    refine Option.ext fun ⟨first, last⟩ => ?_
    rw [symmetricRange?_eq_some_iff_isSymmetricOn, symmetricRange?_eq_some_iff_isSymmetricOn,
      isSymmetricOn_congr h, degree_eq_of_same h]

/-- Two lists of generators of the group that is symmetric on the last three of five
points, and the rotations of four points, which are symmetric on no range. -/
theorem symmetricRange?_recognizes_last :
    let G := generatedBy [swap 5 3 4, 1, swap 5 2 4]
    let H := generatedBy [swap 5 2 3, rotation 5 2]
    let K := generatedBy [rotation 4 0]
    G.IsSymmetricOn 2 5 ∧ G.IsSymmetricOn 2 9 ∧ G.same H = true ∧
      G.symmetricRange? = some (2, 5) ∧ H.symmetricRange? = some (2, 5) ∧
      K.symmetricRange? = none ∧ ¬K.IsSymmetricOn 0 4 := by
  intro G H K
  have hrange : G.symmetricRange? = some (2, 5) := by decide +kernel
  have hnone : K.symmetricRange? = none := by decide +kernel
  have hsame : G.same H = true := by decide +kernel
  obtain ⟨hsome, -, hcut, hcongr⟩ := symmetricRange?_recognizes G
  have hinside : G.IsSymmetricOn 2 5 := ((hsome 2 5).mp hrange).2.2
  have hbeyond : G.IsSymmetricOn 2 9 := isSymmetricOn_min.mp hinside
  refine ⟨hinside, hbeyond, hsame, hcut 2 9 hbeyond, (hcongr H hsame).trans hrange, hnone, ?_⟩
  exact (symmetricRange?_recognizes K).2.1.mp hnone 0 4 (by decide) (by decide)

end PermGroup
end ProcessorSymmetry

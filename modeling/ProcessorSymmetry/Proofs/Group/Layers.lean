import Mathlib.Algebra.Order.BigOperators.Group.List
import ProcessorSymmetry.Group.SchreierSims
import ProcessorSymmetry.Proofs.Group.StabilizerChain

/-!
# Nested levels

Before a chain is verified its levels need not be full stabilizers yet, but they
are nested: what a deeper level generates lies in the stabilizer of every level
above it.  A residue that sifting leaves of a Schreier generator may be added to
the levels it passed, which keeps them nested and makes an orbit longer.
-/

namespace ProcessorSymmetry
namespace Chain

open Perm

variable {n : Nat} {level deeper : Level n} {residue : Perm n} {passed : Nat}

/-- What the deeper level generates lies in the stabilizer that the level above has. -/
def Refines (level deeper : Level n) : Prop :=
  generated deeper.generators ≤ generated level.generators ⊓ fixing level.base

theorem generated_concat_le {generators : List (Perm n)} {g : Perm n}
    {K : Subgroup (Perm n)} :
    generated (generators ++ [g]) ≤ K ↔ generated generators ≤ K ∧ g ∈ K := by
  simp only [generated_le, List.mem_append, List.mem_singleton]
  constructor
  · intro h
    exact ⟨fun x hx => h x (.inl hx), h g (.inr rfl)⟩
  · rintro ⟨hall, hg⟩ x (hx | rfl)
    · exact hall x hx
    · exact hg

theorem generated_le_addGenerator (level : Level n) (g : Perm n) :
    generated level.generators ≤ generated (level.addGenerator g).generators :=
  generated_mono fun _ hx => List.mem_append_left _ hx

theorem mem_generated_addGenerator (level : Level n) (g : Perm n) :
    g ∈ generated (level.addGenerator g).generators :=
  subset_generated (List.mem_append_right _ List.mem_cons_self)

theorem Refines.add_below (h : Refines level deeper)
    (hresidue : residue ∈ generated level.generators ⊓ fixing level.base) :
    Refines level (deeper.addGenerator residue) :=
  generated_concat_le.mpr ⟨h, hresidue⟩

theorem Refines.add_above (h : Refines level deeper) :
    Refines (level.addGenerator residue) deeper :=
  le_inf (le_trans h (inf_le_left.trans (generated_le_addGenerator level residue)))
    (le_trans h inf_le_right)

/-- A residue that fixes the base point may be added to a level and the one below it. -/
theorem Refines.add_both (h : Refines level deeper) (hfix : residue level.base = level.base) :
    Refines (level.addGenerator residue) (deeper.addGenerator residue) :=
  h.add_above.add_below ⟨mem_generated_addGenerator level residue, hfix⟩

/-- Levels stay nested when a residue is added to consecutive ones: it belongs to
the stabilizers of all levels above them, and it fixes their base points except
for the last. -/
theorem nested_addGenerator {upper init back : List (Level n)} {last : Level n}
    (h : (upper ++ (init ++ [last]) ++ back).Pairwise Refines)
    (hupper : ∀ a ∈ upper, residue ∈ generated a.generators ⊓ fixing a.base)
    (hinit : ∀ a ∈ init, residue a.base = a.base) :
    (upper ++ (init ++ [last]).map (·.addGenerator residue) ++ back).Pairwise Refines := by
  rw [List.pairwise_append, List.pairwise_append] at h ⊢
  obtain ⟨⟨hu, hmiddle, hum⟩, hback, hrest⟩ := h
  refine ⟨⟨hu, ?_, ?_⟩, hback, ?_⟩
  · rw [List.pairwise_map]
    rw [List.pairwise_append] at hmiddle ⊢
    obtain ⟨hi, hlast, hil⟩ := hmiddle
    refine ⟨?_, List.pairwise_singleton _ _, ?_⟩
    · apply hi.imp_of_mem
      intro a b ha _ hab
      exact hab.add_both (hinit a ha)
    · intro a ha b hb
      exact (hil a ha b hb).add_both (hinit a ha)
  · intro a ha b hb
    obtain ⟨c, hc, rfl⟩ := List.mem_map.mp hb
    exact (hum a ha c hc).add_below (hupper a ha)
  · intro a ha b hb
    rcases List.mem_append.mp ha with ha | ha
    · exact hrest a (List.mem_append_left _ ha) b hb
    · obtain ⟨c, hc, rfl⟩ := List.mem_map.mp ha
      exact (hrest c (List.mem_append_right _ hc) b hb).add_above

theorem refines_empty (level : Level n) (b : Nat) : Refines level (.ofGenerators b []) := by
  change generated [] ≤ _
  rw [generated_nil]
  exact bot_le

/-! ## What a step does -/

/-- If no Schreier generator fails, then all of them belong to the levels below. -/
theorem mem_of_failing?_eq_none {levels : List (Level n)} {H : Subgroup (Perm n)}
    (hchain : IsChainOf levels H) (h : failing? level levels = none)
    {entry : Nat × Perm n} (hentry : entry ∈ level.transversal)
    {g s : Perm n} (hg : g ∈ level.generators)
    (hs : level.schreierGenerator? entry g = some s) : s ∈ H := by
  rw [failing?, List.findSome?_eq_none_iff] at h
  have hnone := List.findSome?_eq_none_iff.mp (h entry hentry) g hg
  rw [hs] at hnone
  by_cases hone : s.isIdentity = true
  · rw [isIdentity_iff.mp hone]
    exact H.one_mem
  · apply hchain.mem_of_residue_eq_one
    by_contra hresidue
    rw [← isIdentity_iff] at hresidue
    simp [hone, hresidue, guard] at hnone

/-- A failing Schreier generator is answered with what sifting leaves of it. -/
theorem failing?_eq_some {levels : List (Level n)}
    (h : failing? level levels = some (residue, passed)) :
    ∃ entry ∈ level.transversal, ∃ g ∈ level.generators, ∃ s,
      level.schreierGenerator? entry g = some s ∧
        siftThrough levels s = (residue, passed) ∧
        (passed < levels.length ∨ residue ≠ 1) := by
  obtain ⟨entry, hentry, h⟩ := List.exists_of_findSome?_eq_some h
  obtain ⟨g, hg, h⟩ := List.exists_of_findSome?_eq_some h
  cases hs : level.schreierGenerator? entry g with
  | none => simp [hs] at h
  | some s =>
      refine ⟨entry, hentry, g, hg, s, hs, ?_⟩
      rw [hs] at h
      obtain ⟨⟨r, k⟩, hsift⟩ : ∃ left, siftThrough levels s = left := ⟨_, rfl⟩
      simp only [Option.bind_eq_bind, Option.bind_some, hsift] at h
      by_cases hone : s.isIdentity = true
      · simp [hone, guard] at h
      · by_cases hstuck : (k < levels.length || !r.isIdentity) = true
        · simp only [hone, hstuck, guard] at h
          obtain ⟨rfl, rfl⟩ : r = residue ∧ k = passed := by simpa using h
          refine ⟨hsift, ?_⟩
          simpa [← isIdentity_iff] using hstuck
        · simp [hone, hstuck, guard] at h

/-- The residue goes to the levels that it passed and to one more, which is a
new one at the end if it passed them all: its base point is then the lowest point
that the residue moves. -/
theorem insertResidue_eq {levels : List (Level n)} (hle : passed ≤ levels.length)
    (hne : passed < levels.length ∨ residue ≠ 1) :
    ∃ last back, insertResidue residue passed levels =
        (levels.take passed ++ [last]).map (·.addGenerator residue) ++ back ∧
      ((levels = levels.take passed ++ last :: back ∧ levels[passed]? = some last) ∨
        ∃ b, residue.firstMoved? = some b ∧ levels.take passed = levels ∧
          last = .ofGenerators b [] ∧ back = []) := by
  by_cases hlt : passed < levels.length
  · refine ⟨levels[passed], levels.drop (passed + 1), ?_, .inl ⟨?_, ?_⟩⟩
    · rw [insertResidue, if_pos hlt, List.take_succ_eq_append_getElem hlt]
    · rw [List.getElem_cons_drop, List.take_append_drop]
    · exact List.getElem?_eq_getElem hlt
  · obtain rfl : passed = levels.length := Nat.le_antisymm hle (Nat.not_lt.mp hlt)
    cases hmoved : residue.firstMoved? with
    | none => exact absurd (firstMoved?_eq_none_iff.mp hmoved) (hne.resolve_left hlt)
    | some b =>
        refine ⟨.ofGenerators b [], [], ?_, .inr ⟨b, rfl, List.take_length, rfl, rfl⟩⟩
        rw [insertResidue, if_neg hlt, hmoved]
        have htake : (levels ++ [Level.ofGenerators b []]).take (levels.length + 1) =
            levels ++ [Level.ofGenerators b []] := by
          apply List.take_of_length_le
          simp
        have hdrop : (levels ++ [Level.ofGenerators b []]).drop (levels.length + 1) = [] := by
          apply List.drop_of_length_le
          simp
        simp only [Option.toList_some, List.map_singleton, htake, hdrop, List.take_length]

/-! ## Layers -/

/-- What a chain for `G` under verification keeps, whose base points were `points`
at first: exact orbits, nested levels, and distinct base points of which those
added later lie in the domain. -/
structure Layered (points : List Nat) (G : Subgroup (Perm n))
    (levels : List (Level n)) : Prop where
  orbits : ∀ level ∈ levels, level.IsOrbitOf (generated level.generators)
  nested : levels.Pairwise Refines
  top : topGroup levels = G
  base : points <+: levels.map Level.base
  distinct : (levels.map Level.base).Nodup
  added : ∀ b ∈ (levels.map Level.base).drop points.length, b < n

/-- The sum of the orbit lengths. -/
def totalOrbits (levels : List (Level n)) : Nat :=
  (levels.map Level.orbitLength).sum

theorem topGroup_append {levels : List (Level n)} (hne : levels ≠ []) (more : List (Level n)) :
    topGroup (levels ++ more) = topGroup levels := by
  cases levels with
  | nil => exact absurd rfl hne
  | cons level deeper => rfl

namespace Layered

variable {points : List Nat} {G : Subgroup (Perm n)} {levels upper init back : List (Level n)}
  {last : Level n}

theorem append_empty (h : Layered points G levels) (hne : levels ≠ []) {b : Nat}
    (hb : b < n) (hnew : b ∉ levels.map Level.base) :
    Layered points G (levels ++ [.ofGenerators b []]) where
  orbits := by
    intro a ha
    rcases List.mem_append.mp ha with ha | ha
    · exact h.orbits a ha
    · rw [List.mem_singleton.mp ha]
      exact Level.isOrbitOf_ofGenerators b []
  nested := by
    refine List.pairwise_append.mpr ⟨h.nested, List.pairwise_singleton _ _, ?_⟩
    intro a _ c hc
    rw [List.mem_singleton.mp hc]
    exact refines_empty a b
  top := by rw [topGroup_append hne, h.top]
  base := by
    rw [List.map_append]
    exact h.base.trans (List.prefix_append _ _)
  distinct := by
    rw [List.map_append, List.map_singleton, ← List.concat_eq_append]
    exact h.distinct.concat hnew
  added := by
    intro c hc
    have hlength : points.length ≤ (levels.map Level.base).length := h.base.length_le
    rw [List.map_append, List.drop_append_of_le_length hlength, List.mem_append] at hc
    rcases hc with hc | hc
    · exact h.added c hc
    · rw [List.mem_singleton.mp hc]
      exact hb

/-- A residue that the levels above allow may be added to consecutive levels. -/
theorem addGenerator (h : Layered points G (upper ++ (init ++ [last]) ++ back))
    (hne : upper ≠ [])
    (hupper : ∀ a ∈ upper, residue ∈ generated a.generators ⊓ fixing a.base)
    (hinit : ∀ a ∈ init, residue a.base = a.base) :
    Layered points G
      (upper ++ (init ++ [last]).map (·.addGenerator residue) ++ back) := by
  have hbases : (upper ++ (init ++ [last]).map (·.addGenerator residue) ++ back).map
      Level.base = (upper ++ (init ++ [last]) ++ back).map Level.base := by
    simp only [List.map_append, List.map_map]
    rfl
  refine ⟨?_, nested_addGenerator h.nested hupper hinit, ?_, hbases ▸ h.base,
    hbases ▸ h.distinct, hbases ▸ h.added⟩
  · intro a ha
    rw [List.append_assoc, List.mem_append, List.mem_append] at ha
    rcases ha with ha | ha | ha
    · exact h.orbits a (by simp [ha])
    · obtain ⟨c, -, rfl⟩ := List.mem_map.mp ha
      exact Level.isOrbitOf_ofGenerators _ _
    · exact h.orbits a (by simp [ha])
  · rw [← h.top, List.append_assoc, List.append_assoc, topGroup_append hne,
      topGroup_append hne]

theorem length_le (h : Layered points G levels) : levels.length ≤ points.length + n := by
  have hle := length_le_of_nodup (h.distinct.sublist (List.drop_sublist _ _)) h.added
  rw [List.length_drop, List.length_map] at hle
  omega

theorem totalOrbits_le (h : Layered points G levels) :
    totalOrbits levels ≤ (points.length + n) * (n + 1) := by
  have hsum : totalOrbits levels ≤ (levels.map Level.orbitLength).length • (n + 1) := by
    apply List.sum_le_card_nsmul
    intro k hk
    obtain ⟨level, hlevel, rfl⟩ := List.mem_map.mp hk
    exact (h.orbits level hlevel).orbitLength_bound
  rw [List.length_map, smul_eq_mul] at hsum
  exact hsum.trans (Nat.mul_le_mul_right _ h.length_le)

theorem orbitLength_le_addGenerator (h : Layered points G levels) (hmem : level ∈ levels) :
    level.orbitLength ≤ (level.addGenerator residue).orbitLength :=
  (h.orbits level hmem).orbitLength_le (Level.isOrbitOf_ofGenerators _ _) rfl
    (generated_le_addGenerator level residue)

/-- A residue that moves the base point out of the orbit makes the orbit longer. -/
theorem orbitLength_lt_addGenerator (h : Layered points G levels) (hmem : level ∈ levels)
    (hstuck : residue level.base ∉ level.orbit) :
    level.orbitLength < (level.addGenerator residue).orbitLength := by
  have horbit : (level.addGenerator residue).IsOrbitOf
      (generated (level.addGenerator residue).generators) :=
    Level.isOrbitOf_ofGenerators _ _
  apply (h.orbits level hmem).orbitLength_lt horbit rfl
    (generated_le_addGenerator level residue) _ hstuck
  exact horbit.complete residue (mem_generated_addGenerator level residue)

theorem totalOrbits_addGenerator (h : Layered points G (upper ++ (init ++ [last]) ++ back))
    (residue : Perm n) :
    totalOrbits (upper ++ (init ++ [last]) ++ back) ≤
      totalOrbits (upper ++ (init ++ [last]).map (·.addGenerator residue) ++ back) ∧
    (residue last.base ∉ last.orbit →
      totalOrbits (upper ++ (init ++ [last]) ++ back) <
        totalOrbits (upper ++ (init ++ [last]).map (·.addGenerator residue) ++ back)) := by
  have hinit : (init.map Level.orbitLength).sum ≤
      (init.map fun a => (a.addGenerator residue).orbitLength).sum := by
    apply List.sum_le_sum
    intro a ha
    exact h.orbitLength_le_addGenerator (by simp [ha])
  have hlast : last.orbitLength ≤ (last.addGenerator residue).orbitLength :=
    h.orbitLength_le_addGenerator (by simp)
  have hsplit : ∀ (xs ys : List (Level n)) (a : Level n), totalOrbits (xs ++ (ys ++ [a]) ++ back) =
      totalOrbits xs + ((ys.map Level.orbitLength).sum + a.orbitLength) + totalOrbits back := by
    intro xs ys a
    simp [totalOrbits, Nat.add_assoc]
  rw [List.map_append, List.map_singleton, hsplit, hsplit, List.map_map]
  change (init.map Level.orbitLength).sum ≤
    (init.map (Level.orbitLength ∘ (·.addGenerator residue))).sum at hinit
  constructor
  · omega
  · intro hstuck
    have hlt := h.orbitLength_lt_addGenerator (by simp) hstuck
    omega

end Layered

end Chain
end ProcessorSymmetry

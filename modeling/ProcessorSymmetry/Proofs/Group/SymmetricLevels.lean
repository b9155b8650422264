import ProcessorSymmetry.Proofs.Group.BaseChange
import ProcessorSymmetry.Proofs.Perm.Parity

/-!
# Levels of the symmetric group

Two stabilizer chains of one group on one base have the same orbits and the same
stabilizers, however they were made.  Hence the closed form for all permutations
agrees with the chains that are built from its own generators.
-/

namespace ProcessorSymmetry

open Perm

variable {n : Nat}

/-- Two levels have the same base point, generate the same group and have the same orbit. -/
structure Level.Agrees (level other : Level n) : Prop where
  base_eq : level.base = other.base
  generated_eq : generated level.generators = generated other.generators
  orbit_perm : level.orbit.Perm other.orbit

namespace Chain

variable {H : Subgroup (Perm n)} {levels others : List (Level n)}

/-- The levels of a chain are determined by the group and the base. -/
theorem IsChainOf.forall₂_agrees (h : IsChainOf levels H) (h' : IsChainOf others H)
    (hbase : levels.map Level.base = others.map Level.base) :
    List.Forall₂ Level.Agrees levels others := by
  induction h generalizing others with
  | nil =>
      obtain rfl : others = [] := by simpa using hbase.symm
      exact .nil
  | @cons level deeper H orbit generators rest ih =>
      cases h' with
      | nil => simp at hbase
      | @cons other deeper' _ orbit' generators' rest' =>
          obtain ⟨hfirst, hdeeper⟩ := List.cons.inj hbase
          refine .cons ⟨hfirst, generators.trans generators'.symm, ?_⟩ (ih ?_ hdeeper)
          · rw [List.perm_ext_iff_of_nodup orbit.nodup orbit'.nodup]
            intro x
            rw [orbit.mem_orbit_iff, orbit'.mem_orbit_iff, hfirst]
          · rwa [hfirst]

/-! ## The closed form -/

theorem generated_strongGenerators_symmetric (n : Nat) :
    generated (symmetric n).strongGenerators = ⊤ := by
  rw [topGroup_strongGenerators, ← (isChainOf_symmetric n).eq_topGroup]

theorem getElem?_symmetric {i : Nat} {level : Level n}
    (h : (symmetric n).levels[i]? = some level) : i + 1 < n ∧ level = symmetricLevel n i := by
  obtain ⟨hi, rfl⟩ := List.getElem?_eq_some_iff.mp h
  have hlength : i < n - 1 := by simpa [symmetric] using hi
  exact ⟨by omega, by simp [symmetric]⟩

/-- Each point from the base point on is taken back by a permutation that fixes
the points before the base point. -/
theorem exists_toBase?_symmetricLevel {i j : Nat} (hij : i ≤ j) (hj : j < n) :
    ∃ t, (symmetricLevel n i).toBase? j = some t ∧ t j = i ∧ ∀ x < i, t x = x := by
  have horbit := isOrbitOf_symmetricLevel (n := n) (lt_of_le_of_lt hij hj)
  have hmem : j ∈ (symmetricLevel n i).orbit := by
    rw [orbit_symmetricLevel, List.mem_range'_1]
    omega
  obtain ⟨t, ht⟩ := Level.exists_toBase? hmem
  obtain ⟨hfixes, hback⟩ := horbit.toBase?_spec ht
  exact ⟨t, ht, hback, mem_fixingBelow.mp hfixes⟩

/-! ## Chains from the generators of the closed form -/

/-- Nothing but the identity fixes all points except the last one, so that a base
of these points is never lengthened. -/
theorem base_ofGenerators_strongGenerators_symmetric (n : Nat) :
    (ofGenerators (symmetric n).strongGenerators (List.range (n - 1))).base =
      List.range (n - 1) := by
  have hdistinct : (List.range (n - 1)).eraseDups = List.range (n - 1) :=
    eraseDups_of_nodup List.nodup_range
  obtain ⟨-, ⟨more, hmore⟩, -⟩ :=
    ofGenerators_spec (symmetric n).strongGenerators (List.range (n - 1))
  have hirredundant := irredundant_ofGenerators (symmetric n).strongGenerators (List.range (n - 1))
  rw [hdistinct] at hmore hirredundant
  rw [← hmore] at hirredundant ⊢
  cases more with
  | nil => exact List.append_nil _
  | cons b rest =>
      have hb : (List.range (n - 1) ++ b :: rest)[n - 1]? = some b := by simp
      obtain ⟨p, ⟨-, hfixes⟩, hmoves⟩ := hirredundant (n - 1) b (by simp) hb
      have hbelow : p ∈ fixingBelow n (n - 1) := by
        rw [mem_fixingBelow]
        intro x hx
        exact hfixes x (by simpa using hx)
      rw [fixingBelow_eq_bot (by omega), Subgroup.mem_bot] at hbelow
      rw [hbelow, one_app] at hmoves
      exact absurd rfl hmoves

/-- In closed form there is a level for each point but the last.  Its generators
generate the permutations that fix the points before, and its orbit consists of the
points from the base point on, each with a way back that fixes the points before.
Every permutation is contained, and the order is the factorial.  Whatever start is
chosen for the base, a chain that is built from the generators has the same order
and the same members, and on the base of the closed form it has the same levels. -/
theorem symmetric_agrees_with_ofGenerators (n : Nat) :
    (symmetric n).order = factorial n ∧
    (∀ p : Perm n, (symmetric n).contains p = true) ∧
    (symmetric n).base = List.range (n - 1) ∧
    (∀ i level, (symmetric n).levels[i]? = some level →
      (∀ p, IsProductOf level.generators p ↔ ∀ x < i, p x = x) ∧
      level.orbit = List.range' i (n - i) ∧
      ∀ j, i ≤ j → j < n → ∃ t, level.toBase? j = some t ∧ t j = i ∧ ∀ x < i, t x = x) ∧
    (∀ points, let built := ofGenerators (symmetric n).strongGenerators points
      built.order = (symmetric n).order ∧
        ∀ p, built.contains p = (symmetric n).contains p) ∧
    List.Forall₂ Level.Agrees
      (ofGenerators (symmetric n).strongGenerators (List.range (n - 1))).levels
      (symmetric n).levels := by
  have hclosed := isChainOf_symmetric n
  have hbuilt : ∀ points,
      IsChainOf (ofGenerators (symmetric n).strongGenerators points).levels ⊤ := by
    intro points
    rw [← generated_strongGenerators_symmetric n]
    exact (ofGenerators_spec _ points).1
  refine ⟨?_, fun p => hclosed.contains_iff.mpr trivial, base_symmetric n, ?_, ?_, ?_⟩
  · calc
      (symmetric n).order = Nat.card (⊤ : Subgroup (Perm n)) := hclosed.orderOf_eq
      _ = Nat.card (Perm n) := Subgroup.card_top
      _ = factorial n := card_perms n
  · intro i level hlevel
    obtain ⟨hi, rfl⟩ := getElem?_symmetric hlevel
    refine ⟨fun p => ?_, orbit_symmetricLevel n i, fun j => exists_toBase?_symmetricLevel⟩
    rw [← mem_generated_iff, generated_symmetricLevel hi, mem_fixingBelow]
  · intro points
    refine ⟨(hbuilt points).orderOf_eq.trans hclosed.orderOf_eq.symm, fun p => ?_⟩
    rw [Bool.eq_iff_iff, (hbuilt points).contains_iff, hclosed.contains_iff]
  · apply (hbuilt _).forall₂_agrees hclosed
    exact (base_ofGenerators_strongGenerators_symmetric n).trans (base_symmetric n).symm

/-- The second of the three levels for four points, where a rotation and one exchange
generate the exchange of the last two points. -/
theorem symmetric_agrees_with_ofGenerators_second :
    let level := symmetricLevel 4 1
    let built := ofGenerators (symmetric 4).strongGenerators [3]
    (symmetric 4).levels[1]? = some level ∧ (symmetric 4).order = 24 ∧ built.order = 24 ∧
      IsProductOf level.generators (swap 4 2 3) ∧ ¬IsProductOf level.generators (swap 4 0 3) ∧
      ∃ t, level.toBase? 3 = some t ∧ t 3 = 1 ∧ ∀ x < 1, t x = x := by
  intro level built
  have hlevel : (symmetric 4).levels[1]? = some level := rfl
  obtain ⟨horder, -, -, hlevels, hbuilt, -⟩ := symmetric_agrees_with_ofGenerators 4
  obtain ⟨hgenerated, -, hback⟩ := hlevels 1 level hlevel
  refine ⟨hlevel, horder, (hbuilt [3]).1.trans horder, (hgenerated _).mpr (by decide), ?_,
    hback 3 (by decide) (by decide)⟩
  exact fun hproduct => absurd ((hgenerated _).mp hproduct 0 one_pos) (by decide)

end Chain
end ProcessorSymmetry

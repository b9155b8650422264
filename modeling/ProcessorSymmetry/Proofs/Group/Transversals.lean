import ProcessorSymmetry.Group.Unchecked
import ProcessorSymmetry.Proofs.Group.Membership
import Mathlib.Data.List.Sort

/-!
# Orbits and transversals

From a base point of the domain a walk follows the generators inside the domain only
and ends after one visit to each point of the orbit.  The orbit is listed from the base
point on, and the transversal knows a way back from exactly its points.  Sorted, the
orbit under the generators of a group is what the group makes of the point.
-/

namespace ProcessorSymmetry

open Perm

namespace Level

variable {n base x : Nat} {generators : List (Perm n)} {level : Level n}
  {state : Nat × List (Nat × Perm n)}

/-! ## Walking with unchecked generators -/

theorem Walked.lt (h : Walked base generators state) (hbase : base < n)
    {entry : Nat × Perm n} (hentry : entry ∈ state.2) : entry.1 < n := by
  rw [← entry.2.app_lt_iff, (h.back _ _ hentry).2]
  exact hbase

theorem meet?_mk {entry : Nat × Perm n} (hentry : entry.1 < n)
    (found : List (Nat × Perm n)) (g : Perm n) :
    meet? entry found ⟨n, g⟩ = some (meet entry found g) := by
  rw [meet?, if_pos hentry]
  split
  · rename_i hknown
    rw [meet, if_pos hknown]
  · rw [ofDegree?, dif_pos rfl]
    rfl

theorem foldlM_meet?_map_mk {entry : Nat × Perm n} (hentry : entry.1 < n)
    (gs : List (Perm n)) (found : List (Nat × Perm n)) :
    (gs.map (Sigma.mk n)).foldlM (meet? entry) found = some (gs.foldl (meet entry) found) := by
  induction gs generalizing found with
  | nil => rfl
  | cons g gs ih =>
      rw [List.map_cons, List.foldlM_cons, meet?_mk hentry, List.foldl_cons]
      exact ih _

/-- Generators of the right degree and a point of the domain need no checks on the way. -/
theorem Walked.visitAll?_eq (h : Walked base generators state) (hbase : base < n) (bound : Nat) :
    visitAll? (generators.map (Sigma.mk n)) bound state.1 state.2 =
      some (exhaust (visit? generators) bound state).2 := by
  induction bound generalizing state with
  | zero => rfl
  | succ bound ih =>
      rw [visitAll?, exhaust]
      cases hentry : state.2[state.1]? with
      | none =>
          have hend : visit? generators state = none := by rw [visit?, hentry, Option.map_none]
          rw [hend]
      | some entry =>
          have hstep : visit? generators state =
              some (state.1 + 1, generators.foldl (meet entry) state.2) := by
            rw [visit?, hentry, Option.map_some]
          have hlt := h.lt hbase (List.mem_of_getElem? hentry)
          rw [hstep]
          simp only [foldlM_meet?_map_mk hlt]
          exact ih (h.visit hstep).1

theorem ofGenerators?_map_mk (hbase : base < n) (generators : List (Perm n)) :
    ofGenerators? n base (generators.map (Sigma.mk n)) = some (ofGenerators base generators) := by
  have hkept : (generators.map (Sigma.mk n)).filterMap (fun g => g.2.ofDegree? n) =
      generators := by
    rw [List.filterMap_map]
    simp [Function.comp_def, ofDegree?]
  have hwalk := (walked_start base generators).visitAll?_eq hbase (n + 1)
  rw [ofGenerators?, hwalk, hkept]
  rfl

/-! ## The orbit and the ways back -/

theorem head?_orbit_ofGenerators (base : Nat) (generators : List (Perm n)) :
    (ofGenerators base generators).orbit.head? = some base := by
  rw [orbit, List.head?_map, head?_transversal_ofGenerators, Option.map_some]

theorem mem_orbit_ofGenerators_iff :
    x ∈ (ofGenerators base generators).orbit ↔ ∃ p, IsProductOf generators p ∧ p base = x := by
  rw [(isOrbitOf_ofGenerators base generators).mem_orbit_iff]
  exact exists_congr fun p => and_congr_left fun _ => mem_generated_iff

/-- A way back is a product of inverses of generators. -/
theorem isProductOf_inverses {t : Perm n} (ht : t ∈ generated generators) :
    IsProductOf (generators.map (·⁻¹)) t := by
  rw [← mem_generated_iff]
  refine generated_le.mpr (fun g hg => ?_) ht
  have hinv : g⁻¹ ∈ generators.map (·⁻¹) := List.mem_map_of_mem hg
  exact (Subgroup.inv_mem_iff _).mp (subset_generated hinv)

theorem lookups_of_mem_orbit (hx : x ∈ (ofGenerators base generators).orbit) :
    ∃ t, (ofGenerators base generators).toBase? x = some t ∧ t x = base ∧
      IsProductOf (generators.map (·⁻¹)) t ∧
      (ofGenerators base generators).representative? x = some t⁻¹ ∧ t⁻¹ base = x := by
  obtain ⟨t, ht⟩ := exists_toBase? hx
  obtain ⟨hmember, hback⟩ := (isOrbitOf_ofGenerators base generators).toBase?_spec ht
  refine ⟨t, ht, hback, isProductOf_inverses hmember, ?_, ?_⟩
  · rw [representative?, ht, Option.map_some]
  · exact (inv_app_eq_iff t).mpr hback.symm

theorem lookups_of_notMem_orbit (hx : x ∉ level.orbit) :
    level.toBase? x = none ∧ level.representative? x = none := by
  have hnone := toBase?_eq_none_iff.mpr hx
  refine ⟨hnone, ?_⟩
  rw [representative?, hnone, Option.map_none]

end Level

namespace PermGroup

/-- The points of a group's orbit in ascending order are all images of one of them. -/
theorem exists_orbitOf (G : PermGroup) {x : Nat} (hx : x < G.degree) :
    ∃ points, G.orbitOf x = .ok points ∧ points.Pairwise (· < ·) ∧
      ∀ y, y ∈ points ↔ ∃ g, IsProductOf G.generators g ∧ g x = y := by
  let orbit := (Level.ofGenerators x G.generators).orbit
  have hperm : orbit.mergeSort.Perm orbit := List.mergeSort_perm _ _
  have hnodup : orbit.mergeSort.Nodup :=
    hperm.nodup_iff.mpr (Level.isOrbitOf_ofGenerators x G.generators).nodup
  have hsorted : orbit.mergeSort.Pairwise (· ≤ ·) := List.pairwise_mergeSort' (· ≤ ·) orbit
  refine ⟨orbit.mergeSort, ?_, ?_, ?_⟩
  · rw [orbitOf, checkPoint, if_pos hx]
    rfl
  · exact hsorted.imp₂ (fun _ _ => lt_of_le_of_ne) hnodup
  · intro y
    rw [hperm.mem_iff, Level.mem_orbit_ofGenerators_iff]

/-- Generators and a base point of the right degree pass for unchecked ones, and the walk
from the base point has ended after `n` visits.  It lists the orbit of the base point from
the base point on, and just its points have ways back, with representatives for the ways
there.  The sorted orbit is what a group makes of a point. -/
theorem ofGenerators_orbit_and_orbitOf :
    (∀ {n base : Nat} (generators : List (Perm n)), base < n →
      let level := Level.ofGenerators base generators
      Level.ofGenerators? n base (generators.map (Sigma.mk n)) = some level ∧
      (∀ bound, n < bound →
        exhaust (Level.visit? generators) bound (0, [(base, 1)]) =
          (level.orbitLength, level.transversal)) ∧
      level.orbit.head? = some base ∧ level.orbit.Nodup ∧
      (∀ x, x ∈ level.orbit ↔ ∃ p, IsProductOf generators p ∧ p base = x) ∧
      (∀ x, x ∉ level.orbit → level.toBase? x = none ∧ level.representative? x = none) ∧
      ∀ x ∈ level.orbit, ∃ t, level.toBase? x = some t ∧ t x = base ∧
        IsProductOf (generators.map (·⁻¹)) t ∧
        level.representative? x = some t⁻¹ ∧ t⁻¹ base = x) ∧
    ∀ (G : PermGroup) (x : Nat), x < G.degree →
      ∃ points, G.orbitOf x = .ok points ∧ points.Pairwise (· < ·) ∧
        ∀ y, y ∈ points ↔ ∃ g, IsProductOf G.generators g ∧ g x = y := by
  refine ⟨?_, fun G x => G.exists_orbitOf⟩
  intro n base generators hbase level
  have horbit := Level.isOrbitOf_ofGenerators base generators
  exact ⟨Level.ofGenerators?_map_mk hbase generators,
    fun bound => Level.exhaust_visit?_eq base generators,
    Level.head?_orbit_ofGenerators base generators, horbit.nodup,
    fun x => Level.mem_orbit_ofGenerators_iff,
    fun x => Level.lookups_of_notMem_orbit,
    fun x => Level.lookups_of_mem_orbit⟩

/-- Two swaps of four points: the orbit of `2` leaves out `0` and `1`. -/
theorem ofGenerators_orbit_and_orbitOf_swaps :
    let generators := [swap 4 2 3, swap 4 0 1]
    let level := Level.ofGenerators 2 generators
    let G := generatedBy generators
    level.orbit = [2, 3] ∧ level.toBase? 0 = none ∧
    (∃ t, level.toBase? 3 = some t ∧ t 3 = 2 ∧ IsProductOf (generators.map (·⁻¹)) t ∧
      level.representative? 3 = some t⁻¹ ∧ t⁻¹ 2 = 3) ∧
    ∃ points, G.orbitOf 1 = .ok points ∧ points.Pairwise (· < ·) ∧
      ∀ y, y ∈ points ↔ ∃ g, IsProductOf generators g ∧ g 1 = y := by
  intro generators level G
  have horbit : level.orbit = [2, 3] := by decide
  obtain ⟨hlevel, hgroup⟩ := ofGenerators_orbit_and_orbitOf
  obtain ⟨-, -, -, -, -, hnone, hback⟩ := @hlevel 4 2 generators (by decide)
  refine ⟨horbit, (hnone 0 ?_).1, hback 3 ?_, hgroup G 1 (by decide)⟩
  · change 0 ∉ level.orbit
    rw [horbit]
    decide
  · change 3 ∈ level.orbit
    rw [horbit]
    decide

end PermGroup
end ProcessorSymmetry

import Mathlib.Order.Bounds.Defs
import ProcessorSymmetry.Proofs.Group.GeneratedChain

/-!
# Where base points come from

Every base point that is not asked for is the lowest point that the first strong
generator of its level moves: this generator provided the point, either because it fixed
all base points before it or because it was the residue that lengthened the base.  Other
generators of the level may move lower points, and then the base point is not the lowest
point that the generators of its level move.
-/

namespace ProcessorSymmetry

variable {n : Nat}

/-- The first moved point is moved, and all points below it stay where they are. -/
theorem Perm.firstMoved?_eq_some_iff {p : Perm n} {x : Nat} :
    p.firstMoved? = some x ↔ p x ≠ x ∧ ∀ y < x, p y = y := by
  rw [firstMoved?, List.find?_range_eq_some]
  simp only [decide_eq_true_eq, List.mem_range, Bool.not_eq_true', decide_eq_false_iff_not,
    Decidable.not_not]
  refine and_congr_right fun hmoved => and_iff_right ?_
  by_contra hx
  exact hmoved (p.app_of_le (Nat.not_lt.mp hx))

open Perm

namespace Level

variable {level : Level n}

/-- The base point is the lowest point that the first generator moves. -/
def BasedOnFirst (level : Level n) : Prop :=
  level.generators.head?.bind firstMoved? = some level.base

theorem BasedOnFirst.exists_eq_cons (h : level.BasedOnFirst) :
    ∃ first rest, level.generators = first :: rest ∧ first.firstMoved? = some level.base := by
  rw [BasedOnFirst] at h
  cases hgenerators : level.generators with
  | nil => simp [hgenerators] at h
  | cons first rest =>
      rw [hgenerators] at h
      exact ⟨first, rest, rfl, h⟩

/-- Generators are added behind the first one. -/
theorem BasedOnFirst.addGenerator (h : level.BasedOnFirst) (g : Perm n) :
    (level.addGenerator g).BasedOnFirst := by
  obtain ⟨first, rest, hgenerators, hfirst⟩ := h.exists_eq_cons
  have hlonger : (level.addGenerator g).generators = first :: (rest ++ [g]) := by
    rw [Level.addGenerator, ofGenerators, hgenerators, List.cons_append]
  rw [BasedOnFirst, hlonger]
  exact hfirst

/-- The base point is the lowest point that any generator moves exactly if no later
generator moves a lower one. -/
theorem isLeast_moved_iff {first : Perm n} {rest : List (Perm n)}
    (hgenerators : level.generators = first :: rest)
    (hfirst : first.firstMoved? = some level.base) :
    IsLeast {x | ∃ g ∈ level.generators, g x ≠ x} level.base ↔
      ∀ g ∈ rest, ∀ x < level.base, g x = x := by
  obtain ⟨hmoved, hbelow⟩ := firstMoved?_eq_some_iff.mp hfirst
  constructor
  · intro hleast g hg x hx
    by_contra hmoves
    have hmem : g ∈ level.generators := hgenerators ▸ List.mem_cons_of_mem first hg
    exact absurd (hleast.2 ⟨g, hmem, hmoves⟩) (Nat.not_le.mpr hx)
  · intro hrest
    refine ⟨⟨first, hgenerators ▸ List.mem_cons_self, hmoved⟩, ?_⟩
    rintro x ⟨g, hg, hmoves⟩
    by_contra hlow
    rw [hgenerators] at hg
    rcases List.mem_cons.mp hg with rfl | hg
    · exact hmoves (hbelow x (Nat.not_le.mp hlow))
    · exact hmoves (hrest g hg x (Nat.not_le.mp hlow))

end Level

namespace Chain

variable {generators : List (Perm n)} {points asked : List Nat} {level : Level n} {i b : Nat}
  {G : Subgroup (Perm n)} {levels : List (Level n)} {g : Perm n}

/-! ## The first levels -/

/-- Each level has its point as base point and the generators that fix all points before it. -/
theorem getElem?_levelsOn (h : (levelsOn generators points)[i]? = some level) :
    points[i]? = some level.base ∧
      level.generators = generators.filter fun g => (points.take i).all fun x => g x == x := by
  induction points generalizing generators i with
  | nil => simp [levelsOn] at h
  | cons b rest ih =>
      rw [levelsOn] at h
      cases i with
      | zero =>
          obtain rfl : Level.ofGenerators b generators = level := Option.some.inj h
          simp [Level.ofGenerators]
      | succ i =>
          obtain ⟨hbase, hgenerators⟩ := ih h
          refine ⟨hbase, ?_⟩
          rw [hgenerators, List.filter_filter]
          apply List.filter_congr
          intro g _
          rw [List.take_succ_cons, List.all_cons, Bool.and_comm]

/-- Of the generators that fix all base points before a point that was added, the first
one provided the point. -/
theorem find?_completeBase (hne : ∀ g ∈ generators, g ≠ 1) (hi : points.length ≤ i)
    (hb : (completeBase generators points)[i]? = some b) :
    (generators.find? fun g => ((completeBase generators points).take i).all
      fun x => g x == x).bind firstMoved? = some b := by
  induction generators generalizing points with
  | nil => exact absurd hb (by simp [completeBase, hi])
  | cons g generators ih =>
      obtain ⟨hg, hrest⟩ := List.forall_mem_cons.mp hne
      rw [completeBase_cons] at hb ⊢
      split at hb
      · rename_i hfixes
        obtain ⟨c, hc⟩ : ∃ c, g.firstMoved? = some c :=
          Option.ne_none_iff_exists'.mp fun hnone => hg (firstMoved?_eq_none_iff.mp hnone)
        rw [if_pos hfixes, hc, Option.toList_some]
        rw [hc, Option.toList_some] at hb
        obtain ⟨added, hadded⟩ := prefix_completeBase generators (points ++ [c])
        rcases hi.eq_or_lt with rfl | hlater
        · -- The generator provides the next point.
          have hbase : c = b := by simpa [← hadded] using hb
          have htake : (completeBase generators (points ++ [c])).take points.length = points := by
            simp [← hadded]
          rw [htake, List.find?_cons, hfixes]
          exact hc.trans (congrArg some hbase)
        · -- The point that it provided comes before, and the generator moves it.
          have hmem : c ∈ (completeBase generators (points ++ [c])).take i := by
            rw [← hadded, List.take_append, List.take_of_length_le (by simpa using hlater)]
            simp
          rw [List.find?_cons_of_neg]
          · exact ih hrest (by simpa using hlater) hb
          · intro hall
            exact (firstMoved?_eq_some hc).2 (by simpa using List.all_eq_true.mp hall c hmem)
      · rename_i hmoves
        rw [if_neg hmoves, List.find?_cons_of_neg]
        · exact ih hrest hi hb
        · intro hall
          obtain ⟨added, hadded⟩ := prefix_completeBase generators points
          apply hmoves
          rw [List.all_eq_true] at hall ⊢
          intro x hx
          apply hall
          rw [← hadded, List.take_append, List.take_of_length_le hi]
          exact List.mem_append_left _ hx

/-- A level of the chain has a base point that was asked for, or one that its first
generator provided. -/
def AskedOrLed (asked : List Nat) (level : Level n) : Prop :=
  level.base ∈ asked ∨ level.BasedOnFirst

theorem AskedOrLed.addGenerator (h : AskedOrLed asked level) (g : Perm n) :
    AskedOrLed asked (level.addGenerator g) :=
  h.imp_right (·.addGenerator g)

theorem askedOrLed_levelsOn (hne : ∀ g ∈ generators, g ≠ 1)
    (hlevel : level ∈ levelsOn generators (completeBase generators asked)) :
    AskedOrLed asked level := by
  obtain ⟨i, hi⟩ := List.mem_iff_getElem?.mp hlevel
  obtain ⟨hbase, hgenerators⟩ := getElem?_levelsOn hi
  rcases Nat.lt_or_ge i asked.length with hlt | hge
  · left
    obtain ⟨added, hadded⟩ := prefix_completeBase generators asked
    rw [← hadded, List.getElem?_append_left hlt] at hbase
    exact List.mem_of_getElem? hbase
  · right
    rw [Level.BasedOnFirst, hgenerators, List.head?_filter]
    exact find?_completeBase hne hge hbase

/-! ## Steps and runs -/

/-- A residue goes to levels behind their first generators.  If it lengthens the base, then
it becomes the first generator of the new level. -/
theorem askedOrLed_insertResidue {residue : Perm n} {passed : Nat}
    (hle : passed ≤ levels.length) (hne : passed < levels.length ∨ residue ≠ 1)
    (hlevels : ∀ level ∈ levels, AskedOrLed asked level) :
    ∀ level ∈ insertResidue residue passed levels, AskedOrLed asked level := by
  obtain ⟨last, back, hinsert, hcase⟩ := insertResidue_eq hle hne
  have hpassed : ∀ level ∈ levels.take passed, AskedOrLed asked (level.addGenerator residue) :=
    fun level hlevel => (hlevels level (List.mem_of_mem_take hlevel)).addGenerator residue
  have hrest : AskedOrLed asked (last.addGenerator residue) ∧
      ∀ level ∈ back, AskedOrLed asked level := by
    rcases hcase with ⟨heq, hlast⟩ | ⟨b, hmoved, -, rfl, rfl⟩
    · refine ⟨(hlevels last (List.mem_of_getElem? hlast)).addGenerator residue, ?_⟩
      intro level hlevel
      apply hlevels
      rw [heq]
      exact List.mem_append_right _ (List.mem_cons_of_mem _ hlevel)
    · exact ⟨.inr hmoved, fun level hlevel => absurd hlevel List.not_mem_nil⟩
  intro level hlevel
  rw [hinsert, List.map_append, List.mem_append, List.mem_append] at hlevel
  rcases hlevel with (hlevel | hlevel) | hlevel
  · obtain ⟨other, hother, rfl⟩ := List.mem_map.mp hlevel
    exact hpassed other hother
  · obtain rfl : level = last.addGenerator residue := by simpa using hlevel
    exact hrest.1
  · exact hrest.2 level hlevel

namespace Verification

variable {v w : Verification n}

theorem Valid.askedOrLed_step (hv : v.Valid points G) (h : v.step? = some w)
    (hlevels : ∀ level ∈ v.levels, AskedOrLed asked level) :
    ∀ level ∈ w.levels, AskedOrLed asked level := by
  rcases step?_cases h with
    ⟨level, above, hpending, -, rfl⟩ | ⟨level, above, residue, passed, hpending, hsome, hw⟩
  · rwa [levels_advance hpending]
  · obtain ⟨hle, hne, -⟩ := hv.residue_spec hpending hsome
    rw [levels_of_pending hpending, List.forall_mem_append] at hlevels
    rw [levels_mend hw, List.forall_mem_append]
    exact ⟨hlevels.1, askedOrLed_insertResidue hle hne hlevels.2⟩

theorem Valid.askedOrLed_run (hv : v.Valid points G)
    (hlevels : ∀ level ∈ v.levels, AskedOrLed asked level) :
    let final := exhaust step? (verificationBound n (points.length + n)) v
    ∀ level ∈ final.verified, AskedOrLed asked level := by
  intro final
  have hinvariant : final.Valid points G ∧ ∀ level ∈ final.levels, AskedOrLed asked level := by
    apply exhaust_induction (P := fun v : Verification n => v.Valid points G ∧
      ∀ level ∈ v.levels, AskedOrLed asked level) _ _ ⟨hv, hlevels⟩
    rintro s t ⟨hs, hbases⟩ hst
    exact ⟨(hs.step hst).1, hs.askedOrLed_step hst hbases⟩
  rw [← hv.levels_run]
  exact hinvariant.2

end Verification

/-- In a chain built from generators every base point was asked for or is the lowest point
that the first generator of its level moves. -/
theorem askedOrLed_ofGenerators (generators : List (Perm n)) (points : List Nat) :
    ∀ level ∈ (ofGenerators generators points).levels, AskedOrLed points.eraseDups level := by
  refine (Verification.valid_start generators points).askedOrLed_run fun level hlevel => ?_
  rw [Verification.levels_start] at hlevel
  exact askedOrLed_levelsOn (fun g hg => (mem_distinct_generators.mp hg).2) hlevel

/-! ## The finished chain -/

/-- The generators of a level fix the base points of all levels before it. -/
theorem Layered.fixes_bases (h : Layered points G levels) (hlevel : levels[i]? = some level)
    (hg : g ∈ level.generators) : ∀ x ∈ (levels.map Level.base).take i, g x = x := by
  intro x hx
  obtain ⟨hi, rfl⟩ := List.getElem?_eq_some_iff.mp hlevel
  obtain ⟨j, hj, rfl⟩ := List.mem_take_iff_getElem.mp hx
  have hji : j < i := by omega
  have hrefines := List.pairwise_iff_getElem.mp h.nested j i (by omega) hi hji
  rw [List.getElem_map]
  exact (hrefines (subset_generated hg)).2

/-- Base points after the points that were asked for are none of these. -/
theorem base_notMem_of_length_le (hi : points.eraseDups.length ≤ i)
    (hlevel : (ofGenerators generators points).levels[i]? = some level) :
    level.base ∉ points.eraseDups := by
  obtain ⟨-, ⟨added, hadded⟩, hnodup⟩ := ofGenerators_spec generators points
  have hbase : (ofGenerators generators points).base[i]? = some level.base := by
    rw [base, List.getElem?_map, hlevel, Option.map_some]
  rw [← hadded] at hbase hnodup
  rw [List.getElem?_append_right hi] at hbase
  intro hmem
  exact (List.nodup_append.mp hnodup).2.2 _ hmem _ (List.mem_of_getElem? hbase) rfl

/-- After the points that were asked for, every base point is the lowest point that the
first strong generator of its level moves, where strong generators fix all base points
before.  It is the lowest point that any of them moves exactly if no later generator of
the level moves a lower one. -/
theorem base_ofGenerators_firstMoved (generators : List (Perm n)) (points : List Nat)
    (hi : points.eraseDups.length ≤ i)
    (hlevel : (ofGenerators generators points).levels[i]? = some level) :
    ∃ first rest, level.generators = first :: rest ∧ first.firstMoved? = some level.base ∧
      (∀ g ∈ level.generators, ∀ x ∈ (ofGenerators generators points).base.take i, g x = x) ∧
      (IsLeast {x | ∃ g ∈ level.generators, g x ≠ x} level.base ↔
        ∀ g ∈ rest, ∀ x < level.base, g x = x) := by
  have hled := (askedOrLed_ofGenerators generators points level
    (List.mem_of_getElem? hlevel)).resolve_left (base_notMem_of_length_le hi hlevel)
  obtain ⟨first, rest, hgenerators, hfirst⟩ := hled.exists_eq_cons
  have hlayered := (Verification.valid_start generators points).run.2
  exact ⟨first, rest, hgenerators, hfirst, fun g hg => hlayered.fixes_bases hlevel hg,
    Level.isLeast_moved_iff hgenerators hfirst⟩

/-- Two exchanges after a base point that both fix.  The one that moves the lower point
comes first, so that the base goes on with the lowest point. -/
theorem base_ofGenerators_firstMoved_exchanges :
    let c := ofGenerators [swap 4 0 1, swap 4 1 2] [3, 3]
    ∃ level, [3, 3].eraseDups.length ≤ 1 ∧ c.levels[1]? = some level ∧ level.base = 0 ∧
      IsLeast {x | ∃ g ∈ level.generators, g x ≠ x} 0 := by
  intro c
  have hi : [3, 3].eraseDups.length ≤ 1 := by decide
  have hbases : c.levels[1]?.map Level.base = some 0 := by decide +kernel
  obtain ⟨level, hlevel, hbase⟩ := Option.map_eq_some_iff.mp hbases
  obtain ⟨first, rest, -, -, -, hleast⟩ := base_ofGenerators_firstMoved _ [3, 3] hi hlevel
  rw [hbase] at hleast
  exact ⟨level, hi, hlevel, hbase, hleast.mpr fun _ _ x hx => absurd hx (Nat.not_lt_zero x)⟩

/-- The exchange of 1 and 2 comes first and provides the base point 1, but the strong
generators of this level also move 0. -/
theorem base_ofGenerators_not_isLeast :
    ¬∀ (generators : List (Perm 3)) (points : List Nat), (∀ x ∈ points, x < 3) →
      ∀ i level, points.eraseDups.length ≤ i →
        (ofGenerators generators points).levels[i]? = some level →
        IsLeast {x | ∃ g ∈ level.generators, g x ≠ x} level.base := by
  intro hlowest
  let c := ofGenerators [swap 3 1 2, swap 3 0 1] []
  have hfirst : c.levels[0]?.map (fun level => (level.base, level.generators)) =
      some (1, [swap 3 1 2, swap 3 0 1]) := by decide +kernel
  obtain ⟨level, hlevel, heq⟩ := Option.map_eq_some_iff.mp hfirst
  obtain ⟨hbase, hgenerators⟩ := Prod.mk.inj heq
  have hleast := hlowest _ [] (by simp) 0 level (Nat.le_refl 0) hlevel
  have hmoves : swap 3 0 1 0 ≠ 0 := by decide
  have hle := hleast.2 ⟨swap 3 0 1, by simp [hgenerators], hmoves⟩
  rw [hbase] at hle
  exact absurd hle (by decide)

end Chain
end ProcessorSymmetry

import ProcessorSymmetry.Proofs.Group.Layers

/-!
# Verification of levels

Every step of a verification keeps the levels nested and the verified ones a
stabilizer chain, and it either verifies one more level or makes an orbit
longer.  So the verification ends with a stabilizer chain of the group that it
started with.
-/

namespace ProcessorSymmetry
namespace Chain

open Perm

variable {n : Nat} {level : Level n} {residue : Perm n} {passed : Nat} {points : List Nat}
  {G : Subgroup (Perm n)}

namespace Verification

variable {v w : Verification n} {above : List (Level n)}

/-- All levels of a chain under verification, the whole group first. -/
def levels (v : Verification n) : List (Level n) :=
  v.pending.reverse ++ v.verified

/-- The invariant of a verification. -/
structure Valid (points : List Nat) (G : Subgroup (Perm n)) (v : Verification n) :
    Prop where
  layered : Layered points G v.levels
  verified : ∃ H, IsChainOf v.verified H

/-- A step verifies the deepest pending level, or it inserts what is left of a
failing Schreier generator below it. -/
theorem step?_cases (h : v.step? = some w) :
    (∃ level above, v.pending = level :: above ∧ failing? level v.verified = none ∧
      w = ⟨above, level :: v.verified⟩) ∨
    ∃ level above residue passed, v.pending = level :: above ∧
      failing? level v.verified = some (residue, passed) ∧
      w = ⟨((insertResidue residue passed v.verified).take (passed + 1)).reverse ++
        level :: above, (insertResidue residue passed v.verified).drop (passed + 1)⟩ := by
  rw [step?] at h
  cases hpending : v.pending with
  | nil => simp [hpending] at h
  | cons level above =>
      cases hfailing : failing? level v.verified with
      | none =>
          have hw : some (⟨above, level :: v.verified⟩ : Verification n) = some w := by
            simpa [hpending, hfailing] using h
          exact .inl ⟨level, above, rfl, hfailing, (Option.some.inj hw).symm⟩
      | some found =>
          obtain ⟨residue, passed⟩ := found
          simp only [hpending, hfailing] at h
          exact .inr ⟨level, above, residue, passed, rfl, hfailing, (Option.some.inj h).symm⟩

theorem levels_of_pending (h : v.pending = level :: above) :
    v.levels = (above.reverse ++ [level]) ++ v.verified := by
  rw [levels, h, List.reverse_cons]

namespace Valid

theorem isOrbitOf (hv : v.Valid points G) (hpending : v.pending = level :: above) :
    level.IsOrbitOf (generated level.generators) := by
  apply hv.layered.orbits
  rw [levels_of_pending hpending]
  simp

/-- The verified levels belong to a subgroup of the stabilizer of the level above. -/
theorem verified_le (hv : v.Valid points G) (hpending : v.pending = level :: above)
    {H : Subgroup (Perm n)} (hH : IsChainOf v.verified H) :
    H ≤ generated level.generators ⊓ fixing level.base := by
  rw [hH.eq_topGroup]
  cases hverified : v.verified with
  | nil => exact bot_le
  | cons next rest =>
      have hnested := hv.layered.nested
      rw [levels_of_pending hpending, hverified, List.pairwise_append] at hnested
      exact hnested.2.2 level (by simp) next List.mem_cons_self

/-! ## Advancing -/

/-- A level without failing Schreier generators continues the chain of the
verified levels. -/
theorem isChainOf_cons (hv : v.Valid points G) (hpending : v.pending = level :: above)
    (hnone : failing? level v.verified = none) :
    IsChainOf (level :: v.verified) (generated level.generators) := by
  obtain ⟨H, hH⟩ := hv.verified
  have hbelow := hv.verified_le hpending hH
  have hall : generated level.generators ⊓ fixing level.base ≤ H := by
    apply (hv.isOrbitOf hpending).inf_fixing_le (hbelow.trans inf_le_right)
    intro entry hentry g hg s hs
    exact mem_of_failing?_eq_none hH hnone hentry hg hs
  have heq : H = generated level.generators ⊓ fixing level.base := le_antisymm hbelow hall
  exact .cons (hv.isOrbitOf hpending) rfl (heq ▸ hH)

theorem levels_advance (hpending : v.pending = level :: above) :
    (⟨above, level :: v.verified⟩ : Verification n).levels = v.levels := by
  rw [levels_of_pending hpending, List.append_assoc]
  rfl

theorem advance (hv : v.Valid points G) (hpending : v.pending = level :: above)
    (hnone : failing? level v.verified = none) :
    Valid points G ⟨above, level :: v.verified⟩ where
  layered := by
    rw [levels_advance hpending]
    exact hv.layered
  verified := ⟨_, hv.isChainOf_cons hpending hnone⟩

/-! ## Mending -/

/-- The residue of a failing Schreier generator lies in the stabilizers of all
levels above, and it fixes the base points of the levels that it passed. -/
theorem residue_spec (hv : v.Valid points G) (hpending : v.pending = level :: above)
    (hsome : failing? level v.verified = some (residue, passed)) :
    passed ≤ v.verified.length ∧ (passed < v.verified.length ∨ residue ≠ 1) ∧
      (∀ a ∈ above.reverse ++ [level], residue ∈ generated a.generators ⊓ fixing a.base) ∧
      (∀ a ∈ v.verified.take passed, residue a.base = a.base) ∧
      ∀ stop, v.verified[passed]? = some stop → residue stop.base ∉ stop.orbit := by
  obtain ⟨H, hH⟩ := hv.verified
  obtain ⟨entry, hentry, g, hg, s, hs, hsift, hne⟩ := failing?_eq_some hsome
  have hpassed := siftThrough_passed_le v.verified s
  have hfix := hH.residue_fixes s
  have hstuck : ∀ stop, v.verified[(siftThrough v.verified s).2]? = some stop →
      (siftThrough v.verified s).1 stop.base ∉ stop.orbit := fun _ hstop =>
    hH.residue_stuck s hstop
  obtain ⟨k, hk, hres⟩ := hH.residue_eq s
  rw [hsift] at hpassed hfix hstuck hres
  have hlevel : residue ∈ generated level.generators ⊓ fixing level.base := by
    have hschreier := (hv.isOrbitOf hpending).schreierGenerator?_mem hentry
      (subset_generated hg) hs
    change residue = s * k at hres
    rw [hres]
    exact Subgroup.mul_mem _ hschreier (hv.verified_le hpending hH hk)
  refine ⟨hpassed, hne, ?_, hfix, hstuck⟩
  intro a ha
  rcases List.mem_append.mp ha with ha | ha
  · have hnested := hv.layered.nested
    rw [levels_of_pending hpending, List.pairwise_append, List.pairwise_append] at hnested
    exact hnested.1.2.2 a ha level List.mem_cons_self hlevel.1
  · rwa [List.mem_singleton.mp ha]

/-- An empty level for a point that the residue moves makes the orbits longer in total. -/
theorem append_empty (hv : v.Valid points G) (hpending : v.pending = level :: above) {b : Nat}
    (hb : b < n) (hmoved : residue b ≠ b)
    (hfixes : ∀ a ∈ v.levels, residue a.base = a.base) :
    Layered points G (v.levels ++ [.ofGenerators b []]) ∧
      totalOrbits v.levels < totalOrbits (v.levels ++ [.ofGenerators b []]) := by
  have hnew : b ∉ v.levels.map Level.base := by
    intro hmem
    obtain ⟨a, ha, rfl⟩ := List.mem_map.mp hmem
    exact hmoved (hfixes a ha)
  have hnonempty : v.levels ≠ [] := by simp [levels_of_pending hpending]
  refine ⟨hv.layered.append_empty hnonempty hb hnew, ?_⟩
  have hpos := (Level.isOrbitOf_ofGenerators (n := n) b []).orbitLength_pos
  simp only [totalOrbits, List.map_append, List.map_singleton, List.sum_append,
    List.sum_singleton]
  omega

/-- The levels to which the residue goes, before it is added to them: either no
level is new and the residue leaves the last orbit, or the last level is new. -/
theorem exists_extension (hv : v.Valid points G) (hpending : v.pending = level :: above)
    (hsome : failing? level v.verified = some (residue, passed)) :
    ∃ last back,
      insertResidue residue passed v.verified =
        (v.verified.take passed ++ [last]).map (·.addGenerator residue) ++ back ∧
      Layered points G
        (above.reverse ++ [level] ++ (v.verified.take passed ++ [last]) ++ back) ∧
      (∃ H, IsChainOf back H) ∧
      (totalOrbits v.levels < totalOrbits
          (above.reverse ++ [level] ++ (v.verified.take passed ++ [last]) ++ back) ∨
        residue last.base ∉ last.orbit ∧ v.levels =
          above.reverse ++ [level] ++ (v.verified.take passed ++ [last]) ++ back) := by
  obtain ⟨hle, hne, hupper, hinit, hstuck⟩ := hv.residue_spec hpending hsome
  have hlevels := levels_of_pending hpending
  obtain ⟨last, back, hinsert, hcase⟩ := insertResidue_eq hle hne
  refine ⟨last, back, hinsert, ?_⟩
  rcases hcase with ⟨hverified, hlast⟩ | ⟨b, hfirst, hall, rfl, rfl⟩
  · -- The residue got stuck at a level that has been verified.
    have heq : v.levels =
        above.reverse ++ [level] ++ (v.verified.take passed ++ [last]) ++ back := by
      rw [hlevels, List.append_assoc, List.append_assoc, List.append_assoc,
        List.append_assoc, List.singleton_append (l := back), ← hverified]
    have hback : back = v.verified.drop (passed + 1) := by
      have hdrop := congrArg (List.drop (passed + 1)) hverified
      rw [hdrop, List.drop_append]
      simp [hle]
    obtain ⟨H, hH⟩ := hv.verified
    exact ⟨heq ▸ hv.layered, hback ▸ hH.drop (passed + 1), .inr ⟨hstuck last hlast, heq⟩⟩
  · -- The residue passed all verified levels, so that it fixes every base point.
    obtain ⟨hb, hmoved⟩ := firstMoved?_eq_some hfirst
    have heq : v.levels ++ [.ofGenerators b []] = above.reverse ++ [level] ++
        (v.verified.take passed ++ [.ofGenerators b []]) ++ [] := by
      rw [hlevels, hall]
      simp
    have hfixes : ∀ a ∈ v.levels, residue a.base = a.base := by
      intro a ha
      rw [hlevels, List.mem_append] at ha
      rcases ha with ha | ha
      · exact (hupper a ha).2
      · exact hinit a (by rwa [hall])
    obtain ⟨hlayered, hlonger⟩ := hv.append_empty hpending hb hmoved hfixes
    rw [heq] at hlayered hlonger
    exact ⟨hlayered, ⟨⊥, .nil⟩, .inl hlonger⟩

/-- Inserting the residue leaves the levels above the verified ones as they are. -/
theorem levels_mend (hw : w =
    ⟨((insertResidue residue passed v.verified).take (passed + 1)).reverse ++ level :: above,
      (insertResidue residue passed v.verified).drop (passed + 1)⟩) :
    w.levels = above.reverse ++ [level] ++ insertResidue residue passed v.verified := by
  rw [hw, levels, List.reverse_append, List.reverse_reverse, List.reverse_cons,
    List.append_assoc, List.take_append_drop]

/-- Inserting the residue keeps the invariant and makes the orbits longer in total. -/
theorem mend (hv : v.Valid points G) (hpending : v.pending = level :: above)
    (hsome : failing? level v.verified = some (residue, passed)) {w : Verification n}
    (hw : w = ⟨((insertResidue residue passed v.verified).take (passed + 1)).reverse ++
      level :: above, (insertResidue residue passed v.verified).drop (passed + 1)⟩) :
    w.Valid points G ∧ totalOrbits v.levels < totalOrbits w.levels := by
  obtain ⟨hle, -, hupper, hinit, -⟩ := hv.residue_spec hpending hsome
  obtain ⟨last, back, hinsert, hlayered, hback, htotal⟩ := hv.exists_extension hpending hsome
  have hlevels : w.levels = above.reverse ++ [level] ++
      (v.verified.take passed ++ [last]).map (·.addGenerator residue) ++ back := by
    rw [levels_mend hw, hinsert, ← List.append_assoc]
  have hlength : ((v.verified.take passed ++ [last]).map
      (·.addGenerator residue)).length = passed + 1 := by
    simp [hle]
  have hverified : w.verified = back := by
    rw [hw, hinsert]
    exact List.drop_left' hlength
  have hafter := hlayered.totalOrbits_addGenerator residue
  rw [hlevels]
  constructor
  · exact ⟨hlevels ▸ hlayered.addGenerator (by simp) hupper hinit, hverified ▸ hback⟩
  · rcases htotal with hlt | ⟨hout, heq⟩
    · exact hlt.trans_le hafter.1
    · rw [heq]
      exact hafter.2 hout

end Valid

/-! ## The whole run -/

/-- What is left to gain in orbit points comes first, then the number of pending
levels, of which there are at most `most`. -/
def measure (n most : Nat) (v : Verification n) : Nat :=
  (most * (n + 1) - totalOrbits v.levels) * (most + 1) + v.pending.length

theorem Valid.step (hv : v.Valid points G) (h : v.step? = some w) :
    w.Valid points G ∧
      w.measure n (points.length + n) < v.measure n (points.length + n) := by
  rcases step?_cases h with
    ⟨level, above, hpending, hnone, rfl⟩ | ⟨level, above, residue, passed, hpending, hsome, hw⟩
  · refine ⟨hv.advance hpending hnone, ?_⟩
    rw [measure, measure, levels_advance hpending, hpending]
    exact Nat.add_lt_add_left (Nat.lt_succ_self above.length) _
  · obtain ⟨hvalid, hlt⟩ := hv.mend hpending hsome hw
    refine ⟨hvalid, ?_⟩
    have hmost := hvalid.layered.totalOrbits_le
    have hpendingLe : w.pending.length ≤ points.length + n := by
      have hlength := hvalid.layered.length_le
      rw [levels, List.length_append, List.length_reverse] at hlength
      omega
    have hgain : (points.length + n) * (n + 1) - totalOrbits w.levels + 1 ≤
        (points.length + n) * (n + 1) - totalOrbits v.levels := by
      omega
    have hmul := Nat.mul_le_mul_right (points.length + n + 1) hgain
    rw [Nat.add_mul, Nat.one_mul] at hmul
    rw [measure, measure]
    omega

theorem Valid.measure_le (hv : v.Valid points G) :
    v.measure n (points.length + n) ≤ verificationBound n (points.length + n) := by
  have hpending : v.pending.length ≤ points.length + n := by
    have hlength := hv.layered.length_le
    rw [levels, List.length_append, List.length_reverse] at hlength
    omega
  have hmul : ((points.length + n) * (n + 1) - totalOrbits v.levels) *
      (points.length + n + 1) ≤ (points.length + n) * (n + 1) * (points.length + n + 1) :=
    Nat.mul_le_mul_right _ (Nat.sub_le _ _)
  rw [measure, verificationBound, Nat.add_mul ((points.length + n) * (n + 1)), Nat.one_mul]
  omega

theorem step?_eq_none_iff : v.step? = none ↔ v.pending = [] := by
  rw [step?]
  cases v.pending with
  | nil => simp
  | cons level above =>
      dsimp only
      cases failing? level v.verified <;> simp

/-- A verification ends when no level is pending. -/
theorem Valid.pending_run (hv : v.Valid points G) :
    (exhaust step? (verificationBound n (points.length + n)) v).pending = [] := by
  apply step?_eq_none_iff.mp
  apply step_exhaust (P := Valid points G) (μ := measure n (points.length + n)) _ hv
    hv.measure_le
  intro s t hs hst
  exact hs.step hst

theorem Valid.levels_run (hv : v.Valid points G) :
    let final := exhaust step? (verificationBound n (points.length + n)) v
    final.levels = final.verified := by
  intro final
  rw [levels, hv.pending_run, List.reverse_nil, List.nil_append]

/-- A verification ends with a stabilizer chain of its group. -/
theorem Valid.run (hv : v.Valid points G) :
    let final := exhaust step? (verificationBound n (points.length + n)) v
    IsChainOf final.verified G ∧ Layered points G final.verified := by
  intro final
  have hfinal : final.Valid points G := by
    apply exhaust_induction (P := Valid points G) _ _ hv
    intro s t hs hst
    exact (hs.step hst).1
  have hlayered := hfinal.layered
  rw [hv.levels_run] at hlayered
  obtain ⟨H, hH⟩ := hfinal.verified
  have hG : H = G := by rw [hH.eq_topGroup, hlayered.top]
  exact ⟨hG ▸ hH, hlayered⟩

end Verification
end Chain
end ProcessorSymmetry

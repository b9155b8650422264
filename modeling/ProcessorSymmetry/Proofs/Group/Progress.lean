import Mathlib.Logic.Relation
import ProcessorSymmetry.Group.SymmetricChain
import ProcessorSymmetry.Proofs.Group.Lookups

/-!
# Progress of a verification

A verification passes through states in which all base points are distinct points of
the domain, so that there are never more levels than points.  Whenever it does not
simply go on to the next level, an orbit has got larger or a level has been added.
-/

namespace ProcessorSymmetry

open Perm

variable {n : Nat}

/-- One level has the base point of the other and all points of its orbit. -/
structure Level.GrowsTo (level larger : Level n) : Prop where
  base_eq : larger.base = level.base
  orbit_subset : ∀ x ∈ level.orbit, x ∈ larger.orbit

namespace Chain

variable {level : Level n} {residue : Perm n} {passed : Nat} {points : List Nat}
  {G : Subgroup (Perm n)} {levels upper middle back : List (Level n)}

/-! ## Levels -/

namespace Layered

/-- If a chain starts with points of the domain, then all base points lie in it. -/
theorem base_lt (h : Layered points G levels) (hpoints : ∀ x ∈ points, x < n)
    (hlevel : level ∈ levels) : level.base < n := by
  obtain ⟨added, hadded⟩ := h.base
  have hmem : level.base ∈ points ++ added := hadded ▸ List.mem_map_of_mem hlevel
  rcases List.mem_append.mp hmem with hmem | hmem
  · exact hpoints _ hmem
  · apply h.added
    rwa [← hadded, List.drop_left]

theorem orbit_lt (h : Layered points G levels) (hpoints : ∀ x ∈ points, x < n)
    (hlevel : level ∈ levels) {x : Nat} (hx : x ∈ level.orbit) : x < n := by
  obtain ⟨p, -, rfl⟩ := (h.orbits level hlevel).mem_orbit_iff.mp hx
  exact p.app_lt (h.base_lt hpoints hlevel)

theorem length_le_degree (h : Layered points G levels) (hpoints : ∀ x ∈ points, x < n) :
    levels.length ≤ n := by
  have hlt : ∀ b ∈ levels.map Level.base, b < n := by
    intro b hb
    obtain ⟨level, hlevel, rfl⟩ := List.mem_map.mp hb
    exact h.base_lt hpoints hlevel
  simpa using length_le_of_nodup h.distinct hlt

end Layered

theorem growsTo_addGenerator (h : level.IsOrbitOf (generated level.generators))
    (g : Perm n) : level.GrowsTo (level.addGenerator g) where
  base_eq := rfl
  orbit_subset := h.orbit_subset (Level.isOrbitOf_ofGenerators _ _) rfl
    (generated_le_addGenerator level g)

/-- All levels grow when a generator is added to some of them. -/
theorem forall₂_growsTo_addGenerator
    (h : ∀ a ∈ upper ++ middle ++ back, a.IsOrbitOf (generated a.generators)) (g : Perm n) :
    List.Forall₂ Level.GrowsTo (upper ++ middle ++ back)
      (upper ++ middle.map (·.addGenerator g) ++ back) := by
  have hsame : ∀ same : List (Level n), List.Forall₂ Level.GrowsTo same same := fun same =>
    List.forall₂_same.mpr fun _ _ => ⟨rfl, fun _ hx => hx⟩
  refine List.rel_append (List.rel_append (hsame upper) ?_) (hsame back)
  rw [List.forall₂_map_right_iff, List.forall₂_same]
  intro a ha
  exact growsTo_addGenerator (h a (by simp [ha])) g

theorem completeBase_lt (generators : List (Perm n)) (hpoints : ∀ x ∈ points, x < n) :
    ∀ b ∈ completeBase generators points, b < n := by
  induction generators generalizing points with
  | nil => exact hpoints
  | cons g generators ih =>
      rw [completeBase_cons]
      split
      · apply ih
        intro x hx
        rcases List.mem_append.mp hx with hx | hx
        · exact hpoints x hx
        · exact (firstMoved?_eq_some (Option.mem_toList.mp hx)).1
      · exact ih hpoints

/-! ## Steps -/

namespace Verification

variable {v w : Verification n} {above : List (Level n)}

/-- One more level is verified, and all levels stay as they are. -/
structure Advances (v w : Verification n) : Prop where
  levels_eq : w.levels = v.levels
  pending_length : w.pending.length + 1 = v.pending.length

/-- No level loses a point of its orbit, and the orbit of some level gets larger. -/
structure Enlarges (v w : Verification n) : Prop where
  grows : List.Forall₂ Level.GrowsTo v.levels w.levels
  strict : ∃ (i : Nat) (level larger : Level n), v.levels[i]? = some level ∧
    w.levels[i]? = some larger ∧ ∃ x ∈ larger.orbit, x ∉ level.orbit

/-- No level loses a point of its orbit, and there is one more level, whose base point is new. -/
def Extends (v w : Verification n) : Prop :=
  ∃ grown added, w.levels = grown ++ [added] ∧ List.Forall₂ Level.GrowsTo v.levels grown ∧
    added.base < n ∧ ∀ level ∈ v.levels, level.base ≠ added.base

/-- A residue enlarges the orbit of the level where it got stuck, or else it provides the
base point of a new level. -/
theorem Valid.enlarges_or_extends (hv : v.Valid points G) (hpending : v.pending = level :: above)
    (hsome : failing? level v.verified = some (residue, passed))
    (hw : w = ⟨((insertResidue residue passed v.verified).take (passed + 1)).reverse ++
      level :: above, (insertResidue residue passed v.verified).drop (passed + 1)⟩) :
    v.Enlarges w ∨ v.Extends w := by
  obtain ⟨hle, hne, hupper, hinit, hstuck⟩ := hv.residue_spec hpending hsome
  obtain ⟨last, back, hinsert, hcase⟩ := insertResidue_eq hle hne
  let upper := above.reverse ++ [level]
  let init := v.verified.take passed
  have hbefore : v.levels = upper ++ v.verified := levels_of_pending hpending
  have hafter : w.levels = upper ++ (init ++ [last]).map (·.addGenerator residue) ++ back := by
    rw [levels_mend hw, hinsert, ← List.append_assoc]
  rcases hcase with ⟨hverified, hlast⟩ | ⟨b, hmoved, hall, rfl, rfl⟩
  · -- The residue got stuck at `last`, whose orbit it leaves.
    left
    have hlevels : v.levels = upper ++ (init ++ [last]) ++ back := by
      rw [hbefore, hverified]
      simp [init]
    have hgrows := forall₂_growsTo_addGenerator (hlevels ▸ hv.layered.orbits) residue
    rw [← hlevels, ← hafter] at hgrows
    refine ⟨hgrows, (upper ++ init).length, last, last.addGenerator residue, ?_, ?_,
      residue last.base, ?_, hstuck last hlast⟩
    · rw [hlevels]
      simp
    · rw [hafter]
      simp
    · exact (Level.isOrbitOf_ofGenerators _ _).complete residue
        (mem_generated_addGenerator last residue)
  · -- The residue passed all levels and fixes their base points.
    right
    obtain ⟨hb, hmoves⟩ := firstMoved?_eq_some hmoved
    have hinit_eq : init = v.verified := hall
    refine ⟨upper ++ v.verified.map (·.addGenerator residue),
      (Level.ofGenerators b []).addGenerator residue, ?_, ?_, hb, ?_⟩
    · rw [hafter, hinit_eq]
      simp
    · have hlevels : v.levels = upper ++ v.verified ++ [] := by rw [hbefore, List.append_nil]
      have hgrows := forall₂_growsTo_addGenerator (hlevels ▸ hv.layered.orbits) residue
      rwa [← hlevels, List.append_nil] at hgrows
    · intro a ha heq
      change a.base = b at heq
      apply hmoves
      rw [← heq]
      rw [hbefore] at ha
      rcases List.mem_append.mp ha with ha | ha
      · exact (hupper a ha).2
      · exact hinit a (hall.symm ▸ ha)

theorem Valid.progress (hv : v.Valid points G) (h : v.step? = some w) :
    v.Advances w ∨ v.Enlarges w ∨ v.Extends w := by
  rcases step?_cases h with
    ⟨level, above, hpending, -, rfl⟩ | ⟨level, above, residue, passed, hpending, hsome, hw⟩
  · exact .inl ⟨levels_advance hpending, by rw [hpending, List.length_cons]⟩
  · exact .inr (hv.enlarges_or_extends hpending hsome hw)

/-! ## Runs -/

/-- The second state comes after the first one in a verification. -/
def Reaches (v w : Verification n) : Prop :=
  Relation.ReflTransGen (fun v w => v.step? = some w) v w

theorem Valid.of_reaches (hv : v.Valid points G) (h : v.Reaches w) : w.Valid points G := by
  induction h with
  | refl => exact hv
  | tail _ hstep ih => exact (ih.step hstep).1

theorem reaches_exhaust (v : Verification n) (bound : Nat) :
    v.Reaches (exhaust step? bound v) :=
  exhaust_induction (P := v.Reaches) (fun _ _ hs hst => hs.tail hst) bound .refl

end Verification

open Verification in
/-- A chain is built from generators and points of the domain without any check that
fails.  The verification comes to an end, where the chain is read off.  On the way there
are never more levels than points, base points are distinct, and only points of the
domain are involved.  A step that does not just go on to the next level enlarges the
orbit of a level or adds a level with a new base point. -/
theorem ofGenerators_progress (generators : List (Perm n)) (points : List Nat)
    (hpoints : ∀ x ∈ points, x < n) :
    ofGeneratorsChecked generators points = some (ofGenerators generators points) ∧
    (∃ final, (start generators points).Reaches final ∧ final.step? = none ∧
      final.pending = [] ∧ (ofGenerators generators points).levels = final.verified) ∧
    ∀ v, (start generators points).Reaches v →
      v.levels.length ≤ n ∧ (v.levels.map Level.base).Nodup ∧
      (∀ level ∈ v.levels, level.base < n ∧ ∀ x ∈ level.orbit, x < n) ∧
      ∀ w, v.step? = some w → v.Advances w ∨ v.Enlarges w ∨ v.Extends w := by
  have hvalid := valid_start generators points
  refine ⟨ofGeneratorsChecked_eq generators points,
    ⟨_, reaches_exhaust _ _, ?_, hvalid.pending_run, rfl⟩, ?_⟩
  · exact step?_eq_none_iff.mpr hvalid.pending_run
  · intro v hreaches
    have hv := hvalid.of_reaches hreaches
    have hbase := completeBase_lt (distinctBy toList (generators.filter (!·.isIdentity)))
      fun x hx => hpoints x (List.mem_eraseDups.mp hx)
    refine ⟨hv.layered.length_le_degree hbase, hv.layered.distinct, ?_, fun w h => hv.progress h⟩
    exact fun level hlevel =>
      ⟨hv.layered.base_lt hbase hlevel, fun x hx => hv.layered.orbit_lt hbase hlevel hx⟩

open Verification in
/-- All permutations of four points, where the second step adds a third level. -/
theorem ofGenerators_progress_symmetric :
    let generators := [rotation 4 0, swap 4 0 1]
    let v := exhaust step? 1 (start generators [3, 1])
    let w := exhaust step? 2 (start generators [3, 1])
    (∀ x ∈ [3, 1], x < 4) ∧
      ofGeneratorsChecked generators [3, 1] = some (ofGenerators generators [3, 1]) ∧
      (v.Enlarges w ∨ v.Extends w) ∧ w.levels.length = 3 ∧ w.levels.length ≤ 4 := by
  intro generators v w
  have hpoints : ∀ x ∈ [3, 1], x < 4 := by decide
  obtain ⟨hchecked, -, hstates⟩ := ofGenerators_progress generators [3, 1] hpoints
  have hlength : v.levels.length = 2 ∧ w.levels.length = 3 := by decide +kernel
  have hnext : v.step? = some w := by decide +kernel
  obtain ⟨-, -, -, hstep⟩ := hstates v (reaches_exhaust _ 1)
  refine ⟨hpoints, hchecked, (hstep w hnext).resolve_left fun hadvances => ?_, hlength.2,
    (hstates w (reaches_exhaust _ 2)).1⟩
  rw [hadvances.levels_eq, hlength.1] at hlength
  cases hlength.2

end Chain
end ProcessorSymmetry

import ProcessorSymmetry.Proofs.Group.GeneratedChain
import ProcessorSymmetry.Proofs.Group.SymmetricChain

/-!
# Bases without superfluous points

Every base point that is not asked for moves: some member of the group fixes the
base points before it, but not that point.  The generators provide such members
for the first base, and whenever a residue lengthens the base, the residue itself
is one.
-/

namespace ProcessorSymmetry

open Perm

variable {n : Nat}

namespace Perm

/-- The permutations that fix all points of a list. -/
def fixingAll (points : List Nat) : Subgroup (Perm n) where
  carrier := {p | ∀ x ∈ points, p x = x}
  one_mem' := fun x _ => one_app x
  mul_mem' := by
    intro p q hp hq x hx
    rw [mul_app, hp x hx, hq x hx]
  inv_mem' := by
    intro p hp x hx
    rw [inv_app_eq_iff, hp x hx]

@[simp] theorem mem_fixingAll {points : List Nat} {p : Perm n} :
    p ∈ fixingAll points ↔ ∀ x ∈ points, p x = x :=
  Iff.rfl

@[simp] theorem fixingAll_nil : (fixingAll [] : Subgroup (Perm n)) = ⊤ := by
  rw [eq_top_iff]
  intro p _
  simp

theorem fixingAll_cons (x : Nat) (points : List Nat) :
    (fixingAll (x :: points) : Subgroup (Perm n)) = fixing x ⊓ fixingAll points := by
  ext p
  simp

end Perm

namespace Chain

variable {G : Subgroup (Perm n)} {base points : List Nat} {k : Nat}

/-- From place `k` on, every base point is moved by a member that fixes the base
points before it. -/
def IrredundantFrom (k : Nat) (G : Subgroup (Perm n)) (base : List Nat) : Prop :=
  ∀ i b, k ≤ i → base[i]? = some b → ∃ p ∈ G ⊓ fixingAll (base.take i), p b ≠ b

theorem irredundantFrom_length (G : Subgroup (Perm n)) (base : List Nat) :
    IrredundantFrom base.length G base := by
  intro i b hi hb
  rw [List.getElem?_eq_none hi] at hb
  cases hb

theorem IrredundantFrom.mono {l : Nat} (h : IrredundantFrom k G base) (hkl : k ≤ l) :
    IrredundantFrom l G base :=
  fun i b hi hb => h i b (hkl.trans hi) hb

/-- A base may be lengthened by a point that is moved by a member that fixes the whole base. -/
theorem IrredundantFrom.concat (h : IrredundantFrom k G base) {p : Perm n} {b : Nat}
    (hp : p ∈ G) (hfixes : ∀ x ∈ base, p x = x) (hmoves : p b ≠ b) :
    IrredundantFrom k G (base ++ [b]) := by
  intro i c hi hc
  rcases Nat.lt_or_ge i base.length with hlt | hge
  · rw [List.getElem?_append_left hlt] at hc
    rw [List.take_append_of_le_length hlt.le]
    exact h i c hi hc
  · have hlast : i - base.length = 0 ∧ b = c := by
      rw [List.getElem?_append_right hge] at hc
      simpa [List.getElem?_eq_some_iff] using hc
    obtain rfl : i = base.length := by omega
    rw [List.take_left, ← hlast.2]
    exact ⟨p, ⟨hp, hfixes⟩, hmoves⟩

/-! ## The first base -/

theorem IrredundantFrom.completeBase {generators : List (Perm n)}
    (hgenerators : ∀ g ∈ generators, g ∈ G) (h : IrredundantFrom k G points) :
    IrredundantFrom k G (completeBase generators points) := by
  induction generators generalizing points with
  | nil => exact h
  | cons g generators ih =>
      obtain ⟨hg, hrest⟩ := List.forall_mem_cons.mp hgenerators
      rw [completeBase_cons]
      apply ih hrest
      split
      · rename_i hfixes
        cases hmoved : g.firstMoved? with
        | none => simpa using h
        | some b =>
            exact h.concat hg (by simpa using hfixes) (firstMoved?_eq_some hmoved).2
      · exact h

/-! ## Residues -/

/-- Inserting a residue keeps the base or, if it passed all levels, adds a point that it moves. -/
theorem base_insertResidue {residue : Perm n} {passed : Nat} {levels : List (Level n)}
    (hle : passed ≤ levels.length) (hne : passed < levels.length ∨ residue ≠ 1) :
    (insertResidue residue passed levels).map Level.base = levels.map Level.base ∨
      levels.take passed = levels ∧ ∃ b, residue b ≠ b ∧
        (insertResidue residue passed levels).map Level.base = levels.map Level.base ++ [b] := by
  obtain ⟨last, back, hinsert, hcase⟩ := insertResidue_eq hle hne
  have hbases : (insertResidue residue passed levels).map Level.base =
      (levels.take passed).map Level.base ++ last.base :: back.map Level.base := by
    rw [hinsert, List.map_append, List.map_map, List.map_append, List.append_assoc]
    rfl
  rcases hcase with ⟨hlevels, -⟩ | ⟨b, hmoved, hall, rfl, rfl⟩
  · left
    rw [hbases, ← List.map_cons, ← List.map_append, ← hlevels]
  · right
    refine ⟨hall, b, (firstMoved?_eq_some hmoved).2, ?_⟩
    rw [hbases, hall]
    rfl

namespace Verification

variable {v w : Verification n}

/-- A step keeps the base or adds a point that some member moves while it fixes the whole base. -/
theorem Valid.base_step (hv : v.Valid points G) (h : v.step? = some w) :
    w.levels.map Level.base = v.levels.map Level.base ∨
      ∃ residue ∈ G, ∃ b, (∀ x ∈ v.levels.map Level.base, residue x = x) ∧ residue b ≠ b ∧
        w.levels.map Level.base = v.levels.map Level.base ++ [b] := by
  rcases step?_cases h with
    ⟨level, above, hpending, -, rfl⟩ | ⟨level, above, residue, passed, hpending, hsome, hw⟩
  · left
    rw [levels_advance hpending]
  · obtain ⟨hle, hne, hupper, hpassed, -⟩ := hv.residue_spec hpending hsome
    rw [levels_mend hw, List.map_append]
    rcases base_insertResidue hle hne with hsame | ⟨hall, b, hmoves, hlonger⟩
    · left
      rw [hsame, ← List.map_append, levels_of_pending hpending]
    · right
      refine ⟨residue, ?_, b, ?_, hmoves, ?_⟩
      · -- The levels above are not empty, and the first of them generates the group.
        rw [← hv.layered.top, levels_of_pending hpending, topGroup_append (by simp)]
        cases hfirst : above.reverse ++ [level] with
        | nil => simp at hfirst
        | cons first rest => exact (hupper first (by simp [hfirst])).1
      · intro x hx
        obtain ⟨a, ha, rfl⟩ := List.mem_map.mp hx
        rw [levels_of_pending hpending] at ha
        rcases List.mem_append.mp ha with ha | ha
        · exact (hupper a ha).2
        · exact hpassed a (hall.symm ▸ ha)
      · rw [hlonger, ← List.append_assoc, ← List.map_append, levels_of_pending hpending]

/-- A verification never adds a superfluous base point. -/
theorem Valid.irredundant_run (hv : v.Valid points G)
    (h : IrredundantFrom k G (v.levels.map Level.base)) :
    let final := exhaust step? (verificationBound n (points.length + n)) v
    IrredundantFrom k G (final.verified.map Level.base) := by
  intro final
  have hinvariant : final.Valid points G ∧ IrredundantFrom k G (final.levels.map Level.base) := by
    apply exhaust_induction (P := fun v : Verification n => v.Valid points G ∧
      IrredundantFrom k G (v.levels.map Level.base)) _ _ ⟨hv, h⟩
    rintro s t ⟨hs, hbase⟩ hst
    refine ⟨(hs.step hst).1, ?_⟩
    rcases hs.base_step hst with hsame | ⟨residue, hmem, b, hfixes, hmoves, hlonger⟩
    · rwa [hsame]
    · rw [hlonger]
      exact hbase.concat hmem hfixes hmoves
  rw [← hv.levels_run]
  exact hinvariant.2

end Verification

/-- In a chain built from generators only the points that are asked for may be superfluous. -/
theorem irredundant_ofGenerators (generators : List (Perm n)) (points : List Nat) :
    IrredundantFrom points.eraseDups.length (generated generators)
      (ofGenerators generators points).base := by
  have hgenerated : ∀ g ∈ distinctBy toList (generators.filter (!·.isIdentity)),
      g ∈ generated generators :=
    fun g hg => subset_generated (mem_distinct_generators.mp hg).1
  have hstart := (irredundantFrom_length (generated generators) points.eraseDups).completeBase
    hgenerated
  rw [← firstBase, ← Verification.base_start] at hstart
  exact (Verification.valid_start generators points).irredundant_run hstart

/-! ## The symmetric group -/

theorem base_symmetric (n : Nat) : (symmetric n).base = List.range (n - 1) := by
  rw [base, symmetric, List.map_map]
  exact List.map_id' _

/-- Each base point of the symmetric group can be exchanged with the next point. -/
theorem irredundant_symmetric (n : Nat) :
    IrredundantFrom (n := n) 0 ⊤ (symmetric n).base := by
  rw [base_symmetric]
  intro i b _ hb
  obtain ⟨hi, rfl⟩ := List.getElem?_eq_some_iff.mp hb
  rw [List.length_range] at hi
  rw [List.getElem_range]
  have hswap := fun x => swap_app (n := n) (i := i) (j := i + 1) (x := x) (by omega) (by omega)
  refine ⟨swap n i (i + 1), ⟨Subgroup.mem_top _, ?_⟩, ?_⟩
  · intro x hx
    rw [List.take_range, List.mem_range] at hx
    rw [hswap, if_neg (by omega), if_neg (by omega)]
  · rw [hswap, if_pos rfl]
    omega

end Chain
end ProcessorSymmetry

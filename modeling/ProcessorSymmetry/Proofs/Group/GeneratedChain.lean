import ProcessorSymmetry.Proofs.Distinct
import ProcessorSymmetry.Proofs.Group.Verification

/-!
# Chains from generators

The chain built from generators is a stabilizer chain of the group that they
generate, and its base starts with the given points.
-/

namespace ProcessorSymmetry
namespace Chain

open Perm

variable {n : Nat}

/-! ## The first base -/

theorem completeBase_cons (g : Perm n) (generators : List (Perm n)) (points : List Nat) :
    completeBase (g :: generators) points =
      completeBase generators (if points.all fun b => g b == b
        then points ++ g.firstMoved?.toList else points) := by
  rw [completeBase, List.foldl_cons]
  rfl

theorem prefix_completeBase (generators : List (Perm n)) (points : List Nat) :
    points <+: completeBase generators points := by
  induction generators generalizing points with
  | nil => exact List.prefix_refl _
  | cons g generators ih =>
      rw [completeBase_cons]
      split
      · exact (List.prefix_append _ _).trans (ih _)
      · exact ih points

/-- A base is lengthened at its end by points of the domain, and points stay distinct. -/
theorem completeBase_spec (generators : List (Perm n)) {points : List Nat}
    (hpoints : points.Nodup) :
    points <+: completeBase generators points ∧ (completeBase generators points).Nodup := by
  refine ⟨prefix_completeBase generators points, ?_⟩
  induction generators generalizing points with
  | nil => exact hpoints
  | cons g generators ih =>
      rw [completeBase_cons]
      split
      · rename_i hfixes
        apply ih
        cases hmoved : g.firstMoved? with
        | none => simpa using hpoints
        | some b =>
            obtain ⟨-, hmove⟩ := firstMoved?_eq_some hmoved
            rw [Option.toList_some, ← List.concat_eq_append]
            apply hpoints.concat
            intro hb
            exact hmove (by simpa using List.all_eq_true.mp hfixes b hb)
      · exact ih hpoints

/-- Only a list without generators leaves a base empty. -/
theorem eq_nil_of_completeBase_eq_nil {generators : List (Perm n)}
    (hne : ∀ g ∈ generators, g ≠ 1) {points : List Nat} (hpoints : points.Nodup)
    (h : completeBase generators points = []) : generators = [] := by
  cases generators with
  | nil => rfl
  | cons g generators =>
      have hstart := (completeBase_spec (g :: generators) hpoints).1
      rw [h, List.prefix_nil] at hstart
      subst hstart
      rw [completeBase_cons, List.all_nil, if_pos rfl, List.nil_append] at h
      cases hmoved : g.firstMoved? with
      | none =>
          exact absurd (firstMoved?_eq_none_iff.mp hmoved) (hne g List.mem_cons_self)
      | some b =>
          rw [hmoved] at h
          have hlonger := (completeBase_spec generators (List.nodup_singleton b)).1
          rw [Option.toList_some] at h
          rw [h, List.prefix_nil] at hlonger
          cases hlonger

/-! ## The first levels -/

theorem mem_levelsOn {generators : List (Perm n)} {points : List Nat} {level : Level n}
    (h : level ∈ levelsOn generators points) :
    level = .ofGenerators level.base level.generators ∧
      ∀ g ∈ level.generators, g ∈ generators := by
  induction points generalizing generators with
  | nil => simp [levelsOn] at h
  | cons b rest ih =>
      rw [levelsOn, List.mem_cons] at h
      rcases h with rfl | h
      · exact ⟨rfl, fun g hg => hg⟩
      · obtain ⟨heq, hsub⟩ := ih h
        exact ⟨heq, fun g hg => List.mem_of_mem_filter (hsub g hg)⟩

theorem nested_levelsOn (generators : List (Perm n)) (points : List Nat) :
    (levelsOn generators points).Pairwise Refines := by
  induction points generalizing generators with
  | nil => exact .nil
  | cons b rest ih =>
      rw [levelsOn]
      refine List.pairwise_cons.mpr ⟨?_, ih _⟩
      intro level hlevel
      refine generated_le.mpr fun g hg => ?_
      obtain ⟨hmem, hfix⟩ := List.mem_filter.mp ((mem_levelsOn hlevel).2 g hg)
      have hgb : g b = b := by simpa using hfix
      exact ⟨subset_generated hmem, hgb⟩

theorem base_levelsOn (generators : List (Perm n)) (points : List Nat) :
    (levelsOn generators points).map Level.base = points := by
  induction points generalizing generators with
  | nil => rfl
  | cons b rest ih =>
      rw [levelsOn, List.map_cons, ih]
      rfl

theorem layered_levelsOn {generators : List (Perm n)} {points : List Nat}
    (hpoints : points.Nodup) (hempty : points = [] → generators = []) :
    Layered points (generated generators) (levelsOn generators points) where
  orbits := by
    intro level hlevel
    rw [(mem_levelsOn hlevel).1]
    exact Level.isOrbitOf_ofGenerators _ _
  nested := nested_levelsOn generators points
  top := by
    cases points with
    | nil => rw [hempty rfl, generated_nil, levelsOn, topGroup]
    | cons b rest => rfl
  base := by rw [base_levelsOn]
  distinct := by rwa [base_levelsOn]
  added := by
    rw [base_levelsOn, List.drop_length]
    simp

/-! ## The finished chain -/

/-- The generators that count: neither identities nor repetitions. -/
theorem mem_distinct_generators {generators : List (Perm n)} {g : Perm n} :
    g ∈ distinctBy toList (generators.filter (!·.isIdentity)) ↔
      g ∈ generators ∧ g ≠ 1 := by
  rw [distinctBy_eq_eraseDups toList_injective, List.mem_eraseDups, List.mem_filter]
  simp [← isIdentity_iff]

theorem generated_distinct_generators (generators : List (Perm n)) :
    generated (distinctBy toList (generators.filter (!·.isIdentity))) =
      generated generators := by
  apply le_antisymm
  · exact generated_mono fun g hg => (mem_distinct_generators.mp hg).1
  · refine generated_le.mpr fun g hg => ?_
    by_cases hone : g = 1
    · rw [hone]
      exact Subgroup.one_mem _
    · exact subset_generated (mem_distinct_generators.mpr ⟨hg, hone⟩)

/-- The base of the levels that are to be verified at first. -/
def firstBase (generators : List (Perm n)) (points : List Nat) : List Nat :=
  completeBase (distinctBy toList (generators.filter (!·.isIdentity))) points.eraseDups

/-- The state in which the verification of a chain from generators starts. -/
def Verification.start (generators : List (Perm n)) (points : List Nat) : Verification n :=
  ⟨(levelsOn (distinctBy toList (generators.filter (!·.isIdentity)))
    (firstBase generators points)).reverse, []⟩

theorem Verification.levels_start (generators : List (Perm n)) (points : List Nat) :
    (start generators points).levels =
      levelsOn (distinctBy toList (generators.filter (!·.isIdentity)))
        (firstBase generators points) := by
  rw [levels, start, List.reverse_reverse, List.append_nil]

theorem Verification.base_start (generators : List (Perm n)) (points : List Nat) :
    (start generators points).levels.map Level.base = firstBase generators points := by
  rw [levels_start, base_levelsOn]

/-- The verification that a chain is built by starts with nested levels on the first base. -/
theorem Verification.valid_start (generators : List (Perm n)) (points : List Nat) :
    (start generators points).Valid (firstBase generators points) (generated generators) := by
  refine ⟨?_, ⊥, .nil⟩
  rw [levels_start, ← generated_distinct_generators]
  apply layered_levelsOn (completeBase_spec _ (eraseDups_nodup points)).2
  apply eq_nil_of_completeBase_eq_nil _ (eraseDups_nodup points)
  intro g hg
  exact (mem_distinct_generators.mp hg).2

/-- The chain built from generators is a stabilizer chain of the group that they
generate.  Its base starts with the given points and has no repetitions. -/
theorem ofGenerators_spec (generators : List (Perm n)) (points : List Nat) :
    IsChainOf (ofGenerators generators points).levels (generated generators) ∧
      points.eraseDups <+: (ofGenerators generators points).base ∧
      (ofGenerators generators points).base.Nodup := by
  obtain ⟨hchain, hfinal⟩ := (Verification.valid_start generators points).run
  have hstart := (completeBase_spec (distinctBy toList (generators.filter (!·.isIdentity)))
    (eraseDups_nodup points)).1
  exact ⟨hchain, hstart.trans hfinal.base, hfinal.distinct⟩

end Chain
end ProcessorSymmetry

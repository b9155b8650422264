import ProcessorSymmetry.Group.Level
import ProcessorSymmetry.Proofs.Distinct
import ProcessorSymmetry.Proofs.Perm.Group
import Mathlib.Data.List.Perm.Subperm

/-!
# Orbits of generated groups

The breadth-first walk of a level finds the orbit of its base point under the
group of its generators, each point once, together with a member of the group
that takes it back.  Schreier's lemma then says which members fix the base
point: those that the Schreier generators generate.
-/

namespace ProcessorSymmetry
namespace Level

open Perm

variable {n : Nat} {H K : Subgroup (Perm n)} {level deeper : Level n}

/-- The transversal of a level lists the orbit of its base point under `H`, with
members of `H` that take the points back. -/
structure IsOrbitOf (level : Level n) (H : Subgroup (Perm n)) : Prop where
  start : (level.base, 1) ∈ level.transversal
  nodup : level.orbit.Nodup
  back : ∀ x t, (x, t) ∈ level.transversal → t ∈ H ∧ t x = level.base
  complete : ∀ h ∈ H, h level.base ∈ level.orbit

theorem mem_orbit_iff_exists {x : Nat} :
    x ∈ level.orbit ↔ ∃ t, (x, t) ∈ level.transversal := by
  simp [orbit]

theorem mem_transversal_of_toBase? {x : Nat} {t : Perm n}
    (h : level.toBase? x = some t) : (x, t) ∈ level.transversal := by
  obtain ⟨past, rest, heq, -⟩ := List.lookup_eq_some_iff.mp h
  rw [heq]
  exact List.mem_append_right _ List.mem_cons_self

theorem toBase?_eq_none_iff {x : Nat} :
    level.toBase? x = none ↔ x ∉ level.orbit := by
  rw [toBase?, List.lookup_eq_none_iff, orbit, List.mem_map]
  constructor
  · rintro h ⟨entry, hentry, rfl⟩
    simpa using h entry hentry
  · intro h entry hentry
    rw [bne_iff_ne]
    rintro rfl
    exact h ⟨entry, hentry, rfl⟩

theorem exists_toBase? {x : Nat} (h : x ∈ level.orbit) :
    ∃ t, level.toBase? x = some t := by
  cases ht : level.toBase? x with
  | none => exact absurd h (toBase?_eq_none_iff.mp ht)
  | some t => exact ⟨t, rfl⟩

/-- A point outside of the domain has no image but itself, so that there are no more than
`n + 1` images of a point in any case. -/
theorem length_le_of_images {base : Nat} {points : List Nat} (hnodup : points.Nodup)
    (himages : ∀ x ∈ points, ∃ p : Perm n, p base = x) : points.length ≤ n + 1 := by
  have hsub : points.Subperm (base :: List.range n) := by
    apply List.subperm_of_subset hnodup
    intro x hx
    obtain ⟨p, rfl⟩ := himages x hx
    by_cases hlt : base < n
    · exact List.mem_cons_of_mem _ (List.mem_range.mpr (p.app_lt hlt))
    · rw [p.app_of_le (Nat.not_lt.mp hlt)]
      exact List.mem_cons_self
  simpa using hsub.length_le

namespace IsOrbitOf

theorem mem_orbit_iff (h : level.IsOrbitOf H) {x : Nat} :
    x ∈ level.orbit ↔ ∃ p ∈ H, p level.base = x := by
  constructor
  · intro hx
    obtain ⟨t, ht⟩ := mem_orbit_iff_exists.mp hx
    obtain ⟨htH, htx⟩ := h.back x t ht
    exact ⟨t⁻¹, H.inv_mem htH, by rw [inv_app_eq_iff, htx]⟩
  · rintro ⟨p, hp, rfl⟩
    exact h.complete p hp

theorem toBase?_spec (h : level.IsOrbitOf H) {x : Nat} {t : Perm n}
    (ht : level.toBase? x = some t) : t ∈ H ∧ t x = level.base :=
  h.back x t (mem_transversal_of_toBase? ht)

/-- The entries of a transversal are determined by their points. -/
theorem entry_eq (h : level.IsOrbitOf H) {x : Nat} {s t : Perm n}
    (hs : (x, s) ∈ level.transversal) (ht : (x, t) ∈ level.transversal) :
    s = t := by
  have hinj := List.inj_on_of_nodup_map h.nodup hs ht rfl
  exact congrArg Prod.snd hinj

theorem toBase?_eq_some_iff (h : level.IsOrbitOf H) {x : Nat} {t : Perm n} :
    level.toBase? x = some t ↔ (x, t) ∈ level.transversal :=
  lookup_eq_some_iff_mem h.nodup

theorem base_mem (h : level.IsOrbitOf H) : level.base ∈ level.orbit :=
  mem_orbit_iff_exists.mpr ⟨1, h.start⟩

theorem orbitLength_pos (h : level.IsOrbitOf H) : 0 < level.orbitLength :=
  List.length_pos_of_mem h.start

/-- A larger group has a larger orbit. -/
theorem orbit_subset (h : level.IsOrbitOf H) (hdeeper : deeper.IsOrbitOf K)
    (hbase : level.base = deeper.base) (hle : H ≤ K) :
    ∀ x ∈ level.orbit, x ∈ deeper.orbit := by
  intro x hx
  obtain ⟨p, hp, rfl⟩ := h.mem_orbit_iff.mp hx
  rw [hbase]
  exact hdeeper.complete p (hle hp)

theorem orbitLength_le (h : level.IsOrbitOf H) (hdeeper : deeper.IsOrbitOf K)
    (hbase : level.base = deeper.base) (hle : H ≤ K) :
    level.orbitLength ≤ deeper.orbitLength := by
  have hsub := List.subperm_of_subset h.nodup (h.orbit_subset hdeeper hbase hle)
  simpa [orbit, orbitLength] using hsub.length_le

theorem orbitLength_lt (h : level.IsOrbitOf H) (hdeeper : deeper.IsOrbitOf K)
    (hbase : level.base = deeper.base) (hle : H ≤ K)
    {x : Nat} (hx : x ∈ deeper.orbit) (hnew : x ∉ level.orbit) :
    level.orbitLength < deeper.orbitLength := by
  have hsub : (x :: level.orbit).Subperm deeper.orbit := by
    apply List.subperm_of_subset (List.nodup_cons.mpr ⟨hnew, h.nodup⟩)
    intro y hy
    rcases List.mem_cons.mp hy with rfl | hy
    · exact hx
    · exact h.orbit_subset hdeeper hbase hle y hy
  simpa [orbit, orbitLength] using hsub.length_le

theorem orbitLength_bound (h : level.IsOrbitOf H) : level.orbitLength ≤ n + 1 := by
  have himages : ∀ x ∈ level.orbit, ∃ p : Perm n, p level.base = x := by
    intro x hx
    obtain ⟨p, -, hpx⟩ := h.mem_orbit_iff.mp hx
    exact ⟨p, hpx⟩
  simpa [orbit, orbitLength] using length_le_of_images h.nodup himages

end IsOrbitOf

/-! ## The walk -/

/-- The points found are distinct and have their ways back to `base`. -/
structure WaysBack (base : Nat) (generators : List (Perm n)) (found : List (Nat × Perm n)) :
    Prop where
  nodup : (found.map Prod.fst).Nodup
  back : ∀ x t, (x, t) ∈ found → t ∈ generated generators ∧ t x = base

/-- What holds of a walk from `base` at any time: the points found have their
ways back, and those visited lead to found ones only. -/
structure Walked (base : Nat) (generators : List (Perm n))
    (state : Nat × List (Nat × Perm n)) : Prop extends WaysBack base generators state.2 where
  start : (base, 1) ∈ state.2
  visited_le : state.1 ≤ state.2.length
  closed : ∀ entry ∈ state.2.take state.1, ∀ g ∈ generators,
    g entry.1 ∈ state.2.map Prod.fst

theorem meet_eq (entry : Nat × Perm n) (found : List (Nat × Perm n)) (g : Perm n) :
    (g entry.1 ∈ found.map Prod.fst ∧ meet entry found g = found) ∨
      g entry.1 ∉ found.map Prod.fst ∧
        meet entry found g = found ++ [(g entry.1, g⁻¹ * entry.2)] := by
  have hany : found.any (·.1 == g entry.1) = true ↔ g entry.1 ∈ found.map Prod.fst := by
    simp
  by_cases h : g entry.1 ∈ found.map Prod.fst
  · exact .inl ⟨h, by rw [meet, if_pos (hany.mpr h)]⟩
  · exact .inr ⟨h, by rw [meet, if_neg (mt hany.mp h)]⟩

/-- Meeting an image of a point adds the image with its way back, unless it has been found. -/
theorem WaysBack.meet {base : Nat} {generators : List (Perm n)} {entry : Nat × Perm n}
    {found : List (Nat × Perm n)} (h : WaysBack base generators found)
    (hentry : entry.2 ∈ generated generators ∧ entry.2 entry.1 = base) {g : Perm n}
    (hg : g ∈ generators) :
    ∃ new, Level.meet entry found g = found ++ new ∧ WaysBack base generators (found ++ new) ∧
      g entry.1 ∈ (found ++ new).map Prod.fst := by
  rcases meet_eq entry found g with ⟨hmem, heq⟩ | ⟨hmem, heq⟩
  · refine ⟨[], heq.trans (List.append_nil _).symm, ?_, ?_⟩
    · rwa [List.append_nil]
    · rwa [List.append_nil]
  · refine ⟨_, heq, ⟨?_, ?_⟩, by simp⟩
    · rw [List.map_append, List.map_singleton, ← List.concat_eq_append]
      exact h.nodup.concat hmem
    · intro x t ht
      rcases List.mem_append.mp ht with ht | ht
      · exact h.back x t ht
      · obtain ⟨rfl, rfl⟩ := Prod.mk.inj (List.mem_singleton.mp ht)
        have hinv := Subgroup.inv_mem _ (subset_generated hg)
        refine ⟨Subgroup.mul_mem _ hinv hentry.1, ?_⟩
        rw [mul_app, inv_app_app, hentry.2]

/-- Meeting the images of a point under some generators leaves no image out. -/
theorem WaysBack.foldl_meet {base : Nat} {generators : List (Perm n)} {entry : Nat × Perm n}
    {found : List (Nat × Perm n)} (h : WaysBack base generators found)
    (hentry : entry.2 ∈ generated generators ∧ entry.2 entry.1 = base)
    (gs : List (Perm n)) (hgs : ∀ g ∈ gs, g ∈ generators) :
    ∃ new, gs.foldl (Level.meet entry) found = found ++ new ∧
      WaysBack base generators (found ++ new) ∧
      ∀ g ∈ gs, g entry.1 ∈ (found ++ new).map Prod.fst := by
  induction gs generalizing found with
  | nil =>
      rw [← List.append_nil found] at h
      exact ⟨[], (List.append_nil _).symm, h, by simp⟩
  | cons g gs ih =>
      obtain ⟨hg, hrest⟩ := List.forall_mem_cons.mp hgs
      obtain ⟨first, hfirst, hways, himage⟩ := h.meet hentry hg
      obtain ⟨new, hnew, hways', hall⟩ := ih hways hrest
      rw [List.append_assoc] at hnew hways' hall
      refine ⟨first ++ new, ?_, hways', ?_⟩
      · rw [List.foldl_cons, hfirst, hnew]
      · rw [List.forall_mem_cons]
        refine ⟨?_, hall⟩
        rw [← List.append_assoc, List.map_append]
        exact List.mem_append_left _ himage

theorem Walked.visit {base : Nat} {generators : List (Perm n)}
    {state next : Nat × List (Nat × Perm n)} (h : Walked base generators state)
    (hnext : visit? generators state = some next) :
    Walked base generators next ∧ next.1 = state.1 + 1 ∧ state.1 < state.2.length := by
  obtain ⟨visited, found⟩ := state
  obtain ⟨entry, hentry, rfl⟩ := Option.map_eq_some_iff.mp hnext
  obtain ⟨hlt, hget⟩ := List.getElem?_eq_some_iff.mp hentry
  obtain ⟨new, hnew, hways, hall⟩ :=
    h.toWaysBack.foldl_meet (h.back _ _ (List.mem_of_getElem? hentry)) generators
      fun _ hg => hg
  refine ⟨⟨?_, ?_, ?_, ?_⟩, rfl, hlt⟩
  · rwa [hnew]
  · rw [hnew]
    exact List.mem_append_left _ h.start
  · rw [hnew, List.length_append]
    exact Nat.le_trans hlt (Nat.le_add_right _ _)
  · -- The points visited before keep their images, and the new one has just met its own.
    rw [hnew]
    intro e he g hg
    rw [List.take_append_of_le_length hlt, List.take_succ_eq_append_getElem hlt] at he
    rcases List.mem_append.mp he with he | he
    · rw [List.map_append]
      exact List.mem_append_left _ (h.closed e he g hg)
    · rw [List.mem_singleton.mp he, hget]
      exact hall g hg

theorem walked_start (base : Nat) (generators : List (Perm n)) :
    Walked base generators (0, [(base, 1)]) where
  start := List.mem_cons_self
  nodup := by simp
  back := by
    intro x t ht
    obtain ⟨rfl, rfl⟩ := Prod.mk.inj (List.mem_singleton.mp ht)
    exact ⟨Subgroup.one_mem _, one_app _⟩
  visited_le := Nat.zero_le _
  closed := by simp

theorem Walked.length_le {base : Nat} {generators : List (Perm n)}
    {state : Nat × List (Nat × Perm n)} (h : Walked base generators state) :
    state.2.length ≤ n + 1 := by
  have himages : ∀ x ∈ state.2.map Prod.fst, ∃ p : Perm n, p base = x := by
    intro x hx
    obtain ⟨⟨y, t⟩, ht, rfl⟩ := List.mem_map.mp hx
    exact ⟨t⁻¹, (inv_app_eq_iff t).mpr (h.back y t ht).2.symm⟩
  simpa using length_le_of_images h.nodup himages

/-- The walk ends because every point found has been visited. -/
theorem walked_exhaust (base : Nat) (generators : List (Perm n)) :
    let final := exhaust (visit? generators) (n + 1) (0, [(base, 1)])
    Walked base generators final ∧ final.1 = final.2.length := by
  intro final
  have hwalked : Walked base generators final := by
    apply exhaust_induction (P := Walked base generators)
    · intro s t hs hst
      exact (hs.visit hst).1
    · exact walked_start base generators
  have hdone : visit? generators final = none := by
    apply step_exhaust (P := Walked base generators)
      (μ := fun state : Nat × List (Nat × Perm n) => n + 1 - state.1)
    · intro s t hs hst
      obtain ⟨ht, hvisited, hlt⟩ := hs.visit hst
      have hlength := hs.length_le
      exact ⟨ht, by omega⟩
    · exact walked_start base generators
    · simp
  have hget : final.2[final.1]? = none := by simpa [visit?] using hdone
  exact ⟨hwalked, Nat.le_antisymm hwalked.visited_le (List.getElem?_eq_none_iff.mp hget)⟩

/-- With more room the walk would not go on: it has visited the whole orbit. -/
theorem exhaust_visit?_eq (base : Nat) (generators : List (Perm n)) {bound : Nat}
    (hbound : n < bound) :
    exhaust (visit? generators) bound (0, [(base, 1)]) =
      ((ofGenerators base generators).orbitLength,
        (ofGenerators base generators).transversal) := by
  obtain ⟨-, hvisited⟩ := walked_exhaust base generators
  rw [exhaust_eq_of_le _ hbound]
  · exact Prod.ext hvisited rfl
  · rw [visit?, hvisited, List.getElem?_length]
    rfl

/-- The walk of a level finds the orbit of its base point. -/
theorem isOrbitOf_ofGenerators (base : Nat) (generators : List (Perm n)) :
    (ofGenerators base generators).IsOrbitOf (generated generators) := by
  obtain ⟨hwalked, hvisited⟩ := walked_exhaust base generators
  refine ⟨hwalked.start, hwalked.nodup, hwalked.back, ?_⟩
  intro h hh
  refine generated_induction
    (P := fun p => p base ∈ (ofGenerators base generators).orbit) ?_ ?_ hh
  · rw [one_app]
    exact mem_orbit_iff_exists.mpr ⟨1, hwalked.start⟩
  · intro p hp g hg
    obtain ⟨t, ht⟩ := mem_orbit_iff_exists.mp hp
    rw [mul_app]
    apply hwalked.closed (p base, t) _ g hg
    rw [hvisited, List.take_length]
    exact ht

theorem foldl_meet_head? (gs : List (Perm n)) (entry first : Nat × Perm n)
    {found : List (Nat × Perm n)} (h : found.head? = some first) :
    (gs.foldl (Level.meet entry) found).head? = some first := by
  induction gs generalizing found with
  | nil => exact h
  | cons g gs ih =>
      rw [List.foldl_cons]
      apply ih
      rcases meet_eq entry found g with ⟨-, heq⟩ | ⟨-, heq⟩
      · rwa [heq]
      · rw [heq, List.head?_append, h]
        rfl

/-- A walk begins with its base point. -/
theorem head?_transversal_ofGenerators (base : Nat) (generators : List (Perm n)) :
    (ofGenerators base generators).transversal.head? = some (base, 1) := by
  refine exhaust_induction
    (P := fun state : Nat × List (Nat × Perm n) => state.2.head? = some (base, 1))
    (fun s t hs hst => ?_) (n + 1) rfl
  obtain ⟨visited, found⟩ := s
  obtain ⟨entry, -, rfl⟩ := Option.map_eq_some_iff.mp hst
  exact foldl_meet_head? generators entry (base, 1) hs

/-! ## Schreier's lemma -/

/-- A Schreier generator belongs to the group of the level and fixes the base point. -/
theorem IsOrbitOf.schreierGenerator?_mem (h : level.IsOrbitOf H)
    {entry : Nat × Perm n} (hentry : entry ∈ level.transversal)
    {g s : Perm n} (hg : g ∈ H) (hs : level.schreierGenerator? entry g = some s) :
    s ∈ H ⊓ fixing level.base := by
  obtain ⟨back, hback, rfl⟩ := Option.map_eq_some_iff.mp hs
  obtain ⟨hbackH, hbackx⟩ := h.toBase?_spec hback
  obtain ⟨htH, htx⟩ := h.back entry.1 entry.2 hentry
  refine ⟨H.mul_mem (H.mul_mem (H.inv_mem htH) hg) hbackH, ?_⟩
  change (entry.2⁻¹ * g * back) level.base = level.base
  rw [mul_app, mul_app, ← htx, inv_app_app, hbackx, htx]

/-- Every member takes the base point where some member of `K` followed by the
way to an orbit point takes it, if `K` contains all Schreier generators. -/
theorem IsOrbitOf.exists_eq_mul (h : level.IsOrbitOf (generated level.generators))
    (hK : ∀ entry ∈ level.transversal, ∀ g ∈ level.generators, ∀ s,
      level.schreierGenerator? entry g = some s → s ∈ K)
    {p : Perm n} (hp : p ∈ generated level.generators) :
    ∃ k ∈ K, ∃ x t, (x, t) ∈ level.transversal ∧ p = k * t⁻¹ := by
  refine generated_induction
    (P := fun p => ∃ k ∈ K, ∃ x t, (x, t) ∈ level.transversal ∧ p = k * t⁻¹) ?_ ?_ hp
  · exact ⟨1, K.one_mem, level.base, 1, h.start, by simp⟩
  · rintro q ⟨k, hk, x, t, ht, rfl⟩ g hg
    have hgx : g x ∈ level.orbit := by
      obtain ⟨r, hr, hrx⟩ := h.mem_orbit_iff.mp (mem_orbit_iff_exists.mpr ⟨t, ht⟩)
      rw [← hrx, ← mul_app]
      exact h.complete _ (Subgroup.mul_mem _ hr (subset_generated hg))
    obtain ⟨back, hback⟩ := exists_toBase? hgx
    have hschreier : t⁻¹ * g * back ∈ K := by
      apply hK (x, t) ht g hg
      rw [schreierGenerator?, hback, Option.map_some]
    refine ⟨k * (t⁻¹ * g * back), K.mul_mem hk hschreier, g x, back,
      mem_transversal_of_toBase? hback, ?_⟩
    simp only [mul_assoc, mul_inv_cancel, mul_one]

/-- A subgroup that fixes the base point and contains all Schreier generators
contains every member that fixes the base point. -/
theorem IsOrbitOf.inf_fixing_le (h : level.IsOrbitOf (generated level.generators))
    (hfix : K ≤ fixing level.base)
    (hK : ∀ entry ∈ level.transversal, ∀ g ∈ level.generators, ∀ s,
      level.schreierGenerator? entry g = some s → s ∈ K) :
    generated level.generators ⊓ fixing level.base ≤ K := by
  rintro p ⟨hp, hpb⟩
  obtain ⟨k, hk, x, t, ht, rfl⟩ := h.exists_eq_mul hK hp
  have hkb : k level.base = level.base := hfix hk
  have hx : x = level.base := by
    have hpb' : (k * t⁻¹) level.base = level.base := hpb
    rw [mul_app, hkb, inv_app_eq_iff] at hpb'
    apply t.app_injective
    rw [(h.back x t ht).2]
    exact hpb'
  subst hx
  rw [h.entry_eq ht h.start]
  simpa using hk

end Level
end ProcessorSymmetry

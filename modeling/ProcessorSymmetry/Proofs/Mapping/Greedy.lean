import ProcessorSymmetry.Mapping.Representative
import ProcessorSymmetry.Proofs.Group.StabilizerChain
import ProcessorSymmetry.Proofs.Mapping.Orbit

/-!
# The greedy search

On a stabilizer chain the base points can be given their least images one after
the other: a choice on a later level never disturbs the images of earlier base
points.  If the base starts with the processors of a mapping, this makes the
whole mapping least, however often its processors occur in it.
-/

namespace ProcessorSymmetry

open Perm Chain

variable {n : Nat} {H : Subgroup (Perm n)} {level : Level n} {levels : List (Level n)}

/-! ## One level -/

theorem Level.IsOrbitOf.leastPoint_spec (h : level.IsOrbitOf H) (s : Perm n) :
    level.leastPoint s ∈ level.orbit ∧
      ∀ p ∈ H, s (level.leastPoint s) ≤ (p * s) level.base := by
  obtain ⟨hmem, hleast⟩ := foldl_least_of_mem (fun x => s x) h.base_mem
  constructor
  · exact hmem
  · intro p hp
    rw [mul_app]
    exact hleast _ (h.complete p hp)

/-- The representative that the search multiplies with takes the base point to
the orbit point with the least image. -/
theorem Level.IsOrbitOf.leastRepresentative_spec (h : level.IsOrbitOf H) (s : Perm n) :
    let u := (level.representative? (level.leastPoint s)).getD 1
    u ∈ H ∧ u level.base = level.leastPoint s := by
  obtain ⟨t, ht⟩ := exists_toBase? (h.leastPoint_spec s).1
  obtain ⟨htH, htx⟩ := h.toBase?_spec ht
  rw [representative?, ht, Option.map_some, Option.getD_some]
  exact ⟨H.inv_mem htH, by rw [inv_app_eq_iff, htx]⟩

/-! ## All levels -/

/-- Whatever is known, the search multiplies by a member from the left. -/
theorem Chain.IsChainOf.greedyElement_eq_mul (h : IsChainOf levels H)
    (known : TaskMapping → Bool) (mapping : TaskMapping) (k : Nat) (s : Perm n) :
    ∃ g ∈ H, greedyElement known mapping (levels.take k) s = g * s := by
  induction h generalizing k s with
  | nil => exact ⟨1, Subgroup.one_mem _, by simp [greedyElement]⟩
  | @cons level deeper H orbit _ rest ih =>
      cases k with
      | zero => exact ⟨1, H.one_mem, by simp [greedyElement]⟩
      | succ k =>
          rw [List.take_succ_cons, greedyElement]
          split
          · exact ⟨1, H.one_mem, by simp⟩
          · obtain ⟨hu, -⟩ := orbit.leastRepresentative_spec s
            obtain ⟨g, hg, heq⟩ := ih k
              ((level.representative? (level.leastPoint s)).getD 1 * s)
            exact ⟨_, H.mul_mem hg.1 hu, by rw [heq, mul_assoc]⟩

/-- If nothing is known, the list of base points gets its least image. -/
theorem Chain.IsChainOf.greedyElement_least (h : IsChainOf levels H)
    {known : TaskMapping → Bool} (hknown : ∀ image, known image = false)
    (mapping : TaskMapping) (k : Nat) (s : Perm n) {p : Perm n} (hp : p ∈ H) :
    ((levels.take k).map Level.base).map (greedyElement known mapping (levels.take k) s) ≤
      ((levels.take k).map Level.base).map (p * s) := by
  induction h generalizing k s p with
  | nil => simp
  | @cons level deeper H orbit _ rest ih =>
      cases k with
      | zero => simp
      | succ k =>
          let u := (level.representative? (level.leastPoint s)).getD 1
          obtain ⟨hu, hub⟩ : u ∈ H ∧ u level.base = level.leastPoint s :=
            orbit.leastRepresentative_spec s
          have hnext : greedyElement known mapping ((level :: deeper).take (k + 1)) s =
              greedyElement known mapping (deeper.take k) (u * s) := by
            rw [List.take_succ_cons, greedyElement, hknown]
            rfl
          -- Deeper levels fix the base point, which keeps the image that it has now.
          obtain ⟨g, hg, hdeeper⟩ := rest.greedyElement_eq_mul known mapping k (u * s)
          have hgb : g level.base = level.base := hg.2
          have himage : greedyElement known mapping (deeper.take k) (u * s) level.base =
              s (level.leastPoint s) := by
            rw [hdeeper, mul_app, mul_app, hgb, hub]
          rw [hnext, List.take_succ_cons, List.map_cons, List.map_cons, List.map_cons, himage]
          rcases ((orbit.leastPoint_spec s).2 p hp).lt_or_eq with hlt | heq
          · exact (List.cons_lt_cons_iff.mpr (.inl hlt)).le
          · have hpb : (p * u⁻¹) level.base = level.base := by
              rw [mul_app] at heq
              rw [mul_app, inv_app_eq_iff, hub]
              exact (s.app_injective heq).symm
            have hrest := ih k (u * s) (p := p * u⁻¹) ⟨H.mul_mem hp (H.inv_mem hu), hpb⟩
            rw [mul_assoc, inv_mul_cancel_left] at hrest
            rw [heq]
            exact List.cons_le_cons _ hrest

/-- The search makes the choices that it makes when nothing is known, until the
image of the mapping is known. -/
theorem known_or_greedyElement_eq (known : TaskMapping → Bool) (mapping : TaskMapping)
    (levels : List (Level n)) (s : Perm n) :
    known ((greedyElement known mapping levels s).permute mapping) = true ∨
      greedyElement known mapping levels s =
        greedyElement (fun _ => false) mapping levels s := by
  induction levels generalizing s with
  | nil => exact .inr rfl
  | cons level deeper ih =>
      rw [greedyElement, greedyElement]
      split
      · exact .inl ‹_›
      · exact ih _

/-! ## Repeated processors -/

theorem cons_le_cons_iff_of_linear {x y : Nat} {xs ys : List Nat} :
    x :: xs ≤ y :: ys ↔ x < y ∨ x = y ∧ xs ≤ ys := by
  rw [← not_lt, ← not_lt, List.cons_lt_cons_iff]
  constructor
  · intro h
    rcases lt_trichotomy x y with hlt | rfl | hgt
    · exact .inl hlt
    · exact .inr ⟨rfl, fun hlt => h (.inr ⟨rfl, hlt⟩)⟩
    · exact absurd (.inl hgt) h
  · rintro (hlt | ⟨rfl, hle⟩) (hgt | ⟨heq, hlt⟩)
    · omega
    · omega
    · omega
    · exact hle hlt

/-- Entries with equal images on both sides do not matter for the order. -/
theorem map_le_map_of_filter {f g : Nat → Nat} (keep : Nat → Bool)
    (hdrop : ∀ y, keep y = false → f y = g y) {entries : List Nat}
    (h : (entries.filter keep).map f ≤ (entries.filter keep).map g) :
    entries.map f ≤ entries.map g := by
  induction entries with
  | nil => simp
  | cons y rest ih =>
      rw [List.map_cons, List.map_cons]
      by_cases hy : keep y = true
      · rw [List.filter_cons_of_pos hy, List.map_cons, List.map_cons] at h
        rcases cons_le_cons_iff_of_linear.mp h with hlt | ⟨heq, hle⟩
        · exact cons_le_cons_iff_of_linear.mpr (.inl hlt)
        · exact cons_le_cons_iff_of_linear.mpr (.inr ⟨heq, ih hle⟩)
      · rw [List.filter_cons_of_neg hy] at h
        rw [hdrop y (Bool.eq_false_of_not_eq_true hy)]
        exact List.cons_le_cons _ (ih h)

/-- Images compare as they do without the repetitions. -/
theorem map_le_map_of_eraseDups {f g : Nat → Nat} (entries : List Nat)
    (h : entries.eraseDups.map f ≤ entries.eraseDups.map g) :
    entries.map f ≤ entries.map g := by
  match entries with
  | [] => simp
  | x :: rest =>
      rw [List.eraseDups_cons, List.map_cons, List.map_cons] at h
      rw [List.map_cons, List.map_cons]
      rcases cons_le_cons_iff_of_linear.mp h with hlt | ⟨heq, hle⟩
      · exact cons_le_cons_iff_of_linear.mpr (.inl hlt)
      · have hfilter := map_le_map_of_eraseDups _ hle
        refine cons_le_cons_iff_of_linear.mpr (.inr ⟨heq, map_le_map_of_filter _ ?_ hfilter⟩)
        intro y hy
        rw [show y = x by simpa using hy, heq]
termination_by entries.length
decreasing_by exact Nat.lt_succ_of_le (List.length_filter_le _ _)

/-- The greedy image of a mapping is least if the chain starts with its processors. -/
theorem Chain.IsChainOf.permute_greedyElement_least (h : IsChainOf levels H)
    {known : TaskMapping → Bool} (hknown : ∀ image, known image = false)
    {mapping : TaskMapping} (hbase : mapping.eraseDups <+: levels.map Level.base)
    {p : Perm n} (hp : p ∈ H) :
    (greedyElement known mapping (levels.take mapping.eraseDups.length) 1).permute mapping ≤
      p.permute mapping := by
  have hpoints : (levels.take mapping.eraseDups.length).map Level.base =
      mapping.eraseDups := by
    rw [List.map_take]
    exact (List.prefix_iff_eq_take.mp hbase).symm
  have hleast := h.greedyElement_least hknown mapping mapping.eraseDups.length 1 hp
  rw [hpoints, mul_one] at hleast
  exact map_le_map_of_eraseDups mapping hleast

end ProcessorSymmetry

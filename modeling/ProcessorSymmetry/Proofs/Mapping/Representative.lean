import ProcessorSymmetry.Proofs.Group.Membership
import ProcessorSymmetry.Proofs.Mapping.Greedy

/-!
# Representatives are least images

The greedy search and the walk through the orbit answer with the same mapping:
the lexicographically least image under the members of the group.
-/

namespace ProcessorSymmetry

open Perm

/-! ## Numbering from an offset -/

theorem raise_le_raise {offset : Nat} {a b : TaskMapping} (h : a ≤ b) :
    raise offset a ≤ raise offset b := by
  induction a generalizing b with
  | nil => exact not_lt.mp (List.not_lt_nil _)
  | cons x xs ih =>
      cases b with
      | nil => exact absurd (List.nil_lt_cons x xs) (not_lt.mpr h)
      | cons y ys =>
          rw [raise, raise, List.map_cons, List.map_cons]
          rcases cons_le_cons_iff_of_linear.mp h with hlt | ⟨rfl, hle⟩
          · exact cons_le_cons_iff_of_linear.mpr (.inl (Nat.add_lt_add_right hlt offset))
          · exact cons_le_cons_iff_of_linear.mpr (.inr ⟨rfl, ih hle⟩)

theorem toProcessors_raise {degree offset : Nat} {processors : TaskMapping}
    (h : ∀ x ∈ processors, x < degree) :
    toProcessors degree offset (raise offset processors) = .ok processors := by
  apply mapM_map_eq_ok
  intro x hx
  rw [Nat.add_sub_cancel, if_pos ⟨Nat.le_add_left offset x, h x hx⟩]

namespace PermGroup

variable {G : PermGroup} {known : TaskMapping → Bool} {mapping : TaskMapping}

/-! ## The two searches -/

/-- What a search may end with that stops at known images: an image that is known,
or else the least one. -/
structure KnownOrLeast (known : TaskMapping → Bool) (images : Set TaskMapping)
    (image : TaskMapping) : Prop where
  mem : image ∈ images
  least : known image = true ∨ image ∈ lowerBounds images

theorem KnownOrLeast.isLeast {images : Set TaskMapping} {image : TaskMapping}
    (h : KnownOrLeast known images image)
    (hknown : ∀ image ∈ images, known image = true → IsLeast images image) :
    IsLeast images image := by
  rcases h.least with hstopped | hleast
  · exact hknown image h.mem hstopped
  · exact ⟨h.mem, hleast⟩

/-- Whatever is known, the greedy search does not fail for processors of the group. -/
theorem exists_greedyImage_knownOrLeast (known : TaskMapping → Bool)
    (hmapping : ∀ x ∈ mapping, x < G.degree) :
    ∃ image, G.greedyImage known mapping = .ok image ∧
      KnownOrLeast known (imagesUnder G.members mapping) image := by
  by_cases htrivial : G.isTrivial = true
  · refine ⟨mapping, ?_, self_mem_imagesUnder, .inr ?_⟩
    · rw [greedyImage, if_pos htrivial]
      rfl
    · rintro image ⟨g, hg, rfl⟩
      rw [members_eq_bot G htrivial, Subgroup.mem_bot] at hg
      rw [hg, permute_one]
  · have hpoints : ∀ x ∈ mapping.eraseDups, x < G.degree := fun x hx =>
      hmapping x (List.mem_eraseDups.mp hx)
    obtain ⟨c, hc, hchain, hbase⟩ := G.exists_chainWithBase hpoints
    rw [eraseDups_of_nodup (eraseDups_nodup mapping)] at hbase
    let levels := c.levels.take mapping.eraseDups.length
    refine ⟨(greedyElement known mapping levels 1).permute mapping, ?_, ?_, ?_⟩
    · rw [greedyImage, if_neg htrivial]
      simp only [hc]
      rfl
    · obtain ⟨g, hg, heq⟩ := hchain.greedyElement_eq_mul known mapping
        mapping.eraseDups.length 1
      exact ⟨g, hg, by rw [← mul_one g, ← heq]⟩
    · refine (known_or_greedyElement_eq known mapping levels 1).imp_right fun heq => ?_
      rintro image ⟨g, hg, rfl⟩
      rw [heq]
      exact hchain.permute_greedyElement_least (fun _ => rfl) hbase hg

theorem exists_greedyImage (hmapping : ∀ x ∈ mapping, x < G.degree)
    (hknown : ∀ image, known image = false) :
    ∃ least, G.greedyImage known mapping = .ok least ∧
      IsLeast (imagesUnder G.members mapping) least := by
  obtain ⟨image, hgreedy, himage⟩ := exists_greedyImage_knownOrLeast known hmapping
  refine ⟨image, hgreedy, himage.isLeast fun image _ hstop => ?_⟩
  rw [hknown] at hstop
  cases hstop

/-- Whatever is known, the walk through the orbit stops at a known image or finds
the least one. -/
theorem knownOrLeast_orbitMinimum (known : TaskMapping → Bool)
    (hmapping : ∀ x ∈ mapping, x < G.degree) :
    KnownOrLeast known (imagesUnder G.members mapping) (G.orbitMinimum known mapping) := by
  let walk := (OrbitWalk.start mapping).run G.generators known
    (mappingCount G.degree mapping.length)
  have hstart := OrbitWalk.explored_start G.generators mapping
  have hwalk : walk.Explored G.generators mapping := hstart.run known _
  have hends := hstart.run_ends hmapping known (Nat.le_add_left _ _)
  change walk.found[walk.visited]? = none ∨ _ at hends
  cases hcurrent : walk.found[walk.visited]? with
  | some stopped =>
      have hminimum : G.orbitMinimum known mapping = stopped := by
        rw [orbitMinimum]
        simp only [walk] at hcurrent
        simp only [hcurrent]
      have hmem : stopped ∈ walk.found.toList := by
        rw [← Array.getElem?_toList] at hcurrent
        exact List.mem_of_getElem? hcurrent
      rw [hminimum]
      refine ⟨hwalk.images _ hmem, .inl ?_⟩
      rcases hends with hdone | ⟨image, himage, hstop⟩
      · rw [hcurrent] at hdone
        cases hdone
      · obtain rfl : stopped = image := Option.some.inj (hcurrent.symm.trans himage)
        exact hstop
  | none =>
      have hminimum : G.orbitMinimum known mapping =
          walk.found.toList.foldl (fun least image => if image < least then image else least)
            mapping := by
        rw [Array.foldl_toList, orbitMinimum]
        simp only [walk] at hcurrent
        simp only [hcurrent]
        rfl
      obtain ⟨hmem, hleast⟩ := foldl_least_of_mem id hwalk.start
      rw [hminimum]
      refine ⟨hwalk.images _ hmem, .inr fun image himage => ?_⟩
      exact hleast image ((hwalk.mem_found_iff hcurrent).mpr himage)

theorem isLeast_orbitMinimum (hmapping : ∀ x ∈ mapping, x < G.degree)
    (hknown : ∀ image, known image = false) :
    IsLeast (imagesUnder G.members mapping) (G.orbitMinimum known mapping) := by
  refine (knownOrLeast_orbitMinimum known hmapping).isLeast fun image _ hstop => ?_
  rw [hknown] at hstop
  cases hstop

/-! ## Representatives -/

/-- Without the treatment of symmetric ranges, the greedy search and the walk
through the orbit find the same representative.  It is the lexicographically
least image of the mapping under the members of the group. -/
theorem exists_representative_isLeast (G : PermGroup) (options : SearchOptions)
    {processors : TaskMapping} (hprocessors : ∀ x ∈ processors, x < G.degree) :
    ∃ least,
      G.representative (raise options.offset processors)
        { options with method := .greedy, useSymmetricRange := false } = .ok least ∧
      G.representative (raise options.offset processors)
        { options with method := .orbit, useSymmetricRange := false } = .ok least ∧
      IsLeast {image | ∃ g ∈ G.members,
        raise options.offset (g.permute processors) = image} least := by
  have hunknown : ∀ image : TaskMapping, (fun _ => false) image = false := fun _ => rfl
  obtain ⟨least, hgreedy, hleast⟩ := exists_greedyImage hprocessors hunknown
  have horbit := hleast.unique (isLeast_orbitMinimum hprocessors fun _ => rfl)
  refine ⟨raise options.offset least, ?_, ?_, ?_, ?_⟩
  · rw [representative, searchKnown, toProcessors_raise hprocessors]
    simp only [bind, Except.bind]
    rw [hgreedy]
    rfl
  · rw [representative, searchKnown, toProcessors_raise hprocessors, horbit]
    rfl
  · obtain ⟨g, hg, heq⟩ := hleast.1
    exact ⟨g, hg, by rw [heq]⟩
  · rintro image ⟨g, hg, rfl⟩
    exact raise_le_raise (hleast.2 ⟨g, hg, rfl⟩)

theorem representative_isLeast_swap :
    (∀ x ∈ [2, 1, 2], x < (generatedBy [swap 3 0 2]).degree) ∧
      (generatedBy [swap 3 0 2]).representative [2, 1, 2]
        { method := .greedy, useSymmetricRange := false } = .ok [0, 1, 0] ∧
      (generatedBy [swap 3 0 2]).representative [2, 1, 2]
        { method := .orbit, useSymmetricRange := false } = .ok [0, 1, 0] ∧
      IsLeast {image | ∃ g ∈ (generatedBy [swap 3 0 2]).members,
        raise 0 (g.permute [2, 1, 2]) = image} [0, 1, 0] := by
  have hprocessors : ∀ x ∈ [2, 1, 2], x < (generatedBy [swap 3 0 2]).degree := by decide
  obtain ⟨least, hgreedy, horbit, hleast⟩ :=
    exists_representative_isLeast (generatedBy [swap 3 0 2]) {} hprocessors
  obtain rfl : [0, 1, 0] = least := Except.ok.inj horbit
  exact ⟨hprocessors, hgreedy, horbit, hleast⟩

end PermGroup
end ProcessorSymmetry

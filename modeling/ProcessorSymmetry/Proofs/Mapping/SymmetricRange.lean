import ProcessorSymmetry.Proofs.Mapping.SearchBeside

/-!
# Symmetric ranges without a search

On a group that is symmetric on a range, the processors of the range are numbered
from its start on in the order of their first occurrence, without looking at the
group again.  Every number given lies in the range, and the result is the least
image.  Hence an exact search answers the same with or without this treatment.
-/

namespace ProcessorSymmetry

open Perm

variable {first last : Nat} {mapping : TaskMapping}

/-! ## The numbers that are given -/

/-- The processors of the range get the numbers from its start on, in the order of
their first occurrence and none of them outside of the range.  All others stay. -/
structure IsNumberedInOrder (first last : Nat) (mapping image : TaskMapping)
    (number : Nat → Nat) : Prop where
  image_eq : image = mapping.map number
  numbers_eq : (occurring first last mapping).map number =
    List.range' first (occurring first last mapping).length
  inside : ∀ x, first ≤ x ∧ x < last → first ≤ number x ∧ number x < last
  outside : ∀ x, ¬(first ≤ x ∧ x < last) → number x = x

theorem isNumberedInOrder_relabel (first last : Nat) (mapping : TaskMapping) :
    IsNumberedInOrder first last mapping (relabel first last mapping)
      (numberOf first last mapping) where
  image_eq := relabel_eq_map_numberOf first last mapping
  numbers_eq := map_numberOf_occurring first last mapping
  inside := fun _ => numberOf_mem_range
  outside := fun _ => numberOf_of_outside

namespace PermGroup

variable {G : PermGroup}

/-- Without a registry, an exact search answers the least image, whatever its other settings. -/
theorem exists_representative_isLeast_imagesFrom (options : SearchOptions)
    (hmethod : options.method = .greedy ∨ options.method = .orbit)
    (h : G.IsMapping options.offset mapping) :
    ∃ least, G.representative mapping options = .ok least ∧
      IsLeast (G.imagesFrom options.offset mapping) least := by
  have hexact : options.method ≠ .descent := by
    rcases hmethod with hgreedy | horbit
    · simp [hgreedy]
    · simp [horbit]
  obtain ⟨image, hsearch, -, hspec⟩ := exists_searchKnown (fun _ => false) options (lower_lt h)
  rw [h.raise_lower] at hsearch
  have hleast := (hspec hexact).isLeast fun _ _ hknown => absurd hknown Bool.false_ne_true
  exact ⟨_, hsearch, (raise_monotone options.offset).map_isLeast hleast⟩

/-- An exact search without a registry answers the least image, with or without the
treatment of symmetric ranges.  If the group is symmetric on a range, this image is
the mapping with the processors of the range numbered in the order of their first
occurrence. -/
theorem representative_withRange_eq_withoutRange (G : PermGroup) (options : SearchOptions)
    {mapping : TaskMapping} (hmethod : options.method = .greedy ∨ options.method = .orbit)
    (h : G.IsMapping options.offset mapping) :
    let processors := lower options.offset mapping
    ∃ least, G.representative mapping { options with useSymmetricRange := true } = .ok least ∧
      G.representative mapping { options with useSymmetricRange := false } = .ok least ∧
      IsLeast (G.imagesFrom options.offset mapping) least ∧
      ∀ first last, G.symmetricRange? = some (first, last) →
        least = raise options.offset (relabel first last processors) ∧
        IsLeast (imagesUnder G.members processors) (relabel first last processors) ∧
        ∃ number, IsNumberedInOrder first last processors (relabel first last processors)
          number := by
  intro processors
  obtain ⟨least, hwith, hleast⟩ := exists_representative_isLeast_imagesFrom
    { options with useSymmetricRange := true } hmethod h
  obtain ⟨other, hwithout, hother⟩ := exists_representative_isLeast_imagesFrom
    { options with useSymmetricRange := false } hmethod h
  obtain rfl := hleast.unique hother
  refine ⟨least, hwith, hwithout, hleast, fun first last hrange => ?_⟩
  have hrelabel := isLeast_relabel_of_symmetricRange? hrange processors
  refine ⟨?_, hrelabel, _, isNumberedInOrder_relabel first last processors⟩
  exact hleast.unique ((raise_monotone options.offset).map_isLeast hrelabel)

/-- Symmetric on the processors 2, 3 and 4 of five, where the first processor has the
number 1. -/
theorem representative_withRange_eq_withoutRange_interleaved :
    let G := generatedBy [swap 5 3 4, 1, swap 5 2 4]
    let options : SearchOptions := { method := .orbit, offset := 1 }
    G.IsMapping 1 [5, 2, 4, 5, 1] ∧ G.symmetricRange? = some (2, 5) ∧
      G.representative [5, 2, 4, 5, 1] { options with useSymmetricRange := true } =
        .ok [3, 2, 4, 3, 1] ∧
      G.representative [5, 2, 4, 5, 1] { options with useSymmetricRange := false } =
        .ok [3, 2, 4, 3, 1] ∧
      IsLeast (G.imagesFrom 1 [5, 2, 4, 5, 1]) [3, 2, 4, 3, 1] := by
  intro G options
  have h : G.IsMapping 1 [5, 2, 4, 5, 1] := by decide
  have hrange : G.symmetricRange? = some (2, 5) := by decide +kernel
  obtain ⟨least, hwith, hwithout, hleast, hrelabel⟩ :=
    representative_withRange_eq_withoutRange G options (.inr rfl) h
  obtain rfl : least = [3, 2, 4, 3, 1] := (hrelabel 2 5 hrange).1
  exact ⟨h, hrange, hwith, hwithout, hleast⟩

end PermGroup
end ProcessorSymmetry

import ProcessorSymmetry.Proofs.Group.Equality
import ProcessorSymmetry.Proofs.Group.SymmetricRange
import ProcessorSymmetry.Proofs.Mapping.LocalSearch
import ProcessorSymmetry.Proofs.Mapping.Relabel
import ProcessorSymmetry.Proofs.Mapping.Representative

/-!
# Equivalent mappings

Two mappings are called equivalent if they have the same representative.  A
representative is always an image of its mapping, and except for local search
all images have the same one.  Hence equivalent mappings are images of each
other under members of the group, and local search only misses some of them.
Mappings that are equivalent under a group are equivalent under every group that
contains it.
-/

namespace ProcessorSymmetry

open Perm

variable {n : Nat} {H : Subgroup (Perm n)} {mapping image : TaskMapping}

theorem imagesUnder_permute {g : Perm n} (hg : g ∈ H) (mapping : TaskMapping) :
    imagesUnder H (g.permute mapping) = imagesUnder H mapping := by
  apply Set.Subset.antisymm
  · rintro image ⟨p, hp, rfl⟩
    exact ⟨g * p, H.mul_mem hg hp, permute_mul g p mapping⟩
  · rintro image ⟨p, hp, rfl⟩
    exact ⟨g⁻¹ * p, H.mul_mem (H.inv_mem hg) hp, by simp [← permute_mul]⟩

/-- Mappings with a common image are images of each other. -/
theorem exists_permute_of_common_image {a b : TaskMapping}
    (ha : image ∈ imagesUnder H a) (hb : image ∈ imagesUnder H b) :
    ∃ g ∈ H, g.permute a = b := by
  obtain ⟨p, hp, rfl⟩ := ha
  obtain ⟨q, hq, hcommon⟩ := hb
  refine ⟨p * q⁻¹, H.mul_mem hp (H.inv_mem hq), ?_⟩
  rw [permute_mul, ← hcommon, ← permute_mul, mul_inv_cancel, permute_one]

theorem raise_injective (offset : Nat) : Function.Injective (raise offset) :=
  List.map_injective_iff.mpr (add_left_injective offset)

/-- The processors of a mapping whose numbering starts at `offset`, for numbers
that are large enough. -/
def lower (offset : Nat) (mapping : TaskMapping) : TaskMapping :=
  mapping.map (· - offset)

theorem raise_lower {offset : Nat} (h : ∀ x ∈ mapping, offset ≤ x) :
    raise offset (lower offset mapping) = mapping := by
  rw [raise, lower, List.map_map]
  conv_rhs => rw [← List.map_id mapping]
  exact List.map_congr_left fun x hx => Nat.sub_add_cancel (h x hx)

/-- Only numbers of processors are accepted. -/
theorem eq_raise_of_toProcessors {degree offset : Nat} {processors : TaskMapping}
    (h : toProcessors degree offset mapping = .ok processors) :
    raise offset processors = mapping ∧ ∀ x ∈ processors, x < degree := by
  induction mapping generalizing processors with
  | nil =>
      obtain rfl := Except.ok.inj h
      exact ⟨rfl, by simp⟩
  | cons task rest ih =>
      rw [toProcessors, List.mapM_cons] at h
      obtain ⟨x, hx, h⟩ := bind_eq_ok_iff.mp h
      obtain ⟨xs, hxs, h⟩ := bind_eq_ok_iff.mp h
      obtain rfl := Except.ok.inj h
      obtain ⟨hrest, hlt⟩ := ih hxs
      split at hx
      · rename_i htask
        obtain rfl := Except.ok.inj hx
        refine ⟨?_, List.forall_mem_cons.mpr ⟨htask.2, hlt⟩⟩
        rw [raise, List.map_cons, Nat.sub_add_cancel htask.1]
        exact congrArg _ hrest
      · cases hx

namespace PermGroup

variable {G : PermGroup} {first last : Nat} {processors : TaskMapping}

/-! ## The image that a search answers -/

/-- On a symmetric range, numbering in the order of first occurrence gives the least image. -/
theorem isLeast_relabel_of_symmetricRange? (hrange : G.symmetricRange? = some (first, last))
    (processors : TaskMapping) :
    IsLeast (imagesUnder G.members processors) (relabel first last processors) := by
  obtain ⟨hlast, hmembers⟩ := members_of_symmetricRange? hrange
  rw [hmembers]
  exact isLeast_relabel first hlast processors

/-- What a search without a registry answers, before numbers are raised. -/
def chosenImage (G : PermGroup) (options : SearchOptions) (processors : TaskMapping) :
    Except Error TaskMapping :=
  match if options.useSymmetricRange then G.symmetricRange? else none with
  | some (first, last) => pure (relabel first last processors)
  | none =>
    match options.method with
    | .greedy => G.greedyImage (fun _ => false) processors
    | .orbit => pure (G.orbitMinimum (fun _ => false) processors)
    | .descent => pure (G.localMinimum (fun _ => false) options processors)

theorem representative_raise (options : SearchOptions) (h : ∀ x ∈ processors, x < G.degree) :
    G.representative (raise options.offset processors) options =
      (G.chosenImage options processors).map (raise options.offset) := by
  rw [representative, searchKnown, toProcessors_raise h, chosenImage]
  cases if options.useSymmetricRange then G.symmetricRange? else none with
  | some range => rfl
  | none =>
      cases options.method with
      | greedy =>
          change G.greedyImage (fun _ => false) processors >>= (fun image => pure _) = _
          cases G.greedyImage (fun _ => false) processors with
          | error cause => rfl
          | ok image => rfl
      | orbit => rfl
      | descent => rfl

/-- A search never fails and never leaves the orbit. -/
theorem exists_chosenImage (options : SearchOptions) (h : ∀ x ∈ processors, x < G.degree) :
    ∃ image, G.chosenImage options processors = .ok image ∧
      image ∈ imagesUnder G.members processors := by
  rw [chosenImage]
  split
  · rename_i first last hrange
    have hleast := isLeast_relabel_of_symmetricRange?
      (Option.ite_none_right_eq_some.mp hrange).2 processors
    exact ⟨_, rfl, hleast.1⟩
  · split
    · obtain ⟨image, hgreedy, hleast⟩ := exists_greedyImage h fun _ => rfl
      exact ⟨image, hgreedy, hleast.1⟩
    · exact ⟨_, rfl, (isLeast_orbitMinimum h fun _ => rfl).1⟩
    · exact ⟨_, rfl, G.localMinimum_mem_imagesUnder _ options processors⟩

/-- Except for local search, the answer is the same for all images of a mapping. -/
theorem chosenImage_permute {options : SearchOptions} (hmethod : options.method ≠ .descent)
    (h : ∀ x ∈ processors, x < G.degree) {g : Perm G.degree} (hg : g ∈ G.members) :
    G.chosenImage options (g.permute processors) = G.chosenImage options processors := by
  have himages := imagesUnder_permute hg processors
  have hpermuted : ∀ x ∈ g.permute processors, x < G.degree := permute_lt h
  rw [chosenImage, chosenImage]
  split
  · rename_i first last hrange
    obtain ⟨-, hmembers⟩ :=
      members_of_symmetricRange? (Option.ite_none_right_eq_some.mp hrange).2
    rw [hmembers] at hg
    rw [relabel_permute hg]
  · split
    · obtain ⟨least, hgreedy, hleast⟩ := exists_greedyImage h fun _ => rfl
      obtain ⟨other, hgreedy', hother⟩ := exists_greedyImage hpermuted fun _ => rfl
      rw [himages] at hother
      rw [hgreedy, hgreedy', hother.unique hleast]
    · have hother := isLeast_orbitMinimum hpermuted fun _ => rfl
      rw [himages] at hother
      rw [hother.unique (isLeast_orbitMinimum h fun _ => rfl)]
    · rename_i hdescent
      exact absurd hdescent hmethod

/-! ## Equivalence -/

theorem equivalent_raise (options : SearchOptions) {a b imageA imageB : TaskMapping}
    (hlength : a.length = b.length) (ha : ∀ x ∈ a, x < G.degree) (hb : ∀ x ∈ b, x < G.degree)
    (himageA : G.chosenImage options a = .ok imageA)
    (himageB : G.chosenImage options b = .ok imageB) :
    G.equivalent (raise options.offset a) (raise options.offset b) options =
      .ok (imageA == imageB) := by
  have hraised : (raise options.offset imageA == raise options.offset imageB) =
      (imageA == imageB) := by
    rw [Bool.eq_iff_iff, beq_iff_eq, beq_iff_eq]
    exact (raise_injective options.offset).eq_iff
  rw [equivalent, if_pos (by simpa [raise] using hlength), representative_raise options ha,
    representative_raise options hb, himageA, himageB, ← hraised]
  rfl

theorem exists_equivalent_raise (options : SearchOptions) {a b : TaskMapping}
    (hlength : a.length = b.length) (ha : ∀ x ∈ a, x < G.degree)
    (hb : ∀ x ∈ b, x < G.degree) :
    ∃ answer,
      G.equivalent (raise options.offset a) (raise options.offset b) options = .ok answer ∧
        (answer = true → ∃ g ∈ G.members, g.permute a = b) ∧
        (options.method ≠ .descent → (∃ g ∈ G.members, g.permute a = b) → answer = true) := by
  obtain ⟨imageA, himageA, hmemA⟩ := exists_chosenImage options ha
  obtain ⟨imageB, himageB, hmemB⟩ := exists_chosenImage options hb
  refine ⟨_, equivalent_raise options hlength ha hb himageA himageB, ?_, ?_⟩
  · intro hsame
    rw [← beq_iff_eq.mp hsame] at hmemB
    exact exists_permute_of_common_image hmemA hmemB
  · rintro hmethod ⟨g, hg, rfl⟩
    rw [chosenImage_permute hmethod ha hg, himageA] at himageB
    exact beq_iff_eq.mpr (Except.ok.inj himageB)

/-! ## Larger groups -/

/-- An answer is only given for mappings of one length to processors. -/
theorem exists_raise_of_equivalent {options : SearchOptions} {a b : TaskMapping} {answer : Bool}
    (h : G.equivalent a b options = .ok answer) :
    ∃ a' b', a'.length = b'.length ∧
      (raise options.offset a' = a ∧ ∀ x ∈ a', x < G.degree) ∧
      (raise options.offset b' = b ∧ ∀ x ∈ b', x < G.degree) := by
  rw [equivalent] at h
  split at h
  · rename_i hlength
    obtain ⟨imageA, ha, h⟩ := bind_eq_ok_iff.mp h
    obtain ⟨imageB, hb, -⟩ := bind_eq_ok_iff.mp h
    obtain ⟨a', ha, -⟩ := bind_eq_ok_iff.mp ha
    obtain ⟨b', hb, -⟩ := bind_eq_ok_iff.mp hb
    have hraisedA := eq_raise_of_toProcessors ha
    have hraisedB := eq_raise_of_toProcessors hb
    refine ⟨a', b', ?_, hraisedA, hraisedB⟩
    rw [← hraisedA.1, ← hraisedB.1] at hlength
    simpa [raise] using hlength
  · cases h

/-- Mappings that are found to be equivalent stay so in every group that contains the group, if
they are looked at by an exact search. -/
theorem IsContainedIn.equivalent {H : PermGroup} (h : G.IsContainedIn H)
    {options exactly : SearchOptions} {a b : TaskMapping} (hmethod : exactly.method ≠ .descent)
    (hoffset : exactly.offset = options.offset)
    (hequivalent : G.equivalent a b options = .ok true) :
    H.equivalent a b exactly = .ok true := by
  obtain ⟨a', b', hlength, ⟨rfl, ha⟩, ⟨rfl, hb⟩⟩ := exists_raise_of_equivalent hequivalent
  obtain ⟨answer, hanswer, hsound, -⟩ := exists_equivalent_raise options hlength ha hb
  obtain rfl : answer = true := Except.ok.inj (hanswer.symm.trans hequivalent)
  obtain ⟨g, hg, hpermute⟩ := hsound rfl
  obtain ⟨g', hg', happ⟩ := exists_member_of_contains (h g (G.contains_iff_mem.mpr hg))
  have hpermute' : g'.permute a' = b' :=
    (List.map_congr_left fun x _ => happ x).trans hpermute
  rw [h.degree_eq] at ha hb
  obtain ⟨answer, hanswer, -, hcomplete⟩ := exists_equivalent_raise exactly hlength ha hb
  rw [hoffset, hcomplete hmethod ⟨g', hg', hpermute'⟩] at hanswer
  exact hanswer

/-! ## The answer in terms of members -/

theorem lower_lt {offset degree : Nat} {mapping : TaskMapping}
    (h : ∀ x ∈ mapping, offset ≤ x ∧ x < degree + offset) :
    ∀ x ∈ lower offset mapping, x < degree := by
  intro x hx
  obtain ⟨y, hy, rfl⟩ := List.mem_map.mp hx
  have hrange := h y hy
  omega

/-- Mappings of different lengths are refused, whatever their entries are.  For
mappings of one length there is an answer.  The greedy search and the walk
through the orbit answer that the mappings are equivalent exactly if some member
of the group takes the processors of the one to those of the other.  Local
search only gives this answer if there is such a member. -/
theorem equivalent_iff_exists_member (G : PermGroup) (options : SearchOptions)
    (a b : TaskMapping) :
    (a.length ≠ b.length →
      G.equivalent a b options = .error (.degreeMismatch a.length b.length)) ∧
    (a.length = b.length →
      (∀ x ∈ a, options.offset ≤ x ∧ x < G.degree + options.offset) →
      (∀ x ∈ b, options.offset ≤ x ∧ x < G.degree + options.offset) →
      ∃ answer, G.equivalent a b options = .ok answer ∧
        (answer = true → ∃ g ∈ G.members,
          g.permute (lower options.offset a) = lower options.offset b) ∧
        (options.method = .greedy ∨ options.method = .orbit →
          (∃ g ∈ G.members, g.permute (lower options.offset a) = lower options.offset b) →
          answer = true)) := by
  constructor
  · intro hlength
    rw [equivalent, if_neg hlength]
    rfl
  · intro hlength ha hb
    have hlowered : (lower options.offset a).length = (lower options.offset b).length := by
      simpa [lower] using hlength
    obtain ⟨answer, hanswer, hsound, hcomplete⟩ :=
      exists_equivalent_raise options hlowered (lower_lt ha) (lower_lt hb)
    rw [raise_lower fun x hx => (ha x hx).1, raise_lower fun x hx => (hb x hx).1] at hanswer
    refine ⟨answer, hanswer, hsound, fun hmethod => hcomplete ?_⟩
    rcases hmethod with hgreedy | horbit
    · simp [hgreedy]
    · simp [horbit]

/-- On the processors 1, 2 and 3 with the outer ones exchanged, by the greedy search. -/
theorem equivalent_iff_exists_member_swap :
    let G := generatedBy [swap 3 0 2]
    (∀ x ∈ [3, 2, 3], 1 ≤ x ∧ x < G.degree + 1) ∧ (∀ x ∈ [1, 2, 1], 1 ≤ x ∧ x < G.degree + 1) ∧
      G.equivalent [3, 2, 3] [1, 2, 1] { offset := 1 } = .ok true ∧
      G.equivalent [3, 2, 3] [7] { offset := 1 } = .error (.degreeMismatch 3 1) := by
  intro G
  have ha : ∀ x ∈ [3, 2, 3], 1 ≤ x ∧ x < G.degree + 1 := by decide
  have hb : ∀ x ∈ [1, 2, 1], 1 ≤ x ∧ x < G.degree + 1 := by decide
  obtain ⟨answer, hanswer, -, hcomplete⟩ :=
    (equivalent_iff_exists_member G { offset := 1 } [3, 2, 3] [1, 2, 1]).2 rfl ha hb
  have hmember : swap 3 0 2 ∈ G.members := subset_generated (List.mem_singleton_self _)
  have hsame : answer = true := hcomplete (.inl rfl) ⟨swap 3 0 2, hmember, by decide⟩
  refine ⟨ha, hb, hsame ▸ hanswer, ?_⟩
  exact (equivalent_iff_exists_member G { offset := 1 } [3, 2, 3] [7]).1 (by decide)

end PermGroup
end ProcessorSymmetry

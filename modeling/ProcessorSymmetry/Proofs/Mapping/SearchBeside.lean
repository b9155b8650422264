import Mathlib.Order.Bounds.Image
import ProcessorSymmetry.Proofs.Mapping.Equivalence

/-!
# Searches beside a registry

A search may stop at any image of its mapping that is known already.  Whatever is
known, it ends with an image of its mapping.  If everything known is least in its
own orbit, then stopping early does not change what the search ends with.
-/

namespace ProcessorSymmetry

open Perm

theorem lower_raise (offset : Nat) (mapping : TaskMapping) :
    lower offset (raise offset mapping) = mapping := by
  rw [lower, raise, List.map_map]
  conv_rhs => rw [← List.map_id mapping]
  exact List.map_congr_left fun x _ => Nat.add_sub_cancel x offset

theorem raise_monotone (offset : Nat) : Monotone (raise offset) :=
  fun _ _ => raise_le_raise

namespace PermGroup

variable {G : PermGroup} {offset : Nat} {mapping other image least : TaskMapping}
  {known : TaskMapping → Bool}

/-! ## Mappings and their images -/

/-- Every task has a processor of the group, where the first one has the number `offset`. -/
def IsMapping (G : PermGroup) (offset : Nat) (mapping : TaskMapping) : Prop :=
  ∀ x ∈ mapping, offset ≤ x ∧ x < G.degree + offset

instance (G : PermGroup) (offset : Nat) (mapping : TaskMapping) :
    Decidable (G.IsMapping offset mapping) :=
  inferInstanceAs (Decidable (∀ x ∈ mapping, offset ≤ x ∧ x < G.degree + offset))

/-- The images of a mapping under the members of the group, where the first processor
has the number `offset`.  Mappings are equivalent if they are images of each other. -/
def imagesFrom (G : PermGroup) (offset : Nat) (mapping : TaskMapping) : Set TaskMapping :=
  raise offset '' imagesUnder G.members (lower offset mapping)

theorem IsMapping.raise_lower (h : G.IsMapping offset mapping) :
    raise offset (lower offset mapping) = mapping :=
  ProcessorSymmetry.raise_lower fun x hx => (h x hx).1

theorem IsMapping.self_mem_imagesFrom (h : G.IsMapping offset mapping) :
    mapping ∈ G.imagesFrom offset mapping :=
  ⟨lower offset mapping, self_mem_imagesUnder, h.raise_lower⟩

/-- Equivalent mappings have the same images. -/
theorem imagesFrom_eq (h : image ∈ G.imagesFrom offset mapping) :
    G.imagesFrom offset image = G.imagesFrom offset mapping := by
  obtain ⟨_, ⟨g, hg, rfl⟩, rfl⟩ := h
  rw [imagesFrom, imagesFrom, lower_raise, imagesUnder_permute hg]

theorem IsMapping.exists_isLeast (h : G.IsMapping offset mapping) :
    ∃ least, IsLeast (G.imagesFrom offset mapping) least :=
  ⟨_, (raise_monotone offset).map_isLeast (isLeast_orbitMinimum (lower_lt h) fun _ => rfl)⟩

/-- Mappings are equivalent exactly if their least images are the same. -/
theorem eq_least_iff (hother : G.IsMapping offset other) {least' : TaskMapping}
    (hleast : IsLeast (G.imagesFrom offset mapping) least)
    (hleast' : IsLeast (G.imagesFrom offset other) least') :
    least = least' ↔ other ∈ G.imagesFrom offset mapping := by
  constructor
  · rintro rfl
    rw [← imagesFrom_eq hleast.1, imagesFrom_eq hleast'.1]
    exact hother.self_mem_imagesFrom
  · intro hequivalent
    rw [imagesFrom_eq hequivalent] at hleast'
    exact hleast.unique hleast'

/-! ## What a search ends with -/

/-- A search does not fail for processors of the group and never leaves the orbit.
Except for local search it ends with a known image or with the least one. -/
theorem exists_searchKnown (known : TaskMapping → Bool) (options : SearchOptions)
    {processors : TaskMapping} (h : ∀ x ∈ processors, x < G.degree) :
    ∃ image, G.searchKnown known options (raise options.offset processors) =
        .ok (raise options.offset image) ∧
      image ∈ imagesUnder G.members processors ∧
      (options.method ≠ .descent →
        KnownOrLeast (fun image => known (raise options.offset image))
          (imagesUnder G.members processors) image) := by
  let stop : TaskMapping → Bool := fun image => known (raise options.offset image)
  rw [searchKnown, toProcessors_raise h]
  simp only [bind, Except.bind]
  cases hrange : if options.useSymmetricRange then G.symmetricRange? else none with
  | some range =>
      obtain ⟨first, last⟩ := range
      have hleast := isLeast_relabel_of_symmetricRange?
        (Option.ite_none_right_eq_some.mp hrange).2 processors
      exact ⟨_, rfl, hleast.1, fun _ => ⟨hleast.1, .inr hleast.2⟩⟩
  | none =>
      cases hmethod : options.method with
      | greedy =>
          obtain ⟨image, hgreedy, himage⟩ := exists_greedyImage_knownOrLeast stop h
          exact ⟨image, by rw [hgreedy]; rfl, himage.mem, fun _ => himage⟩
      | orbit =>
          have himage := knownOrLeast_orbitMinimum stop h
          exact ⟨_, rfl, himage.mem, fun _ => himage⟩
      | descent =>
          have hmem := G.localMinimum_mem_imagesUnder stop options processors
          exact ⟨_, rfl, hmem, fun hne => absurd rfl hne⟩

/-- Beside a registry a search is refused exactly if some number is no processor's.
Otherwise it ends with an image of the mapping, which is registered or least unless
the search is local. -/
theorem representativeBeside_spec (G : PermGroup) (registry : Registry)
    (mapping : TaskMapping) (options : SearchOptions) :
    (G.IsMapping options.offset mapping →
      ∃ image, G.representativeBeside registry mapping options = .ok image ∧
        image ∈ G.imagesFrom options.offset mapping ∧
        (options.method ≠ .descent →
          KnownOrLeast registry.contains (G.imagesFrom options.offset mapping) image)) ∧
    (¬G.IsMapping options.offset mapping →
      ∃ cause, G.representativeBeside registry mapping options = .error cause) := by
  constructor
  · intro hmapping
    obtain ⟨image, hsearch, hmem, hspec⟩ := exists_searchKnown
      (fun image => options.matchKnown && registry.contains image) options (lower_lt hmapping)
    rw [hmapping.raise_lower] at hsearch
    refine ⟨_, hsearch, ⟨image, hmem, rfl⟩, fun hmethod => ⟨⟨image, hmem, rfl⟩, ?_⟩⟩
    rcases (hspec hmethod).least with hknown | hleast
    · exact .inl (Bool.and_eq_true_iff.mp hknown).2
    · exact .inr ((raise_monotone options.offset).mem_lowerBounds_image hleast)
  · intro hmapping
    cases hsearch : G.representativeBeside registry mapping options with
    | error cause => exact ⟨cause, rfl⟩
    | ok image =>
        obtain ⟨processors, hprocessors, -⟩ := bind_eq_ok_iff.mp hsearch
        obtain ⟨rfl, hlt⟩ := eq_raise_of_toProcessors hprocessors
        refine absurd (fun x hx => ?_) hmapping
        obtain ⟨y, hy, rfl⟩ := List.mem_map.mp hx
        exact ⟨Nat.le_add_left _ _, Nat.add_lt_add_right (hlt y hy) _⟩

/-- Whatever is registered, a successful search answers an image of a mapping to processors. -/
theorem mem_imagesFrom_of_representativeBeside {registry : Registry} {options : SearchOptions}
    (h : G.representativeBeside registry mapping options = .ok image) :
    G.IsMapping options.offset mapping ∧ image ∈ G.imagesFrom options.offset mapping := by
  obtain ⟨haccepted, hrefused⟩ := G.representativeBeside_spec registry mapping options
  by_cases hmapping : G.IsMapping options.offset mapping
  · obtain ⟨found, hfound, hmem, -⟩ := haccepted hmapping
    obtain rfl := Except.ok.inj (h.symm.trans hfound)
    exact ⟨hmapping, hmem⟩
  · obtain ⟨cause, hcause⟩ := hrefused hmapping
    rw [h] at hcause
    cases hcause

/-- Beside least images only, an exact search ends with the least image. -/
theorem isLeast_of_representativeBeside {registry : Registry} {options : SearchOptions}
    (hregistered : ∀ image, registry.contains image = true →
      ∃ mapping, IsLeast (G.imagesFrom options.offset mapping) image)
    (hmethod : options.method ≠ .descent) (hmapping : G.IsMapping options.offset mapping) :
    ∃ least, G.representativeBeside registry mapping options = .ok least ∧
      IsLeast (G.imagesFrom options.offset mapping) least := by
  obtain ⟨least, hsearch, -, hspec⟩ :=
    (G.representativeBeside_spec registry mapping options).1 hmapping
  refine ⟨least, hsearch, (hspec hmethod).isLeast fun image hmem hknown => ?_⟩
  obtain ⟨other, hother⟩ := hregistered image hknown
  rwa [← imagesFrom_eq hmem, imagesFrom_eq hother.1]

end PermGroup
end ProcessorSymmetry

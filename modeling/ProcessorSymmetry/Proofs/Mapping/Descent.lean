import Mathlib.Data.Finset.Card
import ProcessorSymmetry.Proofs.Group.RandomElements
import ProcessorSymmetry.Proofs.Mapping.SymmetricRange

/-!
# Rounds of local search

A round makes a mapping smaller exactly if some generator does, by either rule.
Every round that makes it smaller leads to another one of the finitely many mappings,
so that the rounds come to an end, with a mapping that is known or that no generator
makes smaller.  From there another search does not move on.
-/

namespace ProcessorSymmetry

open Perm

/-! ## Moving on to smaller candidates -/

section Smaller

variable {α β : Type} [LinearOrder α] [DecidableLT α]

/-- A fold that moves on to smaller candidates only never ends above its start. -/
theorem foldl_smaller_le (candidate : α → β → α) (xs : List β) (start : α) :
    xs.foldl (fun best x => if candidate best x < best then candidate best x else best) start ≤
      start := by
  induction xs generalizing start with
  | nil => exact le_rfl
  | cons x xs ih =>
      rw [List.foldl_cons]
      refine (ih _).trans ?_
      split
      · rename_i hlt
        exact hlt.le
      · exact le_rfl

/-- It moves at all exactly if it would do so for one of the entries alone. -/
theorem foldl_smaller_lt_iff (candidate : α → β → α) (xs : List β) (start : α) :
    xs.foldl (fun best x => if candidate best x < best then candidate best x else best) start <
      start ↔ ∃ x ∈ xs, candidate start x < start := by
  induction xs with
  | nil => simp
  | cons x xs ih =>
      rw [List.foldl_cons, List.exists_mem_cons_iff]
      split
      · rename_i hlt
        exact iff_of_true ((foldl_smaller_le candidate xs _).trans_lt hlt) (.inl hlt)
      · rename_i hlt
        rw [ih, or_iff_right hlt]

end Smaller

namespace PermGroup

variable {n : Nat} {generators : List (Perm n)} {rule : DescentRule}
  {known : TaskMapping → Bool} {current next least : TaskMapping}

/-! ## One round -/

/-- A round makes a mapping smaller exactly if some generator does. -/
theorem descend_lt_iff :
    descend generators rule current < current ↔ ∃ g ∈ generators, g.permute current < current := by
  cases rule with
  | steepest => exact foldl_smaller_lt_iff (fun _ g => g.permute current) generators current
  | successive => exact foldl_smaller_lt_iff (fun best g => g.permute best) generators current

theorem exists_permute_eq_descend (generators : List (Perm n)) (rule : DescentRule)
    (current : TaskMapping) : ∃ p : Perm n, p.permute current = descend generators rule current := by
  obtain ⟨p, -, hp⟩ := descend_mem_imagesUnder (H := ⊤)
    (fun g (_ : g ∈ generators) => Subgroup.mem_top g) rule self_mem_imagesUnder
  exact ⟨p, hp⟩

/-! ## All rounds -/

/-- Rounds go on as long as they make a mapping smaller that is not known. -/
inductive DescendsTo (generators : List (Perm n)) (rule : DescentRule)
    (known : TaskMapping → Bool) : TaskMapping → TaskMapping → Prop
  | known {current : TaskMapping} (hknown : known current = true) :
      DescendsTo generators rule known current current
  | settled {current : TaskMapping} (hknown : known current = false)
      (hround : ¬descend generators rule current < current) :
      DescendsTo generators rule known current current
  | round {current least : TaskMapping} (hknown : known current = false)
      (hround : descend generators rule current < current)
      (later : DescendsTo generators rule known (descend generators rule current) least) :
      DescendsTo generators rule known current least

theorem DescendsTo.le (h : DescendsTo generators rule known current least) : least ≤ current := by
  induction h with
  | known _ => exact le_rfl
  | settled _ _ => exact le_rfl
  | round _ hround _ ih => exact ih.trans hround.le

/-- The rounds end with a mapping that is known or that no generator makes smaller. -/
theorem DescendsTo.ends (h : DescendsTo generators rule known current least) :
    known least = true ∨ ∀ g ∈ generators, ¬g.permute least < least := by
  induction h with
  | known hknown => exact .inl hknown
  | settled _ hround =>
      exact .inr fun g hg hlt => hround (descend_lt_iff.mpr ⟨g, hg, hlt⟩)
  | round _ _ _ ih => exact ih

/-- There are no rounds from a mapping that no generator makes smaller. -/
theorem DescendsTo.eq_self (h : DescendsTo generators rule known current least)
    (hsettled : ∀ g ∈ generators, ¬g.permute current < current) : least = current := by
  cases h with
  | known _ => rfl
  | settled _ _ => rfl
  | round _ hround _ =>
      obtain ⟨g, hg, hlt⟩ := descend_lt_iff.mp hround
      exact absurd hlt (hsettled g hg)

/-- The mapping after the next round, if the rounds go on. -/
def nextRound? (generators : List (Perm n)) (rule : DescentRule) (known : TaskMapping → Bool)
    (current : TaskMapping) : Option TaskMapping :=
  let next := descend generators rule current
  if ¬known current ∧ next < current then some next else none

theorem nextRound?_eq_some_iff :
    nextRound? generators rule known current = some next ↔
      (known current = false ∧ descend generators rule current < current) ∧
        descend generators rule current = next := by
  rw [nextRound?, Option.ite_none_right_eq_some, Option.some_inj, Bool.not_eq_true]

theorem DescendsTo.of_next (hnext : nextRound? generators rule known current = some next)
    (later : DescendsTo generators rule known next least) :
    DescendsTo generators rule known current least := by
  obtain ⟨⟨hknown, hround⟩, rfl⟩ := nextRound?_eq_some_iff.mp hnext
  exact .round hknown hround later

theorem descendsTo_self (hnext : nextRound? generators rule known current = none) :
    DescendsTo generators rule known current current := by
  cases hknown : known current with
  | true => exact .known hknown
  | false =>
      refine .settled hknown fun hround => ?_
      rw [nextRound?_eq_some_iff.mpr ⟨⟨hknown, hround⟩, rfl⟩] at hnext
      cases hnext

/-! ## The rounds come to an end -/

/-- The mappings of the same length that are smaller. -/
def smallerMappings (degree : Nat) (current : TaskMapping) : Finset TaskMapping :=
  (mappingsOf degree current.length).toFinset.filter (· < current)

theorem card_smallerMappings_le (degree : Nat) (current : TaskMapping) :
    (smallerMappings degree current).card ≤ mappingCount degree current.length := by
  rw [← length_mappingsOf]
  exact (Finset.card_filter_le _ _).trans (List.toFinset_card_le _)

/-- Below a smaller image there are fewer mappings. -/
theorem card_smallerMappings_lt (hcurrent : ∀ x ∈ current, x < n) {p : Perm n}
    (hlt : p.permute current < current) :
    (smallerMappings n (p.permute current)).card < (smallerMappings n current).card := by
  have hmem : p.permute current ∈ mappingsOf n current.length :=
    mem_mappingsOf_iff.mpr ⟨length_permute p current, permute_lt hcurrent⟩
  apply Finset.card_lt_card
  rw [smallerMappings, smallerMappings, length_permute, Finset.ssubset_iff_of_subset]
  · refine ⟨p.permute current, ?_, ?_⟩
    · exact Finset.mem_filter.mpr ⟨List.mem_toFinset.mpr hmem, hlt⟩
    · exact fun hself => (Finset.mem_filter.mp hself).2.false
  · exact Finset.monotone_filter_right _ fun smaller _ hsmaller => hsmaller.trans hlt

/-- A round leads to processors of the group again, with fewer mappings below. -/
theorem nextRound?_spec (hcurrent : ∀ x ∈ current, x < n)
    (hnext : nextRound? generators rule known current = some next) :
    (∀ x ∈ next, x < n) ∧ (smallerMappings n next).card < (smallerMappings n current).card := by
  obtain ⟨⟨-, hround⟩, rfl⟩ := nextRound?_eq_some_iff.mp hnext
  obtain ⟨p, hp⟩ := exists_permute_eq_descend generators rule current
  rw [← hp] at hround ⊢
  exact ⟨permute_lt hcurrent, card_smallerMappings_lt hcurrent hround⟩

/-- As many rounds as there are smaller mappings are enough. -/
theorem descendsTo_exhaust {bound : Nat} (hcurrent : ∀ x ∈ current, x < n)
    (hbound : (smallerMappings n current).card ≤ bound) :
    DescendsTo generators rule known current
      (exhaust (nextRound? generators rule known) bound current) := by
  induction bound generalizing current with
  | zero =>
      cases hnext : nextRound? generators rule known current with
      | none => exact descendsTo_self hnext
      | some next =>
          have hfewer := (nextRound?_spec hcurrent hnext).2
          omega
  | succ bound ih =>
      cases hnext : nextRound? generators rule known current with
      | none =>
          simp only [exhaust, hnext]
          exact descendsTo_self hnext
      | some next =>
          obtain ⟨hprocessors, hfewer⟩ := nextRound?_spec hcurrent hnext
          simp only [exhaust, hnext]
          exact .of_next hnext (ih hprocessors (by omega))

/-! ## Local search -/

variable {G : PermGroup} {options : SearchOptions} {processors image : TaskMapping}

/-- Local search takes the rounds to their end. -/
theorem descendsTo_localMinimum (G : PermGroup) (known : TaskMapping → Bool)
    (options : SearchOptions) (h : ∀ x ∈ processors, x < G.degree) :
    DescendsTo (G.descentGenerators options) options.rule known processors
      (G.localMinimum known options processors) :=
  descendsTo_exhaust h (card_smallerMappings_le G.degree processors)

/-- Local search takes rounds: the group is not treated as symmetric on a range. -/
def TakesRounds (G : PermGroup) (options : SearchOptions) : Prop :=
  options.useSymmetricRange = true → G.symmetricRange? = none

/-- What local search answers: an image that is not greater than the mapping, and unless
the group is treated as symmetric on a range, the one at which the rounds end. -/
structure IsDescended (G : PermGroup) (options : SearchOptions) (known : TaskMapping → Bool)
    (processors image : TaskMapping) : Prop where
  mem : image ∈ imagesUnder G.members processors
  le : image ≤ processors
  rounds : G.TakesRounds options →
    DescendsTo (G.descentGenerators options) options.rule known processors image

/-- Local search does not fail for processors of the group, whatever is known. -/
theorem exists_searchKnown_isDescended (known : TaskMapping → Bool)
    (hmethod : options.method = .descent) (h : ∀ x ∈ processors, x < G.degree) :
    ∃ image, G.searchKnown known options (raise options.offset processors) =
        .ok (raise options.offset image) ∧
      G.IsDescended options (fun image => known (raise options.offset image)) processors image := by
  rw [searchKnown, toProcessors_raise h, hmethod]
  simp only [bind, Except.bind]
  cases hrange : if options.useSymmetricRange then G.symmetricRange? else none with
  | some range =>
      obtain ⟨first, last⟩ := range
      obtain ⟨huse, hsymmetric⟩ := Option.ite_none_right_eq_some.mp hrange
      have hleast := isLeast_relabel_of_symmetricRange? hsymmetric processors
      refine ⟨_, rfl, hleast.1, relabel_le first last processors, fun hrounds => ?_⟩
      rw [hrounds huse] at hsymmetric
      cases hsymmetric
  | none =>
      have hrounds := G.descendsTo_localMinimum
        (fun image => known (raise options.offset image)) options h
      exact ⟨_, rfl, G.localMinimum_mem_imagesUnder _ options processors, hrounds.le,
        fun _ => hrounds⟩

/-- From a mapping that no generator makes smaller, another search does not move on. -/
theorem representative_eq_self (hmethod : options.method = .descent)
    (hsearched : G.TakesRounds options) (h : ∀ x ∈ processors, x < G.degree)
    (hsettled : ∀ g ∈ G.descentGenerators options, ¬g.permute processors < processors) :
    G.representative (raise options.offset processors) options =
      .ok (raise options.offset processors) := by
  obtain ⟨image, hsearch, himage⟩ := exists_searchKnown_isDescended (fun _ => false) hmethod h
  rw [representative, hsearch, (himage.rounds hsearched).eq_self hsettled]

/-- Local search answers for every mapping to processors of the group, whatever its settings and
the registry are: its rounds come to an end, at an image that is not greater than the mapping.
Without a registry and unless the group is treated as symmetric on a range, no generator makes
the answer smaller, and another search answers the same.  All generators are members of the group,
and the random ones among them belong to points that are drawn from the orbits of the chain. -/
theorem localSearch_descends (G : PermGroup) (options : SearchOptions) {mapping : TaskMapping}
    (hmethod : options.method = .descent) (h : G.IsMapping options.offset mapping) :
    let processors := lower options.offset mapping
    (∀ registry : Registry, ∃ image,
      G.representativeBeside registry mapping options = .ok (raise options.offset image) ∧
      raise options.offset image ≤ mapping ∧
      G.IsDescended options
        (fun image => options.matchKnown && registry.contains (raise options.offset image))
        processors image) ∧
    (∃ image,
      G.representative mapping options = .ok (raise options.offset image) ∧
      raise options.offset image ≤ mapping ∧
      G.IsDescended options (fun _ => false) processors image ∧
      (G.TakesRounds options →
        (∀ g ∈ G.descentGenerators options,
          ¬raise options.offset (g.permute image) < raise options.offset image) ∧
        G.representative (raise options.offset image) options =
          .ok (raise options.offset image))) ∧
    (∀ g, g ∈ G.descentGenerators options ↔
      g ∈ G.generators ∨ (options.useInverses = true ∧ g⁻¹ ∈ G.generators) ∨
        ∃ i < options.randomGenerators, g = G.randomElement (options.seed + i)) ∧
    (∀ g ∈ G.descentGenerators options, G.contains g = true) ∧
    ∀ seed, ∃ points, DrawnFrom G.chain.levels (.ofSeed seed) points ∧
      G.chain.element? points = some (G.randomElement seed) := by
  intro processors
  have hprocessors : ∀ x ∈ processors, x < G.degree := lower_lt h
  have hraised : raise options.offset processors = mapping := h.raise_lower
  have hmonotone := raise_monotone options.offset
  refine ⟨fun registry => ?_, ?_, fun g => mem_descentGenerators_iff, fun g hg => ?_,
    G.exists_drawn_randomElement⟩
  · obtain ⟨image, hsearch, himage⟩ := exists_searchKnown_isDescended
      (fun image => options.matchKnown && registry.contains image) hmethod hprocessors
    rw [hraised] at hsearch
    exact ⟨image, hsearch, (hmonotone himage.le).trans_eq hraised, himage⟩
  · obtain ⟨image, hsearch, himage⟩ :=
      exists_searchKnown_isDescended (fun _ => false) hmethod hprocessors
    rw [hraised] at hsearch
    refine ⟨image, hsearch, (hmonotone himage.le).trans_eq hraised, himage, fun hrounds => ?_⟩
    have hsettled := ((himage.rounds hrounds).ends).resolve_left Bool.false_ne_true
    constructor
    · intro g hg hlt
      refine hsettled g hg ?_
      exact (hmonotone.strictMono_of_injective (raise_injective _)).lt_iff_lt.mp hlt
    · obtain ⟨p, -, rfl⟩ := himage.mem
      exact representative_eq_self hmethod hrounds (permute_lt hprocessors) hsettled
  · exact G.contains_iff_mem.mpr (mem_members_of_descentGenerators hg)

/-- On a ring of six processors that are numbered from 1 on, with a random element besides
the rotation and its inverse. -/
theorem localSearch_descends_ring :
    let G := generatedBy [rotation 6 0]
    let options : SearchOptions :=
      { method := .descent, offset := 1, useInverses := true, randomGenerators := 1, seed := 7 }
    options.method = .descent ∧ G.IsMapping 1 [5, 2, 5] ∧ G.TakesRounds options ∧
      G.representative [5, 2, 5] options = .ok [1, 4, 1] ∧
      (∀ g ∈ G.descentGenerators options, ¬raise 1 (g.permute [0, 3, 0]) < [1, 4, 1]) ∧
      G.representative [1, 4, 1] options = .ok [1, 4, 1] := by
  intro G options
  have h : G.IsMapping 1 [5, 2, 5] := by decide
  have hrounds : G.TakesRounds options := fun _ => by decide +kernel
  have hsearch : G.representative [5, 2, 5] options = .ok [1, 4, 1] := by decide +kernel
  obtain ⟨image, hanswer, -, -, hsettled⟩ := (localSearch_descends G options rfl h).2.1
  obtain rfl : [0, 3, 0] = image :=
    raise_injective 1 (Except.ok.inj (hsearch.symm.trans hanswer))
  exact ⟨rfl, h, hrounds, hsearch, hsettled hrounds⟩

end PermGroup
end ProcessorSymmetry

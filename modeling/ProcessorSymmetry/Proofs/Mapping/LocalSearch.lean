import ProcessorSymmetry.Mapping.Representative
import ProcessorSymmetry.Proofs.Group.Elements
import ProcessorSymmetry.Proofs.Mapping.Orbit

/-!
# Local search stays in the orbit

Local search applies generators, perhaps their inverses, and perhaps random
elements.  All of them are members of the group, whatever the random numbers
are, so that no round leaves the orbit of the mapping.
-/

namespace ProcessorSymmetry

open Perm

namespace PermGroup

variable {G : PermGroup} {mapping : TaskMapping}

/-! ## Random elements -/

theorem randomElement_mem (G : PermGroup) (seed : Nat) : G.randomElement seed ∈ G.members := by
  rw [randomElement, Chain.element?]
  cases hp : Chain.elementThrough? G.chain.levels
      (drawPoints G.chain.levels (.ofSeed seed)) with
  | none => exact G.members.one_mem
  | some p => exact G.isChainOf_members.elementThrough?_mem _ hp

/-! ## The generators of local search -/

theorem mem_descentGenerators_iff {options : SearchOptions} {g : Perm G.degree} :
    g ∈ G.descentGenerators options ↔
      g ∈ G.generators ∨ (options.useInverses = true ∧ g⁻¹ ∈ G.generators) ∨
        ∃ i < options.randomGenerators, g = G.randomElement (options.seed + i) := by
  have hinverse : g ∈ (if options.useInverses then G.generators.map (·⁻¹) else []) ↔
      options.useInverses = true ∧ g⁻¹ ∈ G.generators := by
    cases options.useInverses with
    | true => simp [inv_eq_iff_eq_inv]
    | false => simp
  have hdrawn : g ∈ (List.range options.randomGenerators).map
      (fun i => G.randomElement (options.seed + i)) ↔
      ∃ i < options.randomGenerators, g = G.randomElement (options.seed + i) := by
    simp [eq_comm]
  rw [descentGenerators, distinctBy_eq_eraseDups toList_injective, List.mem_eraseDups,
    List.mem_append, List.mem_append, hinverse, hdrawn, or_assoc]

theorem mem_members_of_descentGenerators {options : SearchOptions} {g : Perm G.degree}
    (hg : g ∈ G.descentGenerators options) : g ∈ G.members := by
  rcases mem_descentGenerators_iff.mp hg with hgiven | ⟨-, hinverse⟩ | ⟨i, -, rfl⟩
  · exact subset_generated hgiven
  · exact G.members.inv_mem_iff.mp (subset_generated hinverse)
  · exact G.randomElement_mem (options.seed + i)

/-! ## Rounds -/

/-- One round of local search moves within the orbit, by either rule. -/
theorem descend_mem_imagesUnder {generators : List (Perm n)} (hgenerators : ∀ g ∈ generators, g ∈ H)
    (rule : DescentRule) {current : TaskMapping} (hcurrent : current ∈ imagesUnder H mapping) :
    descend generators rule current ∈ imagesUnder H mapping := by
  refine List.foldlRecOn generators _ hcurrent fun best hbest g hg => ?_
  cases rule with
  | steepest =>
      dsimp only
      split
      · exact permute_mem_imagesUnder hcurrent (hgenerators g hg)
      · exact hbest
  | successive =>
      dsimp only
      split
      · exact permute_mem_imagesUnder hbest (hgenerators g hg)
      · exact hbest

/-- Local search ends in the orbit where it starts, whatever is known. -/
theorem localMinimum_mem_imagesUnder (G : PermGroup) (known : TaskMapping → Bool)
    (options : SearchOptions) (mapping : TaskMapping) :
    G.localMinimum known options mapping ∈ imagesUnder G.members mapping := by
  refine exhaust_induction (P := fun current => current ∈ imagesUnder G.members mapping)
    (fun current next hcurrent hnext => ?_) _ self_mem_imagesUnder
  obtain ⟨-, hdescended⟩ := Option.ite_none_right_eq_some.mp hnext
  rw [← Option.some.inj hdescended]
  exact descend_mem_imagesUnder (fun g => mem_members_of_descentGenerators) options.rule hcurrent

end PermGroup
end ProcessorSymmetry

import Mathlib
import ProcessorSymmetry.Proofs.Group.Elements
import ProcessorSymmetry.Proofs.Mapping.RegistryRuns

/-!
# The number of classes

If all mappings of one length are classified, then the registry has one representative
for each orbit of the group on these mappings.  Hence Burnside's lemma relates the size
of the registry, the order of the group and the fixed points of its elements.
-/

namespace ProcessorSymmetry

open Perm

variable {n k : Nat}

namespace Perm

/-- The points that stay where they are. -/
def fixedPoints (p : Perm n) : List Nat :=
  (List.range n).filter fun x => p x = x

theorem nodup_fixedPoints (p : Perm n) : p.fixedPoints.Nodup :=
  List.nodup_range.filter _

/-- The image of a point of the domain is a point of the domain. -/
def appFin (p : Perm n) (i : Fin n) : Fin n :=
  ⟨p i, p.app_lt i.isLt⟩

/-- Products are read from left to right, so that it is inverses which act from the left. -/
instance : MulAction (Perm n) (Fin n) where
  smul p i := p⁻¹.appFin i
  one_smul i := Fin.ext (by
    change (1 : Perm n)⁻¹ i = i
    rw [inv_one, one_app])
  mul_smul p q i := Fin.ext (by
    change (p * q)⁻¹ i = p⁻¹ (q⁻¹ i)
    rw [mul_inv_rev, mul_app])

theorem smul_val (p : Perm n) (i : Fin n) : ((p • i : Fin n) : Nat) = p⁻¹ i :=
  rfl

theorem smul_eq_self_iff {p : Perm n} {i : Fin n} : p • i = i ↔ (i : Nat) ∈ p.fixedPoints := by
  rw [← Fin.val_inj, smul_val, inv_app_eq_iff]
  simp [fixedPoints, eq_comm]

theorem card_fixed_points (p : Perm n) :
    Nat.card {i : Fin n // p • i = i} = p.fixedPoints.length := by
  have hpoints : {i : Fin n // p • i = i} ≃ {x // x ∈ p.fixedPoints} :=
    { toFun := fun i => ⟨i.1, smul_eq_self_iff.mp i.2⟩
      invFun := fun x =>
        ⟨⟨x.1, List.mem_range.mp (List.mem_of_mem_filter x.2)⟩, smul_eq_self_iff.mpr x.2⟩
      left_inv := fun _ => rfl
      right_inv := fun _ => rfl }
  rw [Nat.card_congr hpoints, Chain.card_mem_of_nodup p.nodup_fixedPoints]

/-- A mapping of `k` tasks stays the same if all of its processors do. -/
theorem card_fixedBy_tasks (p : Perm n) :
    Nat.card (MulAction.fixedBy (Fin k → Fin n) p) = p.fixedPoints.length ^ k := by
  have htasks : MulAction.fixedBy (Fin k → Fin n) p ≃ (Fin k → {i : Fin n // p • i = i}) :=
    { toFun := fun f task => ⟨f.1 task, congrFun f.2 task⟩
      invFun := fun f => ⟨fun task => f task, funext fun task => (f task).2⟩
      left_inv := fun _ => rfl
      right_inv := fun _ => rfl }
  rw [Nat.card_congr htasks, Nat.card_fun, card_fixed_points, Nat.card_fin]

end Perm

/-! ## Mappings as functions of tasks -/

/-- The mapping whose tasks have the given processors. -/
def processorsOf (f : Fin k → Fin n) : TaskMapping :=
  List.ofFn fun task => (f task : Nat)

theorem processorsOf_injective :
    Function.Injective (processorsOf : (Fin k → Fin n) → TaskMapping) := by
  intro f f' h
  funext task
  exact Fin.ext (congrFun (List.ofFn_injective h) task)

theorem processorsOf_lt (f : Fin k → Fin n) : ∀ x ∈ processorsOf f, x < n := by
  intro x hx
  obtain ⟨task, rfl⟩ := List.mem_ofFn.mp hx
  exact (f task).isLt

theorem exists_processorsOf_eq {mapping : TaskMapping} (hlength : mapping.length = k)
    (h : ∀ x ∈ mapping, x < n) : ∃ f : Fin k → Fin n, processorsOf f = mapping := by
  subst hlength
  exact ⟨fun task => ⟨mapping[task], h _ (List.getElem_mem _)⟩, List.ofFn_getElem⟩

theorem permute_processorsOf (p : Perm n) (f : Fin k → Fin n) :
    p.permute (processorsOf f) = processorsOf (p⁻¹ • f) := by
  rw [permute, processorsOf, List.map_ofFn]
  rfl

/-- Images of mappings are the same as the functions in an orbit. -/
theorem processorsOf_mem_imagesUnder_iff {H : Subgroup (Perm n)} {f f' : Fin k → Fin n} :
    processorsOf f' ∈ imagesUnder H (processorsOf f) ↔ f' ∈ MulAction.orbit H f := by
  constructor
  · rintro ⟨p, hp, heq⟩
    rw [permute_processorsOf] at heq
    exact ⟨⟨p, hp⟩⁻¹, processorsOf_injective heq⟩
  · rintro ⟨p, rfl⟩
    refine ⟨(p : Perm n)⁻¹, H.inv_mem p.2, ?_⟩
    rw [permute_processorsOf, inv_inv]
    rfl

/-- Burnside's lemma for the mappings of `k` tasks. -/
theorem card_orbits_mul_card (H : Subgroup (Perm n)) {members : List (Perm n)}
    (hnodup : members.Nodup) (hmembers : ∀ p, p ∈ members ↔ p ∈ H) :
    Nat.card (Quotient (MulAction.orbitRel H (Fin k → Fin n))) * Nat.card H =
      (members.map fun p => p.fixedPoints.length ^ k).sum := by
  classical
  have := Fintype.ofFinite H
  have := Fintype.ofFinite (Quotient (MulAction.orbitRel H (Fin k → Fin n)))
  have hmem : ∀ p, p ∈ members.toFinset ↔ p ∈ H := fun p => by
    rw [List.mem_toFinset, hmembers]
  calc
    Nat.card (Quotient (MulAction.orbitRel H (Fin k → Fin n))) * Nat.card H =
        ∑ p : H, Fintype.card (MulAction.fixedBy (Fin k → Fin n) p) := by
      rw [MulAction.sum_card_fixedBy_eq_card_orbits_mul_card_group, Nat.card_eq_fintype_card,
        Nat.card_eq_fintype_card]
    _ = ∑ p : H, (p : Perm n).fixedPoints.length ^ k := by
      refine Finset.sum_congr rfl fun p _ => ?_
      rw [← card_fixedBy_tasks, Nat.card_eq_fintype_card]
      rfl
    _ = (members.map fun p => p.fixedPoints.length ^ k).sum := by
      rw [← List.sum_toFinset _ hnodup]
      exact (Finset.sum_subtype _ hmem fun p => p.fixedPoints.length ^ k).symm

/-! ## Registered classes -/

namespace PermGroup

variable {G : PermGroup} {offset : Nat} {least : TaskMapping → TaskMapping}

theorem isMapping_raise_processorsOf (offset : Nat) (f : Fin k → Fin G.degree) :
    G.IsMapping offset (raise offset (processorsOf f)) := by
  intro x hx
  obtain ⟨y, hy, rfl⟩ := List.mem_map.mp hx
  exact ⟨Nat.le_add_left offset y, Nat.add_lt_add_right (processorsOf_lt f y hy) offset⟩

/-- Least images belong to the orbits one to one. -/
theorem least_eq_iff_mem_orbit
    (hleast : ∀ mapping, G.IsMapping offset mapping →
      IsLeast (G.imagesFrom offset mapping) (least mapping)) (f f' : Fin k → Fin G.degree) :
    least (raise offset (processorsOf f)) = least (raise offset (processorsOf f')) ↔
      f ∈ MulAction.orbit G.members f' := by
  have hf := isMapping_raise_processorsOf offset f
  have hf' := isMapping_raise_processorsOf offset f'
  rw [eq_comm, eq_least_iff hf (hleast _ hf') (hleast _ hf), imagesFrom, lower_raise,
    (raise_injective offset).mem_set_image, processorsOf_mem_imagesUnder_iff]

/-- A list of the least images has as many entries as there are orbits. -/
theorem card_orbits_eq_length
    (hleast : ∀ mapping, G.IsMapping offset mapping →
      IsLeast (G.imagesFrom offset mapping) (least mapping))
    {representatives : List TaskMapping} (hnodup : representatives.Nodup)
    (hmem : ∀ image, image ∈ representatives ↔
      ∃ mapping, (mapping.length = k ∧ G.IsMapping offset mapping) ∧ least mapping = image) :
    Nat.card (Quotient (MulAction.orbitRel G.members (Fin k → Fin G.degree))) =
      representatives.length := by
  let leastOf : (Fin k → Fin G.degree) → TaskMapping :=
    fun f => least (raise offset (processorsOf f))
  have hker : MulAction.orbitRel G.members (Fin k → Fin G.degree) = Setoid.ker leastOf :=
    Setoid.ext fun f f' => (least_eq_iff_mem_orbit hleast f f').symm
  have hrange : ∀ image, image ∈ Set.range leastOf ↔ image ∈ representatives := by
    intro image
    rw [hmem]
    constructor
    · rintro ⟨f, rfl⟩
      refine ⟨_, ⟨?_, isMapping_raise_processorsOf offset f⟩, rfl⟩
      rw [raise, List.length_map, processorsOf, List.length_ofFn]
    · rintro ⟨mapping, ⟨hlength, hmapping⟩, rfl⟩
      obtain ⟨f, hf⟩ := exists_processorsOf_eq
        (by rw [lower, List.length_map, hlength]) (lower_lt hmapping)
      refine ⟨f, ?_⟩
      change least (raise offset (processorsOf f)) = least mapping
      rw [hf, hmapping.raise_lower]
  calc
    Nat.card (Quotient (MulAction.orbitRel G.members (Fin k → Fin G.degree))) =
        Nat.card (Set.range leastOf) := by
      rw [hker]
      exact Nat.card_congr (Setoid.quotientKerEquivRange leastOf)
    _ = Nat.card {image // image ∈ representatives} :=
      Nat.card_congr (Equiv.subtypeEquivRight hrange)
    _ = representatives.length := Chain.card_mem_of_nodup hnodup

/-- The calls that classify mappings, each with its settings. -/
def classifyAll (inserts : List (TaskMapping × SearchOptions)) : List RegistryCall :=
  inserts.map fun (mapping, options) => .classify mapping options

theorem filterMap_search?_classifyAll (inserts : List (TaskMapping × SearchOptions)) :
    (classifyAll inserts).filterMap RegistryCall.search? = inserts := by
  rw [classifyAll, List.filterMap_map]
  exact List.filterMap_some

section Classified

variable {inserts : List (TaskMapping × SearchOptions)}
  (hall : ∀ mapping, mapping ∈ inserts.map Prod.fst ↔
    mapping.length = k ∧ G.IsMapping offset mapping)
  (hexact : ∀ insert ∈ inserts, insert.2.offset = offset ∧
    (insert.2.method = .greedy ∨ insert.2.method = .orbit))

include hexact in
theorem isExactSearch_of_mem_classifyAll :
    ∀ call ∈ classifyAll inserts, call.IsExactSearch offset := by
  intro call hcall
  obtain ⟨⟨mapping, options⟩, hinsert, rfl⟩ := List.mem_map.mp hcall
  exact ⟨mapping, options, rfl, hexact _ hinsert⟩

include hall hexact

theorem answer_classifyAll {call : RegistryCall} {answer : Except Error RegistryAnswer}
    (h : (call, answer) ∈ (G.performAll .empty (classifyAll inserts)).1) :
    ∃ told, answer = .ok told := by
  have hcalls := isExactSearch_of_mem_classifyAll hexact
  obtain ⟨-, -, hhistory⟩ := performAll_exact_spec hcalls (G := G)
  obtain ⟨⟨mapping, options⟩, hinsert, rfl⟩ := List.mem_map.mp (hhistory call answer h).1
  have hmapping := ((hall mapping).mp (List.mem_map_of_mem hinsert)).2
  choose! least hleast using fun mapping (h : G.IsMapping offset mapping) => h.exists_isLeast
  obtain ⟨told, -, hok, -⟩ := (answer_exact hleast hcalls h rfl).1 hmapping
  exact ⟨told, hok⟩

/-- If all mappings of `k` tasks are classified, then there is one class for each orbit. -/
theorem size_classifyAll :
    (G.performAll .empty (classifyAll inserts)).2.size =
      Nat.card (Quotient (MulAction.orbitRel G.members (Fin k → Fin G.degree))) := by
  have hcalls := isExactSearch_of_mem_classifyAll hexact
  obtain ⟨hwellFormed, -⟩ := performAll_exact_spec hcalls (G := G)
  choose! least hleast using fun mapping (h : G.IsMapping offset mapping) => h.exists_isLeast
  have hlist := toList_exact hleast hcalls
  rw [filterMap_search?_classifyAll] at hlist
  refine (card_orbits_eq_length hleast hwellFormed.nodup fun image => ?_).symm
  rw [hlist, List.mem_eraseDups, List.mem_map]
  refine exists_congr fun mapping => and_congr_left fun _ => ?_
  rw [List.mem_filter, hall, decide_eq_true_iff]
  exact ⟨And.left, fun h => ⟨h, h.2⟩⟩

end Classified

/-- If all mappings of `k` tasks are classified by exact searches, in any order and with
any other settings, then no call is refused.  The number of classes times the order of
the group is the sum of the numbers of mappings that its elements leave as they are. -/
theorem size_mul_order_eq_sum_fixedPoints (G : PermGroup) (offset k : Nat)
    (inserts : List (TaskMapping × SearchOptions))
    (hall : ∀ mapping, mapping ∈ inserts.map Prod.fst ↔
      mapping.length = k ∧ G.IsMapping offset mapping)
    (hexact : ∀ insert ∈ inserts, insert.2.offset = offset ∧
      (insert.2.method = .greedy ∨ insert.2.method = .orbit)) :
    let run := G.performAll .empty (classifyAll inserts)
    (∀ call answer, (call, answer) ∈ run.1 → ∃ told, answer = .ok told) ∧
      run.2.size * G.order = (G.elements.map fun g => g.fixedPoints.length ^ k).sum := by
  intro run
  refine ⟨fun call answer h => answer_classifyAll hall hexact h, ?_⟩
  rw [size_classifyAll hall hexact, order_eq_card]
  exact card_orbits_mul_card G.members G.nodup_elements fun _ => mem_elements_iff

/-- Three rotations give the nine mappings of two tasks three classes. -/
theorem size_mul_order_eq_sum_fixedPoints_rotations :
    let G := generatedBy [rotation 3 0]
    let inserts : List (TaskMapping × SearchOptions) :=
      (mappingsOf 3 2).reverse.map fun mapping =>
        (mapping, { method := if mapping.head? = some 0 then .greedy else .orbit })
    let run := G.performAll .empty (classifyAll inserts)
    (∀ mapping, mapping ∈ inserts.map Prod.fst ↔ mapping.length = 2 ∧ G.IsMapping 0 mapping) ∧
      (∀ insert ∈ inserts, insert.2.offset = 0 ∧
        (insert.2.method = .greedy ∨ insert.2.method = .orbit)) ∧
      G.order = 3 ∧ run.2.size = 3 ∧
      run.2.size * G.order = (G.elements.map fun g => g.fixedPoints.length ^ 2).sum := by
  intro G inserts run
  have hall : ∀ mapping, mapping ∈ inserts.map Prod.fst ↔
      mapping.length = 2 ∧ G.IsMapping 0 mapping := by
    intro mapping
    have hmappings : inserts.map Prod.fst = (mappingsOf 3 2).reverse := by decide +kernel
    have hdegree : G.degree = 3 := rfl
    rw [hmappings, List.mem_reverse, mem_mappingsOf_iff, IsMapping, hdegree]
    simp
  have hexact : ∀ insert ∈ inserts, insert.2.offset = 0 ∧
      (insert.2.method = .greedy ∨ insert.2.method = .orbit) := by decide +kernel
  exact ⟨hall, hexact, by decide +kernel, by decide +kernel,
    (size_mul_order_eq_sum_fixedPoints G 0 2 inserts hall hexact).2⟩

end PermGroup
end ProcessorSymmetry

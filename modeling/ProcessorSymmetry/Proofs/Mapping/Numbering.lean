import ProcessorSymmetry.Proofs.Mapping.Registry

/-!
# Numbers of registered representatives

A registry may be passed on from one group to the next.  Whatever calls it has gone
through, the numbers that it looks up are the places in its list, and there they stay.
A caller who is told that a representative is new is told so because it was not
registered before, even if the search had to read the registry to find it.
-/

namespace ProcessorSymmetry

namespace Registry

variable {registry : Registry} {representative : TaskMapping} {id : Nat}

/-- The registry after calls, each of them beside a group of its own. -/
def after (registry : Registry) (calls : List (PermGroup × RegistryCall)) : Registry :=
  calls.foldl (fun registry (G, call) => (call.perform G registry).2) registry

theorem after_append (registry : Registry) (calls later : List (PermGroup × RegistryCall)) :
    registry.after (calls ++ later) = (registry.after calls).after later :=
  List.foldl_append

/-- Calls keep a registry well-formed and add to the end of its list only. -/
theorem WellFormed.after (h : registry.WellFormed) (calls : List (PermGroup × RegistryCall)) :
    (registry.after calls).WellFormed ∧ registry.toList <+: (registry.after calls).toList := by
  induction calls generalizing registry with
  | nil => exact ⟨h, List.prefix_refl _⟩
  | cons first rest ih =>
      obtain ⟨G, call⟩ := first
      obtain ⟨hnext, hlist, -⟩ := RegistryCall.perform_spec h call (G := G)
      obtain ⟨hfinal, hlonger⟩ := ih hnext
      refine ⟨hfinal, List.IsPrefix.trans ?_ hlonger⟩
      rw [hlist]
      exact prefix_eraseDups_append h.nodup _

/-- A number that is looked up once is looked up after all later calls, too. -/
theorem WellFormed.classId?_after (h : registry.WellFormed)
    (hid : registry.classId? representative = some id)
    (calls : List (PermGroup × RegistryCall)) :
    (registry.after calls).classId? representative = some id := by
  obtain ⟨hfinal, hlonger⟩ := h.after calls
  rw [hfinal]
  exact getElem?_of_prefix hlonger ((h _ _).mp hid)

/-- Numbers are given without gaps. -/
theorem WellFormed.exists_classId?_iff (h : registry.WellFormed) :
    (∃ representative, registry.classId? representative = some id) ↔ id < registry.size := by
  have hsize : registry.size = registry.toList.length := Array.length_toList.symm
  simp only [h _ id, hsize]
  exact ⟨fun ⟨_, hlisted⟩ => (List.getElem?_eq_some_iff.mp hlisted).1,
    fun hlt => ⟨_, List.getElem?_eq_getElem hlt⟩⟩

/-- What registering says and does, by whether the representative is registered before. -/
theorem WellFormed.insert_cases (h : registry.WellFormed) (representative : TaskMapping) :
    ∃ id next, registry.insert representative = ((!registry.contains representative, id), next) ∧
      next.classId? representative = some id ∧
      if registry.contains representative then next = registry
      else id = registry.size ∧ next.toList = registry.toList ++ [representative] := by
  by_cases hmem : representative ∈ registry.toList
  · obtain ⟨id, hid, hinsert⟩ := h.insert_of_mem hmem
    refine ⟨id, registry, ?_, (h _ _).mpr hid, ?_⟩
    · rw [hinsert, h.contains_iff.mpr hmem]
      rfl
    · rw [if_pos (h.contains_iff.mpr hmem)]
  · obtain ⟨next, hinsert, hlist, hnext⟩ := h.insert_of_notMem hmem
    have hcontains : registry.contains representative = false := by
      rw [← Bool.not_eq_true, h.contains_iff]
      exact hmem
    refine ⟨registry.toList.length, next, ?_, ?_, ?_⟩
    · rw [hinsert, hcontains]
      rfl
    · rw [hnext, hlist, List.getElem?_concat_length]
    · rw [hcontains]
      exact ⟨Array.length_toList, hlist⟩

/-- After any calls on a registry that starts empty, the number of a representative is
its place in the list, every place is a number, and no representative is listed twice.
Numbers stay the same in all later calls.  A call that is refused changes nothing.  Any
other call reports the number of the representative that it finds, and that it is new
exactly if it was not registered before; then it is added at the end of the list. -/
theorem after_numbers_are_places (calls : List (PermGroup × RegistryCall)) :
    let registry := Registry.empty.after calls
    (∀ representative id, registry.classId? representative = some id ↔
      registry.toList[id]? = some representative) ∧
    (∀ representative, registry.contains representative = true ↔
      representative ∈ registry.toList) ∧
    (∀ id, (∃ representative, registry.classId? representative = some id) ↔
      id < registry.size) ∧
    registry.toList.Nodup ∧
    (∀ later representative id, registry.classId? representative = some id →
      (Registry.empty.after (calls ++ later)).classId? representative = some id) ∧
    ∀ (G : PermGroup) (call : RegistryCall),
      (∀ cause, call.found G registry = .error cause →
        call.perform G registry = (.error cause, registry)) ∧
      ∀ representative, call.found G registry = .ok representative →
        ∃ id next, call.perform G registry =
            (.ok (call.report representative (!registry.contains representative) id), next) ∧
          next.classId? representative = some id ∧
          if registry.contains representative then next = registry
          else id = registry.size ∧ next.toList = registry.toList ++ [representative] := by
  intro registry
  obtain ⟨hregistry, -⟩ := wellFormed_empty.after calls
  refine ⟨hregistry, fun _ => hregistry.contains_iff, fun _ => hregistry.exists_classId?_iff,
    hregistry.nodup, ?_, fun G call => ⟨fun _ => RegistryCall.perform_of_found_error, ?_⟩⟩
  · intro later representative id hid
    rw [after_append]
    exact hregistry.classId?_after hid later
  · intro representative hfound
    obtain ⟨id, next, hinsert, hid, hnext⟩ := hregistry.insert_cases representative
    exact ⟨id, next, RegistryCall.perform_eq_report hfound hinsert, hid, hnext⟩

/-- Beside the processors 0, 1 and 2 with the outer ones exchanged a search stops at a
representative that is not the least one.  Another one was found beside four processors. -/
theorem after_numbers_are_places_swap :
    let G := PermGroup.generatedBy [Perm.swap 3 0 2]
    let options : SearchOptions := { method := .orbit, useSymmetricRange := false }
    let calls : List (PermGroup × RegistryCall) :=
      [(G, .register [2, 1]), (.trivial 4, .represent [3] options)]
    let later : List (PermGroup × RegistryCall) := [(.symmetric 3, .classify [1, 1] options)]
    let registry := Registry.empty.after calls
    registry.toList = [[2, 1], [3]] ∧ registry.classId? [3] = some 1 ∧
    (Registry.empty.after (calls ++ later)).classId? [3] = some 1 ∧
    (RegistryCall.classify [0, 1] options).found G registry = .ok [2, 1] ∧
    (∃ id, (RegistryCall.classify [0, 1] options).perform G registry =
      (.ok (.number false id), registry) ∧ registry.classId? [2, 1] = some id) ∧
    (RegistryCall.classify [3] options).found G registry = .error (.outOfDomain 3 3) ∧
    (RegistryCall.classify [3] options).perform G registry =
      (.error (.outOfDomain 3 3), registry) := by
  intro G options calls later registry
  have hlist : registry.toList = [[2, 1], [3]] := by decide +kernel
  have hfound : (RegistryCall.classify [0, 1] options).found G registry = .ok [2, 1] := by
    decide +kernel
  have hrefused : (RegistryCall.classify [3] options).found G registry =
      .error (.outOfDomain 3 3) := by
    decide +kernel
  obtain ⟨hplaces, hcontains, -, -, hlater, hcalls⟩ := after_numbers_are_places calls
  have hknown : registry.contains [2, 1] = true := (hcontains [2, 1]).mpr (by rw [hlist]; decide)
  have hid : registry.classId? [3] = some 1 := (hplaces [3] 1).mpr (by rw [hlist]; rfl)
  obtain ⟨id, next, hperform, hnumber, hnext⟩ := (hcalls G _).2 [2, 1] hfound
  rw [if_pos hknown] at hnext
  subst hnext
  rw [hknown] at hperform
  exact ⟨hlist, hid, hlater later [3] 1 hid, hfound, ⟨id, hperform, hnumber⟩, hrefused,
    (hcalls G _).1 _ hrefused⟩

end Registry
end ProcessorSymmetry

import Mathlib.Data.List.Nodup
import ProcessorSymmetry.Mapping.Representative
import ProcessorSymmetry.Proofs.Distinct

/-!
# Runs of calls on a registry

A registry keeps its representatives twice, as a list and with their numbers.
Registering keeps both in step: a number is a place in the list, and the list
only grows at its end.  Hence an answer that a caller gets during a run is about
the same entry at the end of the run.
-/

namespace ProcessorSymmetry

namespace Registry

variable {registry final : Registry} {representative : TaskMapping} {id : Nat}

/-! ## Registering -/

/-- The numbers of a registry are the places in its list. -/
def WellFormed (registry : Registry) : Prop :=
  ∀ representative id,
    registry.classId? representative = some id ↔ registry.toList[id]? = some representative

theorem wellFormed_empty : empty.WellFormed := by
  intro representative id
  simp [empty, classId?, toList, Std.TreeMap.empty_eq_emptyc]

theorem WellFormed.nodup (h : registry.WellFormed) : registry.toList.Nodup := by
  rw [List.nodup_iff_getElem?_ne_getElem?]
  intro i j hij hj heq
  have hi := (h _ i).mpr (heq.trans (List.getElem?_eq_getElem hj))
  rw [(h _ j).mpr (List.getElem?_eq_getElem hj)] at hi
  exact (Nat.ne_of_lt hij).symm (Option.some.inj hi)

theorem WellFormed.contains_iff (h : registry.WellFormed) :
    registry.contains representative = true ↔ representative ∈ registry.toList := by
  rw [contains, Std.TreeMap.contains_eq_isSome_getElem?, Option.isSome_iff_exists,
    List.mem_iff_getElem?]
  exact exists_congr fun id => h representative id

/-- A representative that is listed is found again. -/
theorem WellFormed.insert_of_mem (h : registry.WellFormed)
    (hmem : representative ∈ registry.toList) :
    ∃ id, registry.toList[id]? = some representative ∧
      registry.insert representative = ((false, id), registry) := by
  obtain ⟨id, hid⟩ := List.mem_iff_getElem?.mp hmem
  refine ⟨id, hid, ?_⟩
  rw [Registry.insert, (h representative id).mpr hid]

theorem getElem?_append_singleton_iff {α : Type} {entries : List α} {a b : α} {i : Nat} :
    (entries ++ [a])[i]? = some b ↔ entries[i]? = some b ∨ i = entries.length ∧ a = b := by
  rcases Nat.lt_trichotomy i entries.length with hlt | rfl | hgt
  · simp [List.getElem?_append_left hlt, Nat.ne_of_lt hlt]
  · simp
  · simp [List.getElem?_append_right (Nat.le_of_lt hgt), Nat.le_of_lt hgt, Nat.ne_of_gt hgt,
      Nat.sub_ne_zero_of_lt hgt]

/-- A representative that is not listed goes to the end of the list. -/
theorem WellFormed.insert_of_notMem (h : registry.WellFormed)
    (hnew : representative ∉ registry.toList) :
    ∃ next, registry.insert representative = ((true, registry.toList.length), next) ∧
      next.toList = registry.toList ++ [representative] ∧ next.WellFormed := by
  have hnone : registry.classId? representative = none := by
    rw [Option.eq_none_iff_forall_ne_some]
    exact fun id hid => hnew (List.mem_of_getElem? ((h representative id).mp hid))
  let next : Registry := ⟨registry.representatives.push representative,
    registry.ids.insert representative registry.size⟩
  have hlist : next.toList = registry.toList ++ [representative] := Array.toList_push
  have hsize : registry.size = registry.toList.length := Array.length_toList.symm
  have hid : ∀ other, next.classId? other =
      if representative = other then some registry.toList.length
      else registry.classId? other := by
    intro other
    rw [classId?, Std.TreeMap.getElem?_insert]
    simp only [Std.LawfulEqOrd.compare_eq_iff_eq, hsize]
    rfl
  refine ⟨next, by rw [Registry.insert, hnone, ← hsize], hlist, ?_⟩
  intro other id
  rw [hid, hlist, getElem?_append_singleton_iff]
  by_cases heq : representative = other
  · subst heq
    have hunlisted : registry.toList[id]? ≠ some representative :=
      fun hlisted => hnew (List.mem_of_getElem? hlisted)
    simp [hunlisted, eq_comm]
  · simp [heq, h other id]

/-- Registering keeps a registry well-formed and lists the representative at the
number that is answered. -/
theorem WellFormed.insert (h : registry.WellFormed) (representative : TaskMapping) :
    (registry.insert representative).2.WellFormed ∧
      (registry.insert representative).2.toList =
        (registry.toList ++ [representative]).eraseDups ∧
      (registry.insert representative).2.toList[(registry.insert representative).1.2]? =
        some representative := by
  by_cases hmem : representative ∈ registry.toList
  · obtain ⟨id, hid, hinsert⟩ := h.insert_of_mem hmem
    rw [hinsert, List.eraseDups_append, eraseDups_of_nodup h.nodup]
    refine ⟨h, ?_, hid⟩
    simp [List.removeAll, hmem]
  · obtain ⟨next, hinsert, hlist, hnext⟩ := h.insert_of_notMem hmem
    rw [hinsert]
    refine ⟨hnext, ?_, by simp [hlist]⟩
    rw [hlist, eraseDups_of_nodup (hlist ▸ hnext.nodup)]

/-- What is listed at a number stays there. -/
theorem getElem?_of_prefix (h : registry.toList <+: final.toList)
    (hid : registry.toList[id]? = some representative) :
    final.toList[id]? = some representative := by
  obtain ⟨later, hlater⟩ := h
  rw [← hlater, List.getElem?_append_left (List.getElem?_eq_some_iff.mp hid).1, hid]

end Registry

/-! ## Calls -/

/-- A call that may register a representative, one that is given or the one that a
search ends with.  The caller of a search is told the representative or its number. -/
inductive RegistryCall where
  | register (representative : TaskMapping)
  | represent (mapping : TaskMapping) (options : SearchOptions)
  | classify (mapping : TaskMapping) (options : SearchOptions)
  deriving DecidableEq

/-- What a caller is told: a representative, or whether it is new and its number. -/
inductive RegistryAnswer where
  | representative (image : TaskMapping)
  | number (isNew : Bool) (id : Nat)
  deriving DecidableEq

/-- The number and the representative of the entry that an answer is about. -/
def RegistryAnswer.listed? (registry : Registry) :
    RegistryAnswer → Option (Nat × TaskMapping)
  | .representative image => (registry.classId? image).map (·, image)
  | .number _ id => registry.toList[id]?.map (id, ·)

theorem RegistryAnswer.getElem?_of_listed? {registry : Registry} (h : registry.WellFormed)
    {answer : RegistryAnswer} {id : Nat} {representative : TaskMapping}
    (hanswer : answer.listed? registry = some (id, representative)) :
    registry.toList[id]? = some representative := by
  cases answer with
  | representative image =>
      obtain ⟨number, hnumber, heq⟩ := Option.map_eq_some_iff.mp hanswer
      obtain ⟨rfl, rfl⟩ := Prod.mk.inj heq
      exact (h image number).mp hnumber
  | number isNew number =>
      obtain ⟨image, himage, heq⟩ := Option.map_eq_some_iff.mp hanswer
      obtain ⟨rfl, rfl⟩ := Prod.mk.inj heq
      exact himage

namespace RegistryCall

variable {G : PermGroup} {registry : Registry} {call : RegistryCall}
  {representative : TaskMapping}

/-- The mapping whose representative is looked for, and the settings. -/
def search? : RegistryCall → Option (TaskMapping × SearchOptions)
  | .register _ => none
  | .represent mapping options => some (mapping, options)
  | .classify mapping options => some (mapping, options)

/-- The representative that a call registers. -/
def found (G : PermGroup) (registry : Registry) : RegistryCall → Except Error TaskMapping
  | .register representative => .ok representative
  | .represent mapping options => G.representativeBeside registry mapping options
  | .classify mapping options => G.representativeBeside registry mapping options

/-- The answer to a call and the registry after it.  A call that is refused leaves
the registry as it is. -/
def perform (G : PermGroup) (registry : Registry) :
    RegistryCall → Except Error RegistryAnswer × Registry
  | .register representative =>
    let ((isNew, id), next) := registry.insert representative
    (.ok (.number isNew id), next)
  | .represent mapping options =>
    match G.representativeIn registry mapping options with
    | .ok (image, next) => (.ok (.representative image), next)
    | .error cause => (.error cause, registry)
  | .classify mapping options =>
    match G.insertMapping registry mapping options with
    | .ok ((isNew, id), next) => (.ok (.number isNew id), next)
    | .error cause => (.error cause, registry)

theorem perform_of_found_error {cause : Error} (h : call.found G registry = .error cause) :
    call.perform G registry = (.error cause, registry) := by
  cases call with
  | register representative => cases h
  | represent mapping options =>
      change G.representativeBeside registry mapping options = _ at h
      rw [perform, PermGroup.representativeIn, h]
      rfl
  | classify mapping options =>
      change G.representativeBeside registry mapping options = _ at h
      rw [perform, PermGroup.insertMapping, h]
      rfl

/-- A call that is refused is answered with the error of its search.  Otherwise the
answer is about the entry with the representative that is found. -/
def IsAnswered (G : PermGroup) (before final : Registry) (call : RegistryCall)
    (answer : Except Error RegistryAnswer) : Prop :=
  (∃ cause, call.found G before = .error cause ∧ answer = .error cause) ∨
    ∃ representative told id, call.found G before = .ok representative ∧
      answer = .ok told ∧ told.listed? final = some (id, representative)

/-- What the caller is told about the representative that is found. -/
def report (representative : TaskMapping) (isNew : Bool) (id : Nat) :
    RegistryCall → RegistryAnswer
  | .register _ => .number isNew id
  | .represent _ _ => .representative representative
  | .classify _ _ => .number isNew id

/-- A call that finds a representative registers it and reports what registering says. -/
theorem perform_eq_report (h : call.found G registry = .ok representative) {isNew : Bool}
    {id : Nat} {next : Registry}
    (hinsert : registry.insert representative = ((isNew, id), next)) :
    call.perform G registry = (.ok (call.report representative isNew id), next) := by
  cases call with
  | register given =>
      obtain rfl := Except.ok.inj h
      rw [perform, hinsert]
      rfl
  | represent mapping options =>
      change G.representativeBeside registry mapping options = _ at h
      have hfound : G.representativeIn registry mapping options = .ok (representative, next) := by
        rw [PermGroup.representativeIn, h]
        exact congrArg (fun outcome => Except.ok (representative, outcome.2)) hinsert
      rw [perform, hfound]
      rfl
  | classify mapping options =>
      change G.representativeBeside registry mapping options = _ at h
      have hfound : G.insertMapping registry mapping options = .ok ((isNew, id), next) := by
        rw [PermGroup.insertMapping, h]
        exact congrArg Except.ok hinsert
      rw [perform, hfound]
      rfl

/-- A report is about the entry with the number that it was made for. -/
theorem listed?_report (hregistry : registry.WellFormed) {id : Nat}
    (hid : registry.toList[id]? = some representative) (call : RegistryCall) (isNew : Bool) :
    (call.report representative isNew id).listed? registry = some (id, representative) := by
  cases call with
  | register given => exact congrArg (Option.map (id, ·)) hid
  | represent mapping options =>
      exact congrArg (Option.map (·, representative)) ((hregistry _ _).mpr hid)
  | classify mapping options => exact congrArg (Option.map (id, ·)) hid

/-- The answer to a call that is accepted is about the representative that is
registered, also when the registry has grown. -/
theorem perform_of_found_ok (hregistry : registry.WellFormed)
    (h : call.found G registry = .ok representative) :
    ∃ answer, call.perform G registry = (.ok answer, (registry.insert representative).2) ∧
      ∀ final : Registry, final.WellFormed →
        (registry.insert representative).2.toList <+: final.toList →
        ∃ id, answer.listed? final = some (id, representative) := by
  obtain ⟨-, -, hlisted⟩ := hregistry.insert representative
  refine ⟨_, perform_eq_report h rfl, fun final hfinal hlonger => ?_⟩
  exact ⟨_, listed?_report hfinal (Registry.getElem?_of_prefix hlonger hlisted) call _⟩

/-- One call keeps a registry well-formed and lists at its end what it finds. -/
theorem perform_spec (hregistry : registry.WellFormed) (call : RegistryCall) :
    (call.perform G registry).2.WellFormed ∧
      (call.perform G registry).2.toList =
        (registry.toList ++ (call.found G registry).toOption.toList).eraseDups ∧
      ∀ final : Registry, final.WellFormed →
        (call.perform G registry).2.toList <+: final.toList →
        call.IsAnswered G registry final (call.perform G registry).1 := by
  cases hfound : call.found G registry with
  | error cause =>
      rw [perform_of_found_error hfound]
      refine ⟨hregistry, ?_, fun _ _ _ => .inl ⟨cause, hfound, rfl⟩⟩
      simp [Except.toOption, eraseDups_of_nodup hregistry.nodup]
  | ok representative =>
      obtain ⟨answer, hperform, hanswer⟩ := perform_of_found_ok hregistry hfound
      obtain ⟨hnext, hlist, -⟩ := hregistry.insert representative
      rw [hperform]
      refine ⟨hnext, hlist, fun final hfinal hlonger => .inr ?_⟩
      obtain ⟨id, hid⟩ := hanswer final hfinal hlonger
      exact ⟨representative, answer, id, hfound, rfl, hid⟩

end RegistryCall

/-! ## Runs -/

namespace PermGroup

variable {G : PermGroup} {registry : Registry} {calls : List RegistryCall}
  {P : Registry → Prop}

/-- The calls of a run with their answers, and the registry at the end. -/
def performAll (G : PermGroup) (registry : Registry) : List RegistryCall →
    List (RegistryCall × Except Error RegistryAnswer) × Registry
  | [] => ([], registry)
  | call :: rest =>
    let (answer, next) := call.perform G registry
    let (history, final) := G.performAll next rest
    ((call, answer) :: history, final)

theorem map_fst_performAll (G : PermGroup) (registry : Registry) (calls : List RegistryCall) :
    (G.performAll registry calls).1.map Prod.fst = calls := by
  induction calls generalizing registry with
  | nil => rfl
  | cons call rest ih =>
      rw [performAll, List.map_cons]
      exact congrArg _ (ih _)

/-- During a run the list grows at its end only.  Each call is answered by a registry
with every property that calls preserve, and the answer is true at the end. -/
theorem performAll_spec
    (hstep : ∀ call ∈ calls, ∀ registry, registry.WellFormed → P registry →
      P (call.perform G registry).2)
    (hregistry : registry.WellFormed) (hstart : P registry) :
    (G.performAll registry calls).2.WellFormed ∧ P (G.performAll registry calls).2 ∧
      registry.toList <+: (G.performAll registry calls).2.toList ∧
      ∀ call answer, (call, answer) ∈ (G.performAll registry calls).1 → call ∈ calls ∧
        ∃ before : Registry, before.WellFormed ∧ P before ∧
          call.IsAnswered G before (G.performAll registry calls).2 answer := by
  -- The first answer is true at the end, since all later calls only lengthen the list.
  induction calls generalizing registry with
  | nil => exact ⟨hregistry, hstart, List.prefix_refl _, by simp [performAll]⟩
  | cons call rest ih =>
      obtain ⟨hnext, hlist, hanswer⟩ := RegistryCall.perform_spec hregistry call (G := G)
      have hkept := hstep call List.mem_cons_self registry hregistry hstart
      obtain ⟨hfinal, hP, hlonger, hrest⟩ :=
        ih (fun other hother => hstep other (List.mem_cons_of_mem _ hother)) hnext hkept
      rw [performAll]
      refine ⟨hfinal, hP, ?_, fun other answer hmem => ?_⟩
      · refine List.IsPrefix.trans ?_ hlonger
        rw [hlist]
        exact prefix_eraseDups_append hregistry.nodup _
      · rcases List.mem_cons.mp hmem with heq | hmem
        · obtain ⟨rfl, rfl⟩ := Prod.mk.inj heq
          exact ⟨List.mem_cons_self, registry, hregistry, hstart, hanswer _ hfinal hlonger⟩
        · obtain ⟨hother, hbefore⟩ := hrest other answer hmem
          exact ⟨List.mem_cons_of_mem _ hother, hbefore⟩

/-- If it does not depend on the registry what a call finds, then the registry lists
what all calls find in the order of its first occurrence. -/
theorem toList_performAll {target : RegistryCall → Option TaskMapping}
    (hstep : ∀ call ∈ calls, ∀ registry, registry.WellFormed → P registry →
      P (call.perform G registry).2)
    (htarget : ∀ call ∈ calls, ∀ registry, registry.WellFormed → P registry →
      (call.found G registry).toOption = target call)
    (hregistry : registry.WellFormed) (hstart : P registry) :
    (G.performAll registry calls).2.toList =
      (registry.toList ++ calls.filterMap target).eraseDups := by
  induction calls generalizing registry with
  | nil => simp [performAll, eraseDups_of_nodup hregistry.nodup]
  | cons call rest ih =>
      obtain ⟨hnext, hlist, -⟩ := RegistryCall.perform_spec hregistry call (G := G)
      have hkept := hstep call List.mem_cons_self registry hregistry hstart
      have hrest := ih (fun other hother => hstep other (List.mem_cons_of_mem _ hother))
        (fun other hother => htarget other (List.mem_cons_of_mem _ hother)) hnext hkept
      rw [htarget call List.mem_cons_self registry hregistry hstart] at hlist
      rw [performAll]
      change (G.performAll (call.perform G registry).2 rest).2.toList = _
      rw [hrest, hlist, eraseDups_eraseDups_append, List.append_assoc, List.filterMap_cons]
      cases target call with
      | none => rfl
      | some representative => rfl

end PermGroup
end ProcessorSymmetry

import ProcessorSymmetry.Proofs.Mapping.RegistryRuns

/-!
# Numbering from an offset

Which number the first processor has makes no difference to a search.  If that number
is raised together with all numbers that are given, then all numbers that are answered
are raised as well: those of representatives, those that a registry lists, and those
that a refusal reports.  Only numbers of no processor are refused, and the first of
them is reported.
-/

namespace ProcessorSymmetry

open Perm

variable {G : PermGroup} {offset : Nat} {mapping : TaskMapping} {registry : Registry}

/-! ## Raised numbers -/

/-- The settings where the number of the first processor is raised. -/
def SearchOptions.raised (offset : Nat) (options : SearchOptions) : SearchOptions :=
  { options with offset := options.offset + offset }

/-- The error that reports raised numbers. -/
def Error.raised (offset : Nat) : Error → Error
  | .outOfDomain index degree => .outOfDomain (index + offset) (degree + offset)
  | cause => cause

/-- The outcome where a result is raised by a function of its own. -/
def raisedOutcome {α β : Type} (offset : Nat) (raised : α → β) (outcome : Except Error α) :
    Except Error β :=
  (outcome.map raised).mapError (Error.raised offset)

theorem raised_of_zero (offset : Nat) (options : SearchOptions) :
    ({ options with offset := 0 } : SearchOptions).raised offset =
      { options with offset := offset } := by
  rw [SearchOptions.raised, Nat.zero_add]

theorem raise_add (first offset : Nat) (mapping : TaskMapping) :
    raise (first + offset) mapping = raise offset (raise first mapping) := by
  rw [raise, raise, raise, List.map_map]
  exact List.map_congr_left fun x _ => (Nat.add_assoc x first offset).symm

/-! ## Refused mappings -/

/-- The first number that is no processor's. -/
def firstOutside? (degree offset : Nat) (mapping : TaskMapping) : Option Nat :=
  mapping.find? fun x => x < offset ∨ degree + offset ≤ x

theorem toProcessors_eq (degree offset : Nat) (mapping : TaskMapping) :
    toProcessors degree offset mapping =
      match firstOutside? degree offset mapping with
      | none => .ok (lower offset mapping)
      | some x => .error (.outOfDomain x (degree + offset)) := by
  have hoffset : (fun x => decide ¬(offset ≤ x ∧ x - offset < degree)) =
      fun x => decide (x < offset ∨ degree + offset ≤ x) := by
    funext x
    rw [decide_eq_decide]
    omega
  rw [toProcessors, mapM_ite_eq, firstOutside?, hoffset]
  cases mapping.find? fun x => decide (x < offset ∨ degree + offset ≤ x) with
  | none => rfl
  | some x => rfl

theorem firstOutside?_raise (degree first offset : Nat) (mapping : TaskMapping) :
    firstOutside? degree (first + offset) (raise offset mapping) =
      (firstOutside? degree first mapping).map (· + offset) := by
  have hoffset : (fun x => decide (x < first + offset ∨ degree + (first + offset) ≤ x)) ∘
      (· + offset) = fun x => decide (x < first ∨ degree + first ≤ x) := by
    funext x
    rw [Function.comp_apply, decide_eq_decide]
    omega
  rw [firstOutside?, raise, List.find?_map, hoffset, firstOutside?]

namespace PermGroup

theorem firstOutside?_eq_none_iff :
    firstOutside? G.degree offset mapping = none ↔ G.IsMapping offset mapping := by
  rw [firstOutside?, List.find?_eq_none, IsMapping]
  refine forall₂_congr fun x _ => ?_
  rw [decide_eq_true_eq]
  omega

/-- A mapping is refused for the first number that is no processor's. -/
def Refuses (G : PermGroup) (options : SearchOptions) (mapping : TaskMapping)
    (cause : Error) : Prop :=
  ∃ x, firstOutside? G.degree options.offset mapping = some x ∧
    cause = .outOfDomain x (G.degree + options.offset)

theorem exists_refuses_iff {options : SearchOptions} :
    (∃ cause, G.Refuses options mapping cause) ↔
      ∃ x ∈ mapping, x < options.offset ∨ options.offset + G.degree ≤ x := by
  constructor
  · rintro ⟨_, x, hx, rfl⟩
    have houtside := List.find?_some hx
    rw [decide_eq_true_eq, Nat.add_comm] at houtside
    exact ⟨x, List.mem_of_find?_eq_some hx, houtside⟩
  · rintro ⟨x, hx, houtside⟩
    cases hfirst : firstOutside? G.degree options.offset mapping with
    | none =>
        have hprocessor := firstOutside?_eq_none_iff.mp hfirst x hx
        omega
    | some y => exact ⟨_, y, hfirst, rfl⟩

/-! ## Searches -/

/-- A search among processors ends with the same image, whichever number they begin with. -/
theorem searchKnown_raise_processors {known known' : TaskMapping → Bool}
    (hknown : ∀ image, known' (raise offset image) = known image) (options : SearchOptions)
    {processors : TaskMapping} (h : ∀ x ∈ processors, x < G.degree) :
    G.searchKnown known' (options.raised offset) (raise (options.offset + offset) processors) =
      (G.searchKnown known options (raise options.offset processors)).map (raise offset) := by
  -- The offset is added to every image that is looked up, and once more to the answer.
  have hstop : (fun image => known' (raise (options.offset + offset) image)) =
      fun image => known (raise options.offset image) := by
    funext image
    rw [raise_add, hknown]
  have hanswer : ∀ image, (Except.ok (raise (options.offset + offset) image) : Except Error _) =
      (Except.ok (raise options.offset image)).map (raise offset) := fun image =>
    congrArg Except.ok (raise_add _ _ image)
  rw [searchKnown, searchKnown, SearchOptions.raised, toProcessors_raise h, toProcessors_raise h,
    hstop]
  simp only [bind, Except.bind]
  cases if options.useSymmetricRange then G.symmetricRange? else none with
  | some range => exact hanswer _
  | none =>
      cases options.method with
      | greedy =>
          cases G.greedyImage (fun image => known (raise options.offset image)) processors with
          | error cause => rfl
          | ok image => exact hanswer image
      | orbit => exact hanswer _
      | descent => exact hanswer _

theorem searchKnown_of_firstOutside? (known : TaskMapping → Bool) {options : SearchOptions}
    {x : Nat} (h : firstOutside? G.degree options.offset mapping = some x) :
    G.searchKnown known options mapping = .error (.outOfDomain x (G.degree + options.offset)) := by
  rw [searchKnown, toProcessors_eq, h]
  rfl

/-- A search fails exactly if it is refused. -/
theorem searchKnown_eq_error_iff {known : TaskMapping → Bool} {options : SearchOptions}
    {cause : Error} :
    G.searchKnown known options mapping = .error cause ↔ G.Refuses options mapping cause := by
  cases hfirst : firstOutside? G.degree options.offset mapping with
  | none =>
      have hmapping := firstOutside?_eq_none_iff.mp hfirst
      obtain ⟨image, hsearch, -⟩ := exists_searchKnown known options (lower_lt hmapping)
      rw [hmapping.raise_lower] at hsearch
      simp [hsearch, Refuses, hfirst]
  | some x =>
      rw [searchKnown_of_firstOutside? known hfirst]
      simp [Refuses, hfirst, eq_comm]

/-- A search for a raised mapping that stops at raised images ends with the raised image,
or reports raised numbers. -/
theorem searchKnown_raise {known known' : TaskMapping → Bool}
    (hknown : ∀ image, known' (raise offset image) = known image) (options : SearchOptions)
    (mapping : TaskMapping) :
    G.searchKnown known' (options.raised offset) (raise offset mapping) =
      raisedOutcome offset (raise offset) (G.searchKnown known options mapping) := by
  cases hfirst : firstOutside? G.degree options.offset mapping with
  | none =>
      have hmapping := firstOutside?_eq_none_iff.mp hfirst
      obtain ⟨image, hsearch, -⟩ := exists_searchKnown known options (lower_lt hmapping)
      have hraised := searchKnown_raise_processors hknown options (lower_lt hmapping)
      rw [raise_add, hsearch, hmapping.raise_lower] at hraised
      rw [hraised, ← hmapping.raise_lower, hsearch]
      rfl
  | some x =>
      have hraised : firstOutside? G.degree (options.raised offset).offset (raise offset mapping) =
          some (x + offset) := by
        rw [SearchOptions.raised, firstOutside?_raise, hfirst]
        rfl
      rw [searchKnown_of_firstOutside? known' hraised, searchKnown_of_firstOutside? known hfirst,
        SearchOptions.raised, ← Nat.add_assoc]
      rfl

end PermGroup

/-! ## Registries -/

namespace Registry

/-- The registry that is filled with the representatives in order. -/
def ofList (representatives : List TaskMapping) : Registry :=
  representatives.foldl (fun registry representative => (registry.insert representative).2) .empty

/-- The registry of the raised representatives. -/
def raised (offset : Nat) (registry : Registry) : Registry :=
  ofList (registry.toList.map (raise offset))

theorem ofList_concat (representatives : List TaskMapping) (representative : TaskMapping) :
    ofList (representatives ++ [representative]) =
      ((ofList representatives).insert representative).2 := by
  rw [ofList, List.foldl_append]
  rfl

theorem wellFormed_ofList (representatives : List TaskMapping) :
    (ofList representatives).WellFormed ∧
      (ofList representatives).toList = representatives.eraseDups := by
  induction representatives using List.reverseRecOn with
  | nil => exact ⟨wellFormed_empty, by simp [ofList, empty, toList]⟩
  | append_singleton representatives representative ih =>
      obtain ⟨hregistry, hlist⟩ := ih
      obtain ⟨hnext, hnextList, -⟩ := hregistry.insert representative
      rw [ofList_concat]
      refine ⟨hnext, ?_⟩
      rw [hnextList, hlist, eraseDups_eraseDups_append]

theorem wellFormed_raised (offset : Nat) (registry : Registry) :
    (registry.raised offset).WellFormed :=
  (wellFormed_ofList _).1

namespace WellFormed

variable (h : registry.WellFormed)

include h

theorem toList_raised (offset : Nat) :
    (registry.raised offset).toList = registry.toList.map (raise offset) := by
  rw [raised, (wellFormed_ofList _).2, eraseDups_of_nodup]
  exact h.nodup.map (raise_injective offset)

theorem classId?_raised (offset : Nat) (representative : TaskMapping) :
    (registry.raised offset).classId? (raise offset representative) =
      registry.classId? representative := by
  refine Option.ext fun id => ?_
  rw [wellFormed_raised offset registry, h representative id, h.toList_raised, List.getElem?_map,
    Option.map_eq_some_iff]
  constructor
  · rintro ⟨listed, hlisted, heq⟩
    rwa [← raise_injective offset heq]
  · intro hlisted
    exact ⟨representative, hlisted, rfl⟩

theorem contains_raised (offset : Nat) (representative : TaskMapping) :
    (registry.raised offset).contains (raise offset representative) =
      registry.contains representative := by
  rw [contains, contains, Std.TreeMap.contains_eq_isSome_getElem?,
    Std.TreeMap.contains_eq_isSome_getElem?]
  exact congrArg Option.isSome (h.classId?_raised offset representative)

/-- Raised representatives get the same numbers. -/
theorem insert_raised (offset : Nat) (representative : TaskMapping) :
    (registry.raised offset).insert (raise offset representative) =
      ((registry.insert representative).1, (registry.insert representative).2.raised offset) := by
  have hids := h.classId?_raised offset representative
  by_cases hmem : representative ∈ registry.toList
  · obtain ⟨id, hid, hinsert⟩ := h.insert_of_mem hmem
    rw [(h representative id).mpr hid] at hids
    rw [hinsert, Registry.insert, hids]
  · obtain ⟨next, hinsert, hlist, -⟩ := h.insert_of_notMem hmem
    have hnew : raise offset representative ∉ (registry.raised offset).toList := by
      rwa [h.toList_raised, List.mem_map_of_injective (raise_injective offset)]
    obtain ⟨next', hinsert', -, -⟩ :=
      (wellFormed_raised offset registry).insert_of_notMem hnew
    have hnext : next' = next.raised offset := by
      rw [raised, hlist, List.map_append, List.map_singleton, ofList_concat]
      exact (congrArg Prod.snd hinsert').symm
    rw [hinsert, hinsert', hnext, h.toList_raised, List.length_map]

end WellFormed
end Registry

/-! ## Calls and runs -/

/-- The answer in raised numbers.  A class keeps its number. -/
def RegistryAnswer.raised (offset : Nat) : RegistryAnswer → RegistryAnswer
  | .representative image => .representative (raise offset image)
  | .number isNew id => .number isNew id

/-- The call where all numbers of processors are raised. -/
def RegistryCall.raised (offset : Nat) : RegistryCall → RegistryCall
  | .register representative => .register (raise offset representative)
  | .represent mapping options => .represent (raise offset mapping) (options.raised offset)
  | .classify mapping options => .classify (raise offset mapping) (options.raised offset)

namespace PermGroup

theorem representativeBeside_raise (h : registry.WellFormed) (mapping : TaskMapping)
    (options : SearchOptions) :
    G.representativeBeside (registry.raised offset) (raise offset mapping)
        (options.raised offset) =
      raisedOutcome offset (raise offset) (G.representativeBeside registry mapping options) := by
  refine searchKnown_raise (fun image => ?_) options mapping
  rw [h.contains_raised]
  rfl

theorem representativeIn_eq_map (registry : Registry) (mapping : TaskMapping)
    (options : SearchOptions) :
    G.representativeIn registry mapping options =
      (G.representativeBeside registry mapping options).map
        fun image => (image, (registry.insert image).2) := by
  rw [representativeIn]
  cases G.representativeBeside registry mapping options with
  | error cause => rfl
  | ok image => rfl

theorem insertMapping_eq_map (registry : Registry) (mapping : TaskMapping)
    (options : SearchOptions) :
    G.insertMapping registry mapping options =
      (G.representativeBeside registry mapping options).map registry.insert := by
  rw [insertMapping]
  cases G.representativeBeside registry mapping options with
  | error cause => rfl
  | ok image => rfl

theorem representativeIn_raise (h : registry.WellFormed) (mapping : TaskMapping)
    (options : SearchOptions) :
    G.representativeIn (registry.raised offset) (raise offset mapping) (options.raised offset) =
      raisedOutcome offset (fun (image, next) => (raise offset image, next.raised offset))
        (G.representativeIn registry mapping options) := by
  rw [representativeIn_eq_map, representativeIn_eq_map, representativeBeside_raise h]
  cases G.representativeBeside registry mapping options with
  | error cause => rfl
  | ok image =>
      change Except.ok (_, ((registry.raised offset).insert (raise offset image)).2) = _
      rw [h.insert_raised]
      rfl

theorem insertMapping_raise (h : registry.WellFormed) (mapping : TaskMapping)
    (options : SearchOptions) :
    G.insertMapping (registry.raised offset) (raise offset mapping) (options.raised offset) =
      raisedOutcome offset (fun (answer, next) => (answer, next.raised offset))
        (G.insertMapping registry mapping options) := by
  rw [insertMapping_eq_map, insertMapping_eq_map, representativeBeside_raise h]
  cases G.representativeBeside registry mapping options with
  | error cause => rfl
  | ok image => exact congrArg Except.ok (h.insert_raised offset image)

/-- A raised call of a raised registry is given the raised answer and leaves the raised registry. -/
theorem perform_raised (h : registry.WellFormed) (call : RegistryCall) :
    (call.raised offset).perform G (registry.raised offset) =
      (raisedOutcome offset (RegistryAnswer.raised offset) (call.perform G registry).1,
        (call.perform G registry).2.raised offset) := by
  cases call with
  | register representative =>
      rw [RegistryCall.raised, RegistryCall.perform, h.insert_raised]
      rfl
  | represent mapping options =>
      rw [RegistryCall.raised, RegistryCall.perform, representativeIn_raise h, RegistryCall.perform]
      cases G.representativeIn registry mapping options with
      | error cause => rfl
      | ok answered => rfl
  | classify mapping options =>
      rw [RegistryCall.raised, RegistryCall.perform, insertMapping_raise h, RegistryCall.perform]
      cases G.insertMapping registry mapping options with
      | error cause => rfl
      | ok answered => rfl

/-- A run of raised calls on a raised registry gives the raised answers and ends with the
raised registry. -/
theorem performAll_raised (h : registry.WellFormed) (calls : List RegistryCall) :
    G.performAll (registry.raised offset) (calls.map (RegistryCall.raised offset)) =
      ((G.performAll registry calls).1.map fun (call, answer) =>
          (call.raised offset, raisedOutcome offset (RegistryAnswer.raised offset) answer),
        (G.performAll registry calls).2.raised offset) := by
  induction calls generalizing registry with
  | nil => rfl
  | cons call rest ih =>
      rw [List.map_cons, performAll, perform_raised h, performAll]
      dsimp only
      rw [ih (RegistryCall.perform_spec h call).1]
      rfl

/-! ## Refused calls -/

theorem representativeIn_eq_error_iff {options : SearchOptions} {cause : Error} :
    G.representativeIn registry mapping options = .error cause ↔
      G.Refuses options mapping cause := by
  rw [representativeIn_eq_map, map_eq_error_iff]
  exact searchKnown_eq_error_iff

theorem insertMapping_eq_error_iff {options : SearchOptions} {cause : Error} :
    G.insertMapping registry mapping options = .error cause ↔
      G.Refuses options mapping cause := by
  rw [insertMapping_eq_map, map_eq_error_iff]
  exact searchKnown_eq_error_iff

/-- A refused call leaves the registry as it is. -/
theorem perform_of_refuses {call : RegistryCall} {options : SearchOptions} {cause : Error}
    (hsearch : call.search? = some (mapping, options)) (h : G.Refuses options mapping cause) :
    call.perform G registry = (.error cause, registry) := by
  apply RegistryCall.perform_of_found_error
  rw [RegistryCall.found_of_search? hsearch]
  exact searchKnown_eq_error_iff.mpr h

/-- Numbering processors from an offset is the same as raising all numbers by it.  This
holds for searches without a registry, for searches beside a registry whose entries
are raised, and for whole runs of calls.  A search is refused exactly if some number is no
processor's, the first such number is reported, and the registry stays as it is. -/
theorem searches_raised (G : PermGroup) (offset : Nat) :
    (∀ (options : SearchOptions) (mapping : TaskMapping),
      G.representative (raise offset mapping) { options with offset := offset } =
        raisedOutcome offset (raise offset)
          (G.representative mapping { options with offset := 0 })) ∧
    (∀ registry : Registry, registry.WellFormed →
      (registry.raised offset).toList = registry.toList.map (raise offset) ∧
      (∀ (options : SearchOptions) (mapping : TaskMapping),
        G.representativeIn (registry.raised offset) (raise offset mapping)
            { options with offset := offset } =
          raisedOutcome offset (fun (image, next) => (raise offset image, next.raised offset))
            (G.representativeIn registry mapping { options with offset := 0 }) ∧
        G.insertMapping (registry.raised offset) (raise offset mapping)
            { options with offset := offset } =
          raisedOutcome offset (fun (answer, next) => (answer, next.raised offset))
            (G.insertMapping registry mapping { options with offset := 0 })) ∧
      ∀ calls : List RegistryCall,
        G.performAll (registry.raised offset) (calls.map (RegistryCall.raised offset)) =
          ((G.performAll registry calls).1.map fun (call, answer) =>
              (call.raised offset, raisedOutcome offset (RegistryAnswer.raised offset) answer),
            (G.performAll registry calls).2.raised offset)) ∧
    ∀ (options : SearchOptions) (mapping : TaskMapping),
      ((∃ cause, G.Refuses options mapping cause) ↔
        ∃ x ∈ mapping, x < options.offset ∨ options.offset + G.degree ≤ x) ∧
      ∀ cause,
        (G.representative mapping options = .error cause ↔ G.Refuses options mapping cause) ∧
        ∀ registry : Registry,
          (G.representativeIn registry mapping options = .error cause ↔
            G.Refuses options mapping cause) ∧
          (G.insertMapping registry mapping options = .error cause ↔
            G.Refuses options mapping cause) ∧
          ∀ call : RegistryCall, call.search? = some (mapping, options) →
            G.Refuses options mapping cause →
            call.perform G registry = (.error cause, registry) := by
  refine ⟨fun options mapping => ?_, fun registry h => ⟨h.toList_raised offset, ?_, ?_⟩, ?_⟩
  · rw [← raised_of_zero]
    exact searchKnown_raise (fun _ => rfl) _ mapping
  · intro options mapping
    rw [← raised_of_zero]
    exact ⟨representativeIn_raise h mapping _, insertMapping_raise h mapping _⟩
  · exact performAll_raised h
  · intro options mapping
    refine ⟨exists_refuses_iff, fun cause => ⟨searchKnown_eq_error_iff, fun registry => ?_⟩⟩
    exact ⟨representativeIn_eq_error_iff, insertMapping_eq_error_iff,
      fun _ => perform_of_refuses⟩

/-- Processors that are numbered from 1 on, with a registered mapping that is not least. -/
theorem searches_raised_swap :
    let G := generatedBy [swap 3 0 2]
    let options : SearchOptions := { method := .orbit, useSymmetricRange := false }
    let registry := Registry.ofList [[2, 0, 1]]
    let calls : List RegistryCall := [.classify [0, 2, 1] options, .classify [3] options,
      .represent [2, 1] options]
    registry.WellFormed ∧
      (registry.raised 1).toList = [[3, 1, 2]] ∧
      (G.performAll (registry.raised 1) (calls.map (RegistryCall.raised 1))).1.map Prod.snd =
        [.ok (.number false 0), .error (.outOfDomain 4 4), .ok (.representative [1, 2])] ∧
      G.Refuses { options with offset := 1 } [2, 0, 4] (.outOfDomain 0 4) ∧
      (RegistryCall.classify [2, 0, 4] { options with offset := 1 }).perform G registry =
        (.error (.outOfDomain 0 4), registry) := by
  intro G options registry calls
  have hregistry : registry.WellFormed := (Registry.wellFormed_ofList _).1
  have hrefused : G.Refuses { options with offset := 1 } [2, 0, 4] (.outOfDomain 0 4) :=
    ⟨0, by decide, rfl⟩
  obtain ⟨-, hbeside, hrefusals⟩ := searches_raised G 1
  obtain ⟨hlist, -, hruns⟩ := hbeside registry hregistry
  refine ⟨hregistry, hlist, ?_, hrefused, ?_⟩
  · rw [hruns calls]
    decide +kernel
  · obtain ⟨-, hcauses⟩ := hrefusals { options with offset := 1 } [2, 0, 4]
    exact ((hcauses _).2 registry).2.2 _ rfl hrefused

end PermGroup
end ProcessorSymmetry

import ProcessorSymmetry.Proofs.Mapping.Registry
import ProcessorSymmetry.Proofs.Mapping.SearchBeside

/-!
# Classes that are found beside a registry

A search that stops early trusts the registry only so far as to end with one of the
images of its own mapping.  Hence mappings that are given the same number are
equivalent, whatever was registered before and however they were searched for.  A
registry that exact searches fill from the beginning lists least images only, which
makes stopping early harmless: such a run does the same as one that never stops.
-/

namespace ProcessorSymmetry

open Perm

namespace RegistryCall

variable {G : PermGroup} {registry : Registry} {call : RegistryCall} {mapping : TaskMapping}
  {options : SearchOptions}

theorem found_of_search? (h : call.search? = some (mapping, options)) :
    call.found G registry = G.representativeBeside registry mapping options := by
  cases call with
  | register representative => cases h
  | represent _ _ =>
      obtain ⟨rfl, rfl⟩ := Prod.mk.inj (Option.some.inj h)
      rfl
  | classify _ _ =>
      obtain ⟨rfl, rfl⟩ := Prod.mk.inj (Option.some.inj h)
      rfl

/-- A call that looks for a representative by an exact method, with any other settings. -/
def IsExactSearch (offset : Nat) (call : RegistryCall) : Prop :=
  ∃ mapping options, call.search? = some (mapping, options) ∧ options.offset = offset ∧
    (options.method = .greedy ∨ options.method = .orbit)

end RegistryCall

namespace PermGroup

variable {G : PermGroup} {offset : Nat} {registry : Registry} {calls : List RegistryCall}

/-- In a run a mapping was given a number by a search. -/
def IsNumbered (run : List (RegistryCall × Except Error RegistryAnswer) × Registry)
    (mapping : TaskMapping) (id : Nat) : Prop :=
  ∃ call options answer representative, (call, .ok answer) ∈ run.1 ∧
    call.search? = some (mapping, options) ∧
    answer.listed? run.2 = some (id, representative)

/-! ## Mappings with the same number -/

/-- A number belongs to an image of each mapping that has got it. -/
theorem exists_image_of_isNumbered (hregistry : registry.WellFormed)
    (hoffset : ∀ call ∈ calls, ∀ mapping options,
      call.search? = some (mapping, options) → options.offset = offset)
    {mapping : TaskMapping} {id : Nat}
    (h : IsNumbered (G.performAll registry calls) mapping id) :
    ∃ image, (G.performAll registry calls).2.toList[id]? = some image ∧
      G.IsMapping offset mapping ∧ image ∈ G.imagesFrom offset mapping := by
  obtain ⟨call, options, answer, image, hmem, hsearch, hanswer⟩ := h
  obtain ⟨hfinal, -, -, hhistory⟩ := performAll_spec (P := fun _ => True)
    (fun _ _ _ _ _ => True.intro) hregistry True.intro
  obtain ⟨hcall, before, -, -, hanswered⟩ := hhistory call _ hmem
  have hlisted := RegistryAnswer.getElem?_of_listed? hfinal hanswer
  rcases hanswered with ⟨cause, -, herror⟩ | ⟨found, told, number, hfound, hok, htold⟩
  · cases herror
  · obtain rfl := Except.ok.inj hok
    obtain ⟨rfl, rfl⟩ := Prod.mk.inj (Option.some.inj (hanswer.symm.trans htold))
    rw [RegistryCall.found_of_search? hsearch] at hfound
    obtain ⟨hmapping, himage⟩ := mem_imagesFrom_of_representativeBeside hfound
    rw [hoffset call hcall mapping options hsearch] at hmapping himage
    exact ⟨image, hlisted, hmapping, himage⟩

/-- A search for the representative of a mapping to processors gives it a number. -/
theorem exists_isNumbered (hregistry : registry.WellFormed) {call : RegistryCall}
    (hcall : call ∈ calls) {mapping : TaskMapping} {options : SearchOptions}
    (hsearch : call.search? = some (mapping, options))
    (hmapping : G.IsMapping options.offset mapping) :
    ∃ id, IsNumbered (G.performAll registry calls) mapping id := by
  have hanswered : call ∈ (G.performAll registry calls).1.map Prod.fst := by
    rwa [map_fst_performAll]
  obtain ⟨⟨call, answer⟩, hmem, rfl⟩ := List.mem_map.mp hanswered
  obtain ⟨-, -, -, hhistory⟩ := performAll_spec (P := fun _ => True)
    (fun call (_ : call ∈ calls) _ _ _ => True.intro) hregistry True.intro (G := G)
  obtain ⟨-, before, -, -, hanswer⟩ := hhistory call answer hmem
  obtain ⟨image, himage, -⟩ := (G.representativeBeside_spec before mapping options).1 hmapping
  rw [← RegistryCall.found_of_search? hsearch] at himage
  rcases hanswer with ⟨cause, herror, -⟩ | ⟨found, told, id, -, rfl, htold⟩
  · rw [himage] at herror
    cases herror
  · exact ⟨id, call, options, told, found, hmem, hsearch, htold⟩

/-- Whatever a registry contains, a search beside it is only refused for numbers that
are no processor's, and what it answers is an image of its mapping.  In a run over one
offset that starts with any registry, where representatives may also be registered
directly and searches may have any settings, each mapping gets a number, and mappings
with the same number are equivalent. -/
theorem isNumbered_sound (G : PermGroup) :
    (∀ registry mapping options,
      (G.IsMapping options.offset mapping →
        ∃ image, G.representativeBeside registry mapping options = .ok image) ∧
      ∀ image, G.representativeBeside registry mapping options = .ok image →
        image ∈ G.imagesFrom options.offset mapping) ∧
    ∀ (registry : Registry) (calls : List RegistryCall) (offset : Nat),
      registry.WellFormed →
      (∀ call ∈ calls, ∀ mapping options,
        call.search? = some (mapping, options) → options.offset = offset) →
      (∀ call ∈ calls, ∀ mapping options, call.search? = some (mapping, options) →
        G.IsMapping offset mapping →
        ∃ id, IsNumbered (G.performAll registry calls) mapping id) ∧
      ∀ a b id, IsNumbered (G.performAll registry calls) a id →
        IsNumbered (G.performAll registry calls) b id → b ∈ G.imagesFrom offset a := by
  constructor
  · intro registry mapping options
    constructor
    · intro hmapping
      obtain ⟨image, himage, -⟩ := (G.representativeBeside_spec registry mapping options).1 hmapping
      exact ⟨image, himage⟩
    · exact fun image himage => (mem_imagesFrom_of_representativeBeside himage).2
  · intro registry calls offset hregistry hoffset
    constructor
    · intro call hcall mapping options hsearch hmapping
      rw [← hoffset call hcall mapping options hsearch] at hmapping
      exact exists_isNumbered hregistry hcall hsearch hmapping
    · intro a b id ha hb
      obtain ⟨image, hlistedA, -, hmemA⟩ := exists_image_of_isNumbered hregistry hoffset ha
      obtain ⟨image', hlistedB, hb, hmemB⟩ := exists_image_of_isNumbered hregistry hoffset hb
      obtain rfl : image = image' := Option.some.inj (hlistedA.symm.trans hlistedB)
      rw [← imagesFrom_eq hmemA, imagesFrom_eq hmemB]
      exact hb.self_mem_imagesFrom

/-- Beside a representative that is not least and one of something else, on the processors
1, 2 and 3 with the outer ones exchanged. -/
theorem isNumbered_sound_swap :
    let G := generatedBy [swap 3 0 2]
    let options : SearchOptions := { method := .orbit, offset := 1, useSymmetricRange := false }
    let calls : List RegistryCall := [.register [7], .register [3, 2, 3],
      .classify [1, 2, 1] options, .represent [3, 2, 3] options]
    Registry.empty.WellFormed ∧
      (∀ call ∈ calls, ∀ mapping settings,
        call.search? = some (mapping, settings) → settings.offset = 1) ∧
      G.IsMapping 1 [1, 2, 1] ∧
      (∃ id, IsNumbered (G.performAll .empty calls) [1, 2, 1] id) ∧
      IsNumbered (G.performAll .empty calls) [1, 2, 1] 1 ∧
      IsNumbered (G.performAll .empty calls) [3, 2, 3] 1 ∧
      [3, 2, 3] ∈ G.imagesFrom 1 [1, 2, 1] := by
  intro G options calls
  have hoffset : ∀ call ∈ calls, ∀ mapping settings,
      call.search? = some (mapping, settings) → settings.offset = 1 := by
    simp [calls, RegistryCall.search?, options]
  have hmapping : G.IsMapping 1 [1, 2, 1] := by decide
  have ha : IsNumbered (G.performAll .empty calls) [1, 2, 1] 1 :=
    ⟨.classify [1, 2, 1] options, options, .number false 1, [3, 2, 3],
      by decide +kernel, rfl, by decide +kernel⟩
  have hb : IsNumbered (G.performAll .empty calls) [3, 2, 3] 1 :=
    ⟨.represent [3, 2, 3] options, options, .representative [3, 2, 3], [3, 2, 3],
      by decide +kernel, rfl, by decide +kernel⟩
  obtain ⟨hnumbered, hsound⟩ :=
    (isNumbered_sound G).2 .empty calls 1 Registry.wellFormed_empty hoffset
  exact ⟨Registry.wellFormed_empty, hoffset, hmapping,
    hnumbered (.classify [1, 2, 1] options) (by simp [calls]) [1, 2, 1] options rfl hmapping,
    ha, hb, hsound _ _ 1 ha hb⟩

/-! ## Runs of exact searches -/

/-- Everything listed is the least image of some mapping. -/
def ListsLeast (G : PermGroup) (offset : Nat) (registry : Registry) : Prop :=
  ∀ representative ∈ registry.toList,
    ∃ mapping, IsLeast (G.imagesFrom offset mapping) representative

theorem listsLeast_empty (G : PermGroup) (offset : Nat) : G.ListsLeast offset .empty := by
  simp [ListsLeast, Registry.empty, Registry.toList]

/-- Beside least images an exact search finds the least image or refuses the mapping. -/
theorem found_of_listsLeast (hregistry : registry.WellFormed)
    (hleast : G.ListsLeast offset registry) {call : RegistryCall} {mapping : TaskMapping}
    {options : SearchOptions} (hsearch : call.search? = some (mapping, options))
    (hoffset : options.offset = offset)
    (hmethod : options.method = .greedy ∨ options.method = .orbit) :
    (G.IsMapping offset mapping → ∃ least, call.found G registry = .ok least ∧
      IsLeast (G.imagesFrom offset mapping) least) ∧
    (¬G.IsMapping offset mapping → ∃ cause, call.found G registry = .error cause) := by
  subst hoffset
  rw [RegistryCall.found_of_search? hsearch]
  refine ⟨fun hmapping => isLeast_of_representativeBeside ?_ ?_ hmapping,
    (G.representativeBeside_spec registry mapping options).2⟩
  · exact fun image himage => hleast image (hregistry.contains_iff.mp himage)
  · rcases hmethod with hgreedy | horbit
    · simp [hgreedy]
    · simp [horbit]

/-- Exact searches list least images only. -/
theorem listsLeast_perform (hregistry : registry.WellFormed)
    (hleast : G.ListsLeast offset registry) {call : RegistryCall}
    (hcall : call.IsExactSearch offset) : G.ListsLeast offset (call.perform G registry).2 := by
  obtain ⟨mapping, options, hsearch, hoffset, hmethod⟩ := hcall
  obtain ⟨haccepted, hrefused⟩ := found_of_listsLeast hregistry hleast hsearch hoffset hmethod
  obtain ⟨-, hlist, -⟩ := RegistryCall.perform_spec hregistry call (G := G)
  intro representative hmem
  rw [hlist, List.mem_eraseDups, List.mem_append] at hmem
  rcases hmem with hold | hnew
  · exact hleast representative hold
  · by_cases hmapping : G.IsMapping offset mapping
    · obtain ⟨least, hfound, hisLeast⟩ := haccepted hmapping
      obtain rfl : representative = least := by simpa [hfound, Except.toOption] using hnew
      exact ⟨mapping, hisLeast⟩
    · obtain ⟨cause, hfound⟩ := hrefused hmapping
      simp [hfound, Except.toOption] at hnew

/-- A run of exact searches lists least images only, at every call and at its end. -/
theorem performAll_exact_spec (hcalls : ∀ call ∈ calls, call.IsExactSearch offset) :
    (G.performAll .empty calls).2.WellFormed ∧
      G.ListsLeast offset (G.performAll .empty calls).2 ∧
      ∀ call answer, (call, answer) ∈ (G.performAll .empty calls).1 → call ∈ calls ∧
        ∃ before : Registry, before.WellFormed ∧ G.ListsLeast offset before ∧
          call.IsAnswered G before (G.performAll .empty calls).2 answer := by
  obtain ⟨hfinal, hlists, -, hhistory⟩ := performAll_spec (P := G.ListsLeast offset)
    (fun call hcall registry hregistry hlists =>
      listsLeast_perform hregistry hlists (hcalls call hcall))
    Registry.wellFormed_empty (G.listsLeast_empty offset)
  exact ⟨hfinal, hlists, hhistory⟩

/-- In a run of exact searches a number belongs to the least image of each mapping
that has got it. -/
theorem exists_least_of_isNumbered (hcalls : ∀ call ∈ calls, call.IsExactSearch offset)
    {mapping : TaskMapping} {id : Nat} (h : IsNumbered (G.performAll .empty calls) mapping id) :
    ∃ least, (G.performAll .empty calls).2.classId? least = some id ∧
      G.IsMapping offset mapping ∧ IsLeast (G.imagesFrom offset mapping) least := by
  obtain ⟨hfinal, hlists, -⟩ := performAll_exact_spec hcalls (G := G)
  have hoffset : ∀ call ∈ calls, ∀ mapping options,
      call.search? = some (mapping, options) → options.offset = offset := by
    intro call hcall mapping options hsearch
    obtain ⟨_, _, hsearch', hoffset, -⟩ := hcalls call hcall
    obtain ⟨-, rfl⟩ := Prod.mk.inj (Option.some.inj (hsearch.symm.trans hsearch'))
    exact hoffset
  obtain ⟨image, hlisted, hmapping, himage⟩ :=
    exists_image_of_isNumbered Registry.wellFormed_empty hoffset h
  -- The image is listed as the least one of some mapping, which has the same images.
  obtain ⟨other, hother⟩ := hlists image (List.mem_of_getElem? hlisted)
  refine ⟨image, (hfinal _ _).mpr hlisted, hmapping, ?_⟩
  rwa [← imagesFrom_eq himage, imagesFrom_eq hother.1]

/-- In a run of exact searches mappings have the same number exactly if they are equivalent. -/
theorem isNumbered_exact (hcalls : ∀ call ∈ calls, call.IsExactSearch offset)
    {a b : TaskMapping} {i j : Nat} (ha : IsNumbered (G.performAll .empty calls) a i)
    (hb : IsNumbered (G.performAll .empty calls) b j) :
    i = j ↔ b ∈ G.imagesFrom offset a := by
  obtain ⟨hfinal, -, -⟩ := performAll_exact_spec hcalls (G := G)
  obtain ⟨leastA, hi, -, hleastA⟩ := exists_least_of_isNumbered hcalls ha
  obtain ⟨leastB, hj, hmapping, hleastB⟩ := exists_least_of_isNumbered hcalls hb
  rw [← eq_least_iff hmapping hleastA hleastB]
  constructor
  · rintro rfl
    exact Option.some.inj (((hfinal _ _).mp hi).symm.trans ((hfinal _ _).mp hj))
  · rintro rfl
    exact Option.some.inj (hi.symm.trans hj)

/-- What an exact search registers, given the least images. -/
def exactTarget (G : PermGroup) (offset : Nat) (least : TaskMapping → TaskMapping)
    (call : RegistryCall) : Option TaskMapping :=
  call.search?.bind fun (mapping, _) =>
    if G.IsMapping offset mapping then some (least mapping) else none

theorem filterMap_exactTarget (least : TaskMapping → TaskMapping) (calls : List RegistryCall) :
    calls.filterMap (G.exactTarget offset least) =
      (((calls.filterMap RegistryCall.search?).map Prod.fst).filter
        (G.IsMapping offset ·)).map least := by
  induction calls with
  | nil => rfl
  | cons call rest ih =>
      cases hsearch : call.search? with
      | none => simp [exactTarget, hsearch, ih]
      | some search =>
          by_cases hmapping : G.IsMapping offset search.1
          · simp [exactTarget, hsearch, hmapping, ih]
          · simp [exactTarget, hsearch, hmapping, ih]

section Least

variable {least : TaskMapping → TaskMapping}
  (hleast : ∀ mapping, G.IsMapping offset mapping →
    IsLeast (G.imagesFrom offset mapping) (least mapping))
  (hcalls : ∀ call ∈ calls, call.IsExactSearch offset)

include hleast

/-- What an exact search finds does not depend on the registry. -/
theorem found_eq_least (hregistry : registry.WellFormed) (hlists : G.ListsLeast offset registry)
    {call : RegistryCall} (hcall : call.IsExactSearch offset) {mapping : TaskMapping}
    {options : SearchOptions} (hsearch : call.search? = some (mapping, options)) :
    (G.IsMapping offset mapping → call.found G registry = .ok (least mapping)) ∧
    (¬G.IsMapping offset mapping → ∃ cause, call.found G registry = .error cause) := by
  obtain ⟨_, _, hsearch', hoffset, hmethod⟩ := hcall
  obtain ⟨rfl, rfl⟩ := Prod.mk.inj (Option.some.inj (hsearch.symm.trans hsearch'))
  obtain ⟨haccepted, hrefused⟩ := found_of_listsLeast hregistry hlists hsearch hoffset hmethod
  refine ⟨fun hmapping => ?_, hrefused⟩
  obtain ⟨found, hfound, hisLeast⟩ := haccepted hmapping
  rw [hfound, hisLeast.unique (hleast mapping hmapping)]

include hcalls

/-- In a run of exact searches each answer is about the least image. -/
theorem answer_exact {call : RegistryCall} {answer : Except Error RegistryAnswer}
    {mapping : TaskMapping} {options : SearchOptions}
    (hmem : (call, answer) ∈ (G.performAll .empty calls).1)
    (hsearch : call.search? = some (mapping, options)) :
    (G.IsMapping offset mapping → ∃ told id, answer = .ok told ∧
      told.listed? (G.performAll .empty calls).2 = some (id, least mapping)) ∧
    (¬G.IsMapping offset mapping → ∃ cause, answer = .error cause) := by
  obtain ⟨-, -, hhistory⟩ := performAll_exact_spec hcalls (G := G)
  obtain ⟨hcall, before, hbefore, hlists, hanswered⟩ := hhistory call answer hmem
  obtain ⟨haccepted, hrefused⟩ :=
    found_eq_least hleast hbefore hlists (hcalls call hcall) hsearch
  rcases hanswered with ⟨cause, herror, rfl⟩ | ⟨found, told, id, hfound, rfl, htold⟩
  · refine ⟨fun hmapping => ?_, fun _ => ⟨cause, rfl⟩⟩
    rw [haccepted hmapping] at herror
    cases herror
  · constructor
    · intro hmapping
      rw [haccepted hmapping] at hfound
      obtain rfl := Except.ok.inj hfound
      exact ⟨told, id, rfl, htold⟩
    · intro hmapping
      obtain ⟨cause, herror⟩ := hrefused hmapping
      rw [hfound] at herror
      cases herror

/-- A run of exact searches lists the least images in the order of their first occurrence. -/
theorem toList_exact :
    (G.performAll .empty calls).2.toList =
      ((((calls.filterMap RegistryCall.search?).map Prod.fst).filter
        (G.IsMapping offset ·)).map least).eraseDups := by
  rw [← filterMap_exactTarget]
  refine toList_performAll (P := G.ListsLeast offset) (fun call hcall registry => ?_)
    (fun call hcall registry hregistry hlists => ?_)
    Registry.wellFormed_empty (G.listsLeast_empty offset)
  · exact fun hregistry hlists => listsLeast_perform hregistry hlists (hcalls call hcall)
  · obtain ⟨mapping, options, hsearch, -⟩ := hcalls call hcall
    obtain ⟨haccepted, hrefused⟩ :=
      found_eq_least hleast hregistry hlists (hcalls call hcall) hsearch
    by_cases hmapping : G.IsMapping offset mapping
    · rw [haccepted hmapping]
      simp [exactTarget, hsearch, hmapping, Except.toOption]
    · obtain ⟨cause, hcause⟩ := hrefused hmapping
      rw [hcause]
      simp [exactTarget, hsearch, hmapping, Except.toOption]

end Least

/-- A run over one offset starts with an empty registry and only makes exact searches,
with any other settings.  Each call for a mapping to processors is answered with its
least image or with the number of this image, and all other calls are refused.  The
registry lists the least images in the order of their first occurrence, mappings have
the same number exactly if they are equivalent, and with the calls in another order
the same representatives are registered. -/
theorem performAll_exact (G : PermGroup) (offset : Nat) :
    ∃ least : TaskMapping → TaskMapping,
      (∀ mapping, G.IsMapping offset mapping →
        IsLeast (G.imagesFrom offset mapping) (least mapping)) ∧
      ∀ calls : List RegistryCall, (∀ call ∈ calls, call.IsExactSearch offset) →
        let run := G.performAll .empty calls
        let mappings := (calls.filterMap RegistryCall.search?).map Prod.fst
        run.1.map Prod.fst = calls ∧
        (∀ call answer mapping options, (call, answer) ∈ run.1 →
          call.search? = some (mapping, options) →
          (G.IsMapping offset mapping → ∃ told id, answer = .ok told ∧
            told.listed? run.2 = some (id, least mapping)) ∧
          (¬G.IsMapping offset mapping → ∃ cause, answer = .error cause)) ∧
        run.2.toList = ((mappings.filter (G.IsMapping offset ·)).map least).eraseDups ∧
        (∀ a b i j, IsNumbered run a i → IsNumbered run b j →
          (i = j ↔ b ∈ G.imagesFrom offset a)) ∧
        ∀ reordered : List RegistryCall, reordered.Perm calls → ∀ representative,
          representative ∈ (G.performAll .empty reordered).2.toList ↔
            representative ∈ run.2.toList := by
  choose! least hleast using fun mapping (h : G.IsMapping offset mapping) => h.exists_isLeast
  refine ⟨least, hleast, fun calls hcalls => ⟨map_fst_performAll G .empty calls, ?_, ?_, ?_, ?_⟩⟩
  · exact fun call answer mapping options => answer_exact hleast hcalls
  · exact toList_exact hleast hcalls
  · exact fun a b i j => isNumbered_exact hcalls
  · intro reordered hperm representative
    have hreordered : ∀ call ∈ reordered, call.IsExactSearch offset :=
      fun call hcall => hcalls call (hperm.mem_iff.mp hcall)
    rw [toList_exact hleast hreordered, toList_exact hleast hcalls, List.mem_eraseDups,
      List.mem_eraseDups]
    exact ((((hperm.filterMap _).map _).filter _).map _).mem_iff

/-- Two mappings of one class by different methods, and one that is refused. -/
theorem performAll_exact_swap :
    let G := generatedBy [swap 3 0 2]
    let settings : SearchOptions := { offset := 1, useSymmetricRange := false }
    let calls : List RegistryCall := [.represent [3, 2, 3] { settings with method := .orbit },
      .classify [9] settings, .classify [1, 2, 1] settings]
    (∀ call ∈ calls, call.IsExactSearch 1) ∧ G.IsMapping 1 [3, 2, 3] ∧
      ¬G.IsMapping 1 [9] ∧ (G.performAll .empty calls).2.toList = [[1, 2, 1]] ∧
      IsLeast (G.imagesFrom 1 [3, 2, 3]) [1, 2, 1] ∧
      [1, 2, 1] ∈ (G.performAll .empty calls.reverse).2.toList := by
  intro G settings calls
  have hcalls : ∀ call ∈ calls, call.IsExactSearch 1 := by
    simp [calls, RegistryCall.IsExactSearch, RegistryCall.search?, settings]
  have hmapping : G.IsMapping 1 [3, 2, 3] := by decide
  have hlisted : (G.performAll .empty calls).2.toList = [[1, 2, 1]] := by
    decide +kernel
  obtain ⟨least, hleast, hruns⟩ := performAll_exact G 1
  obtain ⟨-, -, hlist, -, hreordered⟩ := hruns calls hcalls
  have hsame : least [3, 2, 3] = [1, 2, 1] := by
    have hmem : least [3, 2, 3] ∈ (G.performAll .empty calls).2.toList := by
      rw [hlist, List.mem_eraseDups]
      exact List.mem_map_of_mem (List.mem_filter.mpr ⟨List.mem_cons_self, decide_eq_true hmapping⟩)
    rwa [hlisted, List.mem_singleton] at hmem
  refine ⟨hcalls, hmapping, by decide, hlisted, hsame ▸ hleast _ hmapping, ?_⟩
  rw [hreordered calls.reverse (List.reverse_perm calls), hlisted]
  exact List.mem_singleton_self _

end PermGroup
end ProcessorSymmetry

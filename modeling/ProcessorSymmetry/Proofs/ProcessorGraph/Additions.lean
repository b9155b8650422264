import ProcessorSymmetry.ProcessorGraph.Record
import ProcessorSymmetry.Proofs.ProcessorGraph.Channels

/-!
# What additions change

Adding a channel adds it to the channels that can be asked for and changes
nothing else that can be asked.  Adding a processor adds its label.
-/

namespace ProcessorSymmetry

/-- Labels that have a number keep it. -/
theorem getElem?_internLabel {labels : Array String} (h : labels.toList.Nodup) (label : String)
    {l : Nat} (hl : l < labels.size) : (internLabel labels label).2[l]? = labels[l]? := by
  have hlength : l < labels.toList.length := by simpa using hl
  have hkept := List.prefix_iff_getElem?.mp (internLabel_spec h label).2.1 l hlength
  rw [← Array.getElem?_toList, ← Array.getElem?_toList, hkept, List.getElem?_eq_getElem hlength]

namespace ProcessorGraph

variable {g h f : ProcessorGraph} {c : Channel} {i j source target : Nat} {label other : String}

/-! ## Processors that stay as they are -/

/-- `h` has the processors of `g` with their labels, and directed channels
exactly if `g` has. -/
structure SameProcessors (g h : ProcessorGraph) : Prop where
  directed_eq : h.directed = g.directed
  processors_eq : h.processors = g.processors
  processorLabels_eq : h.processorLabels = g.processorLabels

theorem SameProcessors.refl (g : ProcessorGraph) : g.SameProcessors g :=
  ⟨rfl, rfl, rfl⟩

theorem SameProcessors.trans (hgh : g.SameProcessors h) (hhf : h.SameProcessors f) :
    g.SameProcessors f where
  directed_eq := hhf.directed_eq.trans hgh.directed_eq
  processors_eq := hhf.processors_eq.trans hgh.processors_eq
  processorLabels_eq := hhf.processorLabels_eq.trans hgh.processorLabels_eq

theorem SameProcessors.processorCount_eq (hgh : g.SameProcessors h) :
    h.processorCount = g.processorCount :=
  congrArg Array.size hgh.processors_eq

theorem SameProcessors.labelOf_eq (hgh : g.SameProcessors h) (i : Nat) :
    h.labelOf i = g.labelOf i := by
  simp only [labelOf, hgh.processors_eq, hgh.processorLabels_eq]

theorem SameProcessors.ends_eq (hgh : g.SameProcessors h) (i j : Nat) :
    h.ends i j = g.ends i j := by
  simp only [ends, hgh.directed_eq]

theorem sameProcessors_insertChannel (g : ProcessorGraph) (c : Channel) :
    g.SameProcessors (g.insertChannel c).2 := by
  rcases g.insertChannel_eq c with ⟨-, heq⟩ | ⟨-, heq⟩
  · rw [heq]
    exact .refl g
  · rw [heq]
    exact ⟨rfl, rfl, rfl⟩

/-! ## Channels -/

/-- A channel can be asked for if one with this label and these ends is stored. -/
theorem WellFormed.hasChannel_iff_exists (hg : g.WellFormed) :
    g.hasChannel i j label = true ↔ ∃ c ∈ g.channels.toList,
      g.ends c.source c.target = g.ends i j ∧ g.channelLabels[c.label]? = some label := by
  rw [hg.hasChannel_iff]
  constructor
  · rintro ⟨l, hl, hmem⟩
    obtain ⟨c, hc, hkey⟩ := mem_labelsOn.mp hmem
    obtain ⟨hends, rfl⟩ := key_eq_key_iff.mp hkey
    exact ⟨c, hc, hends, hl⟩
  · rintro ⟨c, hc, hends, hl⟩
    exact ⟨c.label, hl, mem_labelsOn.mpr ⟨c, hc, key_eq_key_iff.mpr ⟨hends, rfl⟩⟩⟩

theorem WellFormed.getElem?_internChannelLabel (hg : g.WellFormed) (label : String)
    (hc : c ∈ g.channels.toList) :
    (g.internChannelLabel label).2.channelLabels[c.label]? = g.channelLabels[c.label]? :=
  getElem?_internLabel hg.channelLabels_nodup label (hg.channel_lt c hc).2.2

theorem WellFormed.hasChannel_internChannelLabel (hg : g.WellFormed) (label : String) :
    (g.internChannelLabel label).2.hasChannel i j other = g.hasChannel i j other := by
  rw [Bool.eq_iff_iff, (hg.internChannelLabel label).hasChannel_iff_exists,
    hg.hasChannel_iff_exists]
  constructor
  · rintro ⟨c, hc, hends, hl⟩
    exact ⟨c, hc, hends, (hg.getElem?_internChannelLabel label hc).symm.trans hl⟩
  · rintro ⟨c, hc, hends, hl⟩
    exact ⟨c, hc, hends, (hg.getElem?_internChannelLabel label hc).trans hl⟩

/-- Inserting a channel adds the channel unless there is one already. -/
theorem WellFormed.hasChannel_insertChannel (hg : g.WellFormed)
    (hsource : c.source < g.processorCount) (htarget : c.target < g.processorCount)
    (hlabel : g.channelLabels[c.label]? = some label) :
    (g.insertChannel c).2.hasChannel i j other = true ↔
      g.hasChannel i j other = true ∨
        other = label ∧ g.ends c.source c.target = g.ends i j := by
  have hinserted : (g.insertChannel c).2.WellFormed :=
    hg.insertChannel hsource htarget (Array.getElem?_eq_some_iff.mp hlabel).1
  have hends := (g.sameProcessors_insertChannel c).ends_eq
  rw [hinserted.hasChannel_iff_exists, hg.hasChannel_iff_exists, channelLabels_insertChannel]
  simp only [hends]
  rcases g.insertChannel_eq c with ⟨hold, heq⟩ | ⟨-, heq⟩
  · -- The channel that is there already has the same ends and the same label.
    rw [heq]
    obtain ⟨d, hd, hkey⟩ := (hg.keys_iff _).mp hold
    obtain ⟨hdends, hdlabel⟩ := key_eq_key_iff.mp hkey
    constructor
    · exact .inl
    · rintro (hfound | ⟨rfl, hcends⟩)
      · exact hfound
      · exact ⟨d, hd, hdends.trans hcends, by rw [hdlabel, hlabel]⟩
  · rw [heq]
    simp only [Array.toList_push, List.mem_append, List.mem_singleton]
    constructor
    · rintro ⟨d, hd | rfl, hdends, hdlabel⟩
      · exact .inl ⟨d, hd, hdends, hdlabel⟩
      · exact .inr ⟨Option.some.inj (hdlabel.symm.trans hlabel), hdends⟩
    · rintro (⟨d, hd, hdends, hdlabel⟩ | ⟨rfl, hcends⟩)
      · exact ⟨d, .inl hd, hdends, hdlabel⟩
      · exact ⟨c, .inr rfl, hcends, hlabel⟩

/-- Adding a channel between processors of the graph succeeds and adds this channel only. -/
theorem WellFormed.exists_addRecorded (hg : g.WellFormed) {r : ChannelRecord}
    (hsource : r.source < g.processorCount) (htarget : r.target < g.processorCount) :
    ∃ h, g.addRecorded r = .ok h ∧ h.WellFormed ∧ g.SameProcessors h ∧
      ∀ i j label, h.hasChannel i j label = true ↔ g.hasChannel i j label = true ∨
        r.label = label ∧ g.ends r.source r.target = g.ends i j := by
  let interned := g.internChannelLabel r.label
  let c : Channel := ⟨r.source, r.target, interned.1⟩
  have hinterned : interned.2.WellFormed := hg.internChannelLabel r.label
  have hlabel : interned.2.channelLabels[c.label]? = some r.label :=
    (internLabel_spec hg.channelLabels_nodup r.label).2.2
  have hlt := (Array.getElem?_eq_some_iff.mp hlabel).1
  have hsame : g.SameProcessors (interned.2.insertChannel c).2 :=
    SameProcessors.trans (h := interned.2) ⟨rfl, rfl, rfl⟩
      (interned.2.sameProcessors_insertChannel c)
  refine ⟨(interned.2.insertChannel c).2, ?_, hinterned.insertChannel hsource htarget hlt,
    hsame, ?_⟩
  · rw [addRecorded, ProcessorGraph.addChannel, check_eq_ok_iff.mpr hsource,
      check_eq_ok_iff.mpr htarget]
    rfl
  · intro i j label
    rw [hinterned.hasChannel_insertChannel hsource htarget hlabel,
      hg.hasChannel_internChannelLabel]
    exact or_congr_right (and_congr_left' eq_comm)

/-! ## Listed channels -/

theorem WellFormed.getElem?_channelLabel (hg : g.WellFormed) (hc : c ∈ g.channels.toList) :
    g.channelLabels[c.label]? = some (g.channelLabel c) := by
  have hlt := (hg.channel_lt c hc).2.2
  simp [channelLabel, hlt]

theorem WellFormed.lt_of_mem_channelList (hg : g.WellFormed)
    (h : (i, j, label) ∈ g.channelList) : i < g.processorCount ∧ j < g.processorCount := by
  obtain ⟨c, hc, heq⟩ := List.mem_map.mp h
  simp only [Prod.mk.injEq] at heq
  obtain ⟨rfl, rfl, rfl⟩ := heq
  exact ⟨(hg.channel_lt c hc).1, (hg.channel_lt c hc).2.1⟩

/-- In an undirected graph there are the listed channels, each of them in both directions. -/
theorem WellFormed.hasChannel_iff_mem_channelList (hg : g.WellFormed)
    (hundirected : g.directed = false) :
    g.hasChannel i j label = true ↔
      (i, j, label) ∈ g.channelList ∨ (j, i, label) ∈ g.channelList := by
  have hlisted : ∀ a b, (a, b, label) ∈ g.channelList ↔ ∃ c ∈ g.channels.toList,
      c.source = a ∧ c.target = b ∧ g.channelLabels[c.label]? = some label := by
    intro a b
    simp only [channelList, List.mem_map, Prod.mk.injEq]
    refine exists_congr fun c => and_congr_right fun hc => ?_
    rw [hg.getElem?_channelLabel hc, Option.some.injEq]
  rw [hg.hasChannel_iff_exists, hlisted, hlisted, ← exists_or]
  simp only [ends_eq_ends_iff, hundirected, true_and]
  refine exists_congr fun c => ?_
  tauto

/-! ## Labels of processors -/

theorem processors_addProcessor (g : ProcessorGraph) (label : String) :
    (g.addProcessor label).processors = g.processors.push (internLabel g.processorLabels label).1 :=
  rfl

/-- The new processor has the given label. -/
theorem WellFormed.labelOf_addProcessor_new (hg : g.WellFormed) (label : String) :
    (g.addProcessor label).labelOf g.processorCount = label := by
  have hnew := (internLabel_spec hg.processorLabels_nodup label).2.2
  rw [labelOf, processors_addProcessor, processorCount, Array.getElem?_push_size, Option.bind_some]
  exact congrArg (·.getD "") hnew

/-- The processors that are there already keep their labels. -/
theorem WellFormed.labelOf_addProcessor_of_lt (hg : g.WellFormed) (label : String)
    (hi : i < g.processorCount) : (g.addProcessor label).labelOf i = g.labelOf i := by
  obtain ⟨l, hl, -⟩ := hg.getElem?_processors hi
  have hlt := hg.processor_lt l (Array.mem_toList_iff.mpr (Array.mem_of_getElem? hl))
  have hne : i ≠ g.processors.size := Nat.ne_of_lt hi
  rw [labelOf, labelOf, processors_addProcessor, Array.getElem?_push, if_neg hne, hl]
  exact congrArg (·.getD "") (getElem?_internLabel hg.processorLabels_nodup label hlt)

theorem WellFormed.foldl_addProcessor (hg : g.WellFormed) (labels : List String) :
    (labels.foldl ProcessorGraph.addProcessor g).WellFormed := by
  induction labels generalizing g with
  | nil => exact hg
  | cons label rest ih => exact ih (hg.addProcessor label)

theorem processorCount_foldl_addProcessor (g : ProcessorGraph) (labels : List String) :
    (labels.foldl addProcessor g).processorCount = g.processorCount + labels.length := by
  induction labels generalizing g with
  | nil => rfl
  | cons label rest ih =>
      rw [List.foldl_cons, ih, processorCount_addProcessor, List.length_cons]
      omega

theorem WellFormed.labelOf_foldl_addProcessor_of_lt (hg : g.WellFormed) (labels : List String)
    (hi : i < g.processorCount) :
    (labels.foldl ProcessorGraph.addProcessor g).labelOf i = g.labelOf i := by
  induction labels generalizing g with
  | nil => rfl
  | cons label rest ih =>
      have hnext : i < (g.addProcessor label).processorCount := by
        rw [processorCount_addProcessor]
        exact Nat.lt_succ_of_lt hi
      rw [List.foldl_cons, ih (hg.addProcessor label) hnext, hg.labelOf_addProcessor_of_lt label hi]

/-- Processors that are added in turn have the given labels in turn. -/
theorem WellFormed.labelOf_foldl_addProcessor (hg : g.WellFormed) {labels : List String} {l : Nat}
    (hl : labels[l]? = some label) :
    (labels.foldl ProcessorGraph.addProcessor g).labelOf (g.processorCount + l) = label := by
  induction labels generalizing g l with
  | nil => simp at hl
  | cons first rest ih =>
      have hcount := processorCount_addProcessor g first
      cases l with
      | zero =>
          obtain rfl : first = label := by simpa using hl
          have hlt : g.processorCount < (g.addProcessor first).processorCount := by omega
          rw [List.foldl_cons, Nat.add_zero,
            (hg.addProcessor first).labelOf_foldl_addProcessor_of_lt rest hlt,
            hg.labelOf_addProcessor_new]
      | succ l =>
          have hrest := ih (hg.addProcessor first) (by simpa using hl)
          rw [hcount] at hrest
          rw [List.foldl_cons, ← hrest]
          congr 1
          omega

theorem hasChannel_empty (directed : Bool) : (empty directed).hasChannel i j label = false := by
  simp [hasChannel, empty]

/-- Adding processors adds no channels. -/
theorem hasChannel_foldl_addProcessor (g : ProcessorGraph) (labels : List String) :
    (labels.foldl addProcessor g).hasChannel i j label = g.hasChannel i j label := by
  induction labels generalizing g with
  | nil => rfl
  | cons first rest ih => exact ih (g.addProcessor first)

theorem directed_foldl_addProcessor (g : ProcessorGraph) (labels : List String) :
    (labels.foldl addProcessor g).directed = g.directed := by
  induction labels generalizing g with
  | nil => rfl
  | cons first rest ih => exact ih (g.addProcessor first)

end ProcessorGraph
end ProcessorSymmetry

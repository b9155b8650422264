import Mathlib.Data.List.Nodup
import ProcessorSymmetry.ProcessorGraph.Symmetry
import ProcessorSymmetry.Proofs.Checks

/-!
# Well-formed processor graphs

In a well-formed graph the numbers of labels and processors mean something, no
label is numbered twice, the channels and their keys agree, and a remembered
automorphism group belongs to the graph as it is now.  Adding processors and
channels keeps graphs well-formed.
-/

namespace ProcessorSymmetry

/-- A label gets its number, and the labels before it keep theirs. -/
theorem internLabel_spec {labels : Array String} (h : labels.toList.Nodup) (label : String) :
    (internLabel labels label).2.toList.Nodup ∧
      labels.toList <+: (internLabel labels label).2.toList ∧
      (internLabel labels label).2[(internLabel labels label).1]? = some label := by
  rw [internLabel]
  split
  · rename_i i hi
    refine ⟨h, List.prefix_refl _, ?_⟩
    obtain ⟨hlt, hlabel, -⟩ := Array.findIdx?_eq_some_iff_getElem.mp hi
    rw [Array.getElem?_eq_getElem hlt, beq_iff_eq.mp hlabel]
  · rename_i hnone
    have hnew : label ∉ labels.toList := by
      intro hmem
      have hall := Array.findIdx?_eq_none_iff.mp hnone label (Array.mem_def.mpr hmem)
      simp at hall
    refine ⟨?_, ?_, by simp⟩
    · rw [Array.toList_push, ← List.concat_eq_append]
      exact h.concat hnew
    · rw [Array.toList_push]
      exact List.prefix_append _ _

theorem internLabel_lt {labels : Array String} (h : labels.toList.Nodup) (label : String) :
    (internLabel labels label).1 < (internLabel labels label).2.size :=
  (Array.getElem?_eq_some_iff.mp (internLabel_spec h label).2.2).1

theorem size_le_internLabel {labels : Array String} (h : labels.toList.Nodup) (label : String) :
    labels.size ≤ (internLabel labels label).2.size := by
  have hlength := (internLabel_spec h label).2.1.length_le
  rwa [Array.length_toList, Array.length_toList] at hlength

namespace ProcessorGraph

variable {g h : ProcessorGraph} {c : Channel} {source target : Nat} {label : String}

/-- Numbers refer to something, labels are numbered once, channels are listed
once and found by their keys, and what is remembered is up to date. -/
structure WellFormed (g : ProcessorGraph) : Prop where
  processorLabels_nodup : g.processorLabels.toList.Nodup
  channelLabels_nodup : g.channelLabels.toList.Nodup
  processor_lt : ∀ l ∈ g.processors.toList, l < g.processorLabels.size
  channel_lt : ∀ c ∈ g.channels.toList, c.source < g.processorCount ∧
    c.target < g.processorCount ∧ c.label < g.channelLabels.size
  keys_iff : ∀ k, g.keys.contains k = true ↔ ∃ c ∈ g.channels.toList, g.key c = k
  keys_nodup : (g.channels.toList.map g.key).Nodup
  cached_eq : ∀ G, g.cached = some G → ∃ finder, G = g.automorphismsWith finder

theorem wellFormed_empty (directed : Bool) : (empty directed).WellFormed where
  processorLabels_nodup := List.nodup_nil
  channelLabels_nodup := List.nodup_nil
  processor_lt := by simp [empty]
  channel_lt := by simp [empty]
  keys_iff := by simp [empty, Std.TreeSet.empty_eq_emptyc]
  keys_nodup := List.nodup_nil
  cached_eq := by simp [empty]

/-- Whatever finder is used, the answer is the group that some finder finds now. -/
theorem WellFormed.exists_automorphisms_eq (hg : g.WellFormed) (finder : AutomorphismFinder) :
    ∃ used, g.automorphisms finder = g.automorphismsWith used := by
  rw [automorphisms]
  split
  · rename_i G hG
    exact hg.cached_eq G hG
  · exact ⟨finder, rfl⟩

theorem WellFormed.remember (hg : g.WellFormed) (finder : AutomorphismFinder) :
    (g.remember finder).WellFormed where
  processorLabels_nodup := hg.processorLabels_nodup
  channelLabels_nodup := hg.channelLabels_nodup
  processor_lt := hg.processor_lt
  channel_lt := hg.channel_lt
  keys_iff := hg.keys_iff
  keys_nodup := hg.keys_nodup
  cached_eq := by
    intro G hG
    obtain ⟨used, hused⟩ := hg.exists_automorphisms_eq finder
    exact ⟨used, (Option.some.inj hG).symm.trans hused⟩

/-! ## Processors -/

theorem processorCount_addProcessor (g : ProcessorGraph) (label : String) :
    (g.addProcessor label).processorCount = g.processorCount + 1 := by
  simp [addProcessor, processorCount]

theorem WellFormed.addProcessor (hg : g.WellFormed) (label : String) :
    (g.addProcessor label).WellFormed where
  processorLabels_nodup := (internLabel_spec hg.processorLabels_nodup label).1
  channelLabels_nodup := hg.channelLabels_nodup
  processor_lt := by
    intro l hl
    rw [ProcessorGraph.addProcessor, Array.toList_push] at hl
    rcases List.mem_append.mp hl with hl | hl
    · exact Nat.lt_of_lt_of_le (hg.processor_lt l hl)
        (size_le_internLabel hg.processorLabels_nodup label)
    · rw [List.mem_singleton.mp hl]
      exact internLabel_lt hg.processorLabels_nodup label
  channel_lt := by
    intro c hc
    obtain ⟨hsource, htarget, hlabel⟩ := hg.channel_lt c hc
    rw [processorCount_addProcessor]
    exact ⟨Nat.lt_succ_of_lt hsource, Nat.lt_succ_of_lt htarget, hlabel⟩
  keys_iff := hg.keys_iff
  keys_nodup := hg.keys_nodup
  cached_eq := by
    intro G hG
    cases hG

/-! ## Channels -/

/-- Numbering a channel label changes nothing that is looked at otherwise. -/
theorem WellFormed.internChannelLabel (hg : g.WellFormed) (label : String) :
    (g.internChannelLabel label).2.WellFormed where
  processorLabels_nodup := hg.processorLabels_nodup
  channelLabels_nodup := (internLabel_spec hg.channelLabels_nodup label).1
  processor_lt := hg.processor_lt
  channel_lt := by
    intro c hc
    obtain ⟨hsource, htarget, hlabel⟩ := hg.channel_lt c hc
    exact ⟨hsource, htarget, Nat.lt_of_lt_of_le hlabel
      (size_le_internLabel hg.channelLabels_nodup label)⟩
  keys_iff := hg.keys_iff
  keys_nodup := hg.keys_nodup
  cached_eq := hg.cached_eq

theorem insertChannel_eq (g : ProcessorGraph) (c : Channel) :
    (g.keys.contains (g.key c) = true ∧ (g.insertChannel c).2 = g) ∨
      g.keys.contains (g.key c) = false ∧ (g.insertChannel c).2 =
        { g with
          channels := g.channels.push c
          keys := g.keys.insert (g.key c)
          cached := none } := by
  rw [insertChannel]
  split
  · exact .inl ⟨‹_›, rfl⟩
  · rename_i hnew
    exact .inr ⟨Bool.eq_false_iff.mpr hnew, rfl⟩

@[simp] theorem processorCount_insertChannel (g : ProcessorGraph) (c : Channel) :
    (g.insertChannel c).2.processorCount = g.processorCount := by
  rcases g.insertChannel_eq c with ⟨-, heq⟩ | ⟨-, heq⟩
  · rw [heq]
  · rw [heq]
    rfl

@[simp] theorem channelLabels_insertChannel (g : ProcessorGraph) (c : Channel) :
    (g.insertChannel c).2.channelLabels = g.channelLabels := by
  rcases g.insertChannel_eq c with ⟨-, heq⟩ | ⟨-, heq⟩
  · rw [heq]
  · rw [heq]

theorem WellFormed.insertChannel (hg : g.WellFormed) (hsource : c.source < g.processorCount)
    (htarget : c.target < g.processorCount) (hlabel : c.label < g.channelLabels.size) :
    (g.insertChannel c).2.WellFormed := by
  rcases g.insertChannel_eq c with ⟨-, heq⟩ | ⟨hnew, heq⟩
  · rwa [heq]
  · rw [heq]
    constructor
    · exact hg.processorLabels_nodup
    · exact hg.channelLabels_nodup
    · exact hg.processor_lt
    · intro d hd
      rw [Array.toList_push] at hd
      rcases List.mem_append.mp hd with hd | hd
      · exact hg.channel_lt d hd
      · rw [List.mem_singleton.mp hd]
        exact ⟨hsource, htarget, hlabel⟩
    · intro k
      rw [Std.TreeSet.contains_insert, Bool.or_eq_true, hg.keys_iff, Array.toList_push, beq_iff_eq,
        Std.LawfulEqCmp.compare_eq_iff_eq]
      constructor
      · rintro (rfl | ⟨d, hd, hdk⟩)
        · exact ⟨c, by simp, rfl⟩
        · exact ⟨d, List.mem_append_left _ hd, hdk⟩
      · rintro ⟨d, hd, hdk⟩
        rcases List.mem_append.mp hd with hd | hd
        · exact .inr ⟨d, hd, hdk⟩
        · rw [List.mem_singleton.mp hd] at hdk
          exact .inl hdk
    · rw [Array.toList_push, List.map_append, List.map_singleton, ← List.concat_eq_append]
      apply hg.keys_nodup.concat
      intro hmem
      obtain ⟨d, hd, hdk⟩ := List.mem_map.mp hmem
      have hold : g.keys.contains (g.key c) = true := (hg.keys_iff _).mpr ⟨d, hd, hdk⟩
      rw [hnew] at hold
      cases hold
    · intro G hG
      cases hG

theorem check_eq_ok_iff {pe : Nat} : g.check pe = .ok () ↔ pe < g.processorCount := by
  rw [check]
  split
  · rename_i hpe
    simp [hpe]
  · rename_i hpe
    simp [hpe]

theorem WellFormed.addChannel (hg : g.WellFormed) {new : Bool}
    (hadd : g.addChannel source target label = .ok (new, h)) : h.WellFormed := by
  obtain ⟨_, hsource, hadd⟩ := bind_eq_ok_iff.mp hadd
  obtain ⟨_, htarget, hadd⟩ := bind_eq_ok_iff.mp hadd
  have hinterned := hg.internChannelLabel label
  have heq : ((g.internChannelLabel label).2.insertChannel
      ⟨source, target, (g.internChannelLabel label).1⟩).2 = h :=
    congrArg Prod.snd (Except.ok.inj hadd)
  rw [← heq]
  apply hinterned.insertChannel
  · exact check_eq_ok_iff.mp hsource
  · exact check_eq_ok_iff.mp htarget
  · exact internLabel_lt hg.channelLabels_nodup label

/-! ## Many channels with one label -/

/-- The graph with channels between pairs of processors, all with the label of one number. -/
def insertAll (g : ProcessorGraph) (i : Nat) (pairs : List (Nat × Nat)) : ProcessorGraph :=
  pairs.foldl (fun g pair => (g.insertChannel ⟨pair.1, pair.2, i⟩).2) g

theorem connect_snd (g : ProcessorGraph) (label : String) (pairs : List (Nat × Nat)) :
    (g.connect label pairs).2 =
      (g.internChannelLabel label).2.insertAll (g.internChannelLabel label).1 pairs := by
  rw [connect, insertAll]
  exact (List.foldl_hom Prod.snd fun _ _ => rfl).symm

theorem WellFormed.insertAll (hg : g.WellFormed) {i : Nat} (hi : i < g.channelLabels.size)
    {pairs : List (Nat × Nat)}
    (hpairs : ∀ pair ∈ pairs, pair.1 < g.processorCount ∧ pair.2 < g.processorCount) :
    (g.insertAll i pairs).WellFormed := by
  induction pairs generalizing g with
  | nil => exact hg
  | cons pair rest ih =>
      obtain ⟨hsource, htarget⟩ := hpairs pair List.mem_cons_self
      apply ih (hg.insertChannel hsource htarget hi)
      · rwa [channelLabels_insertChannel]
      · intro other hother
        rw [processorCount_insertChannel]
        exact hpairs other (List.mem_cons_of_mem _ hother)

@[simp] theorem processorCount_insertAll (g : ProcessorGraph) (i : Nat)
    (pairs : List (Nat × Nat)) : (g.insertAll i pairs).processorCount = g.processorCount := by
  induction pairs generalizing g with
  | nil => rfl
  | cons pair rest ih => exact (ih _).trans (processorCount_insertChannel g _)

theorem WellFormed.connect (hg : g.WellFormed) (label : String) {pairs : List (Nat × Nat)}
    (hpairs : ∀ pair ∈ pairs, pair.1 < g.processorCount ∧ pair.2 < g.processorCount) :
    (g.connect label pairs).2.WellFormed := by
  rw [connect_snd]
  exact (hg.internChannelLabel label).insertAll (internLabel_lt hg.channelLabels_nodup label) hpairs

@[simp] theorem processorCount_connect (g : ProcessorGraph) (label : String)
    (pairs : List (Nat × Nat)) : (g.connect label pairs).2.processorCount = g.processorCount := by
  rw [connect_snd, processorCount_insertAll]
  rfl

theorem mem_of_mem_distinctPairs {pes : List Nat} {pair : Nat × Nat}
    (h : pair ∈ g.distinctPairs pes) : pair.1 ∈ pes ∧ pair.2 ∈ pes := by
  obtain ⟨source, hsource, hpair⟩ := List.mem_flatMap.mp h
  obtain ⟨target, htarget, rfl⟩ := List.mem_map.mp hpair
  exact ⟨hsource, List.mem_of_mem_filter htarget⟩

/-- Connecting processors of the graph with each other keeps it well-formed. -/
theorem WellFormed.connectDistinct (hg : g.WellFormed) (label : String) {pes : List Nat}
    (hpes : ∀ pe ∈ pes, pe < g.processorCount) :
    (g.connect label (g.distinctPairs pes)).2.WellFormed := by
  apply hg.connect
  intro pair hpair
  obtain ⟨hsource, htarget⟩ := mem_of_mem_distinctPairs hpair
  exact ⟨hpes _ hsource, hpes _ htarget⟩

/-- Connecting processors of the graph with themselves keeps it well-formed. -/
theorem WellFormed.connectLoops (hg : g.WellFormed) (label : String) {pes : List Nat}
    (hpes : ∀ pe ∈ pes, pe < g.processorCount) :
    (g.connect label (pes.map fun pe => (pe, pe))).2.WellFormed := by
  apply hg.connect
  intro pair hpair
  obtain ⟨pe, hpe, rfl⟩ := List.mem_map.mp hpair
  exact ⟨hpes pe hpe, hpes pe hpe⟩

end ProcessorGraph
end ProcessorSymmetry

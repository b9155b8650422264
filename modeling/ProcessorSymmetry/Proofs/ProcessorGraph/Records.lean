import ProcessorSymmetry.Proofs.Group.Equality
import ProcessorSymmetry.Proofs.ProcessorGraph.Additions
import ProcessorSymmetry.Proofs.ProcessorGraph.Automorphisms

/-!
# Graphs that are restored from records

A record is accepted if its channels lead between its processors.  The restored graph
has the same record, apart from channels that repeat earlier ones.  The record of a
graph lists every channel once, so that nothing is dropped when the graph is restored
from it.  Labels may then be numbered differently, but what can be asked about a graph
is found in its record, and with it which permutations are automorphisms.
-/

namespace ProcessorSymmetry

/-- A recorded channel as graphs list it. -/
def ChannelRecord.listed (r : ChannelRecord) : Nat × Nat × String :=
  (r.source, r.target, r.label)

theorem ChannelRecord.listed_injective : Function.Injective ChannelRecord.listed := by
  rintro ⟨source, target, label⟩ ⟨_, _, _⟩ ⟨⟩
  rfl

/-- A recorded channel has the label and the ends of an earlier one.  Which end comes
first only matters in directed graphs. -/
def ChannelRecord.Repeats (directed : Bool) (earlier later : ChannelRecord) : Prop :=
  later.label = earlier.label ∧
    (later.source = earlier.source ∧ later.target = earlier.target ∨
      directed = false ∧ later.source = earlier.target ∧ later.target = earlier.source)

instance (directed : Bool) : DecidableRel (ChannelRecord.Repeats directed) :=
  fun _ _ => inferInstanceAs (Decidable (_ ∧ _))

namespace GraphRecord

variable {directed : Bool} {channels : List ChannelRecord}

/-- All channels lead between processors of the record. -/
def WellFormed (record : GraphRecord) : Prop :=
  ∀ c ∈ record.channels,
    c.source < record.processors.length ∧ c.target < record.processors.length

/-- The channels that repeat no earlier one. -/
def firsts (directed : Bool) : List ChannelRecord → List ChannelRecord
  | [] => []
  | c :: rest => c :: (firsts directed rest).filter fun d => ¬c.Repeats directed d

/-- The record less the channels that repeat an earlier one. -/
def withoutRepeats (record : GraphRecord) : GraphRecord :=
  { record with channels := firsts record.directed record.channels }

theorem firsts_eq_self (h : channels.Pairwise fun c d => ¬c.Repeats directed d) :
    firsts directed channels = channels := by
  induction h with
  | nil => rfl
  | cons hfirst _ ih =>
      rw [firsts, ih, List.filter_eq_self.mpr]
      intro d hd
      exact decide_eq_true (hfirst d hd)

end GraphRecord

namespace ProcessorGraph

open Perm

variable {g h : ProcessorGraph} {r : ChannelRecord} {i j : Nat} {label : String}

/-! ## Listed channels -/

/-- Listed channels coincide if they have the same ends and the same label. -/
def Coincide (g : ProcessorGraph) (x y : Nat × Nat × String) : Prop :=
  g.ends x.1 x.2.1 = g.ends y.1 y.2.1 ∧ x.2.2 = y.2.2

theorem coincide_iff_of_directed (hdirected : h.directed = g.directed)
    (x y : Nat × Nat × String) : h.Coincide x y ↔ g.Coincide x y := by
  simp only [Coincide, ends, hdirected]

/-- A channel can be asked for if a listed one coincides with it. -/
theorem WellFormed.hasChannel_iff_coincide (hg : g.WellFormed) :
    g.hasChannel i j label = true ↔ ∃ x ∈ g.channelList, g.Coincide x (i, j, label) := by
  rw [hg.hasChannel_iff_exists]
  simp only [channelList, List.mem_map, exists_exists_and_eq_and]
  refine exists_congr fun c => and_congr_right fun hc => and_congr_right fun _ => ?_
  rw [hg.getElem?_channelLabel hc, Option.some.injEq]

/-- No two listed channels coincide. -/
theorem WellFormed.channelList_pairwise (hg : g.WellFormed) :
    g.channelList.Pairwise fun x y => ¬g.Coincide x y := by
  rw [channelList, List.pairwise_map]
  have hkeys := List.pairwise_map.mp hg.keys_nodup
  refine hkeys.imp_of_mem fun {c d} hc hd hne hcoincide => hne ?_
  have hc := hg.getElem?_channelLabel hc
  have hd := hg.getElem?_channelLabel hd
  rw [show g.channelLabel c = g.channelLabel d from hcoincide.2] at hc
  exact key_eq_key_iff.mpr ⟨hcoincide.1, number_unique hg.channelLabels_nodup hc hd⟩

theorem WellFormed.channelList_internChannelLabel (hg : g.WellFormed) (label : String) :
    (g.internChannelLabel label).2.channelList = g.channelList := by
  refine List.map_congr_left fun c hc => ?_
  have hold := hg.getElem?_channelLabel hc
  have hnew := (hg.internChannelLabel label).getElem?_channelLabel hc
  rw [hg.getElem?_internChannelLabel label hc, hold] at hnew
  rw [Option.some.inj hnew]

/-- An inserted channel is listed at the end unless it is there already. -/
theorem WellFormed.channelList_insertChannel (hg : g.WellFormed) {c : Channel}
    (hlabel : g.channelLabels[c.label]? = some label) :
    (g.insertChannel c).2.channelList = g.channelList ++
      if g.hasChannel c.source c.target label then [] else [(c.source, c.target, label)] := by
  rw [hg.hasChannel_eq_contains hlabel]
  rcases g.insertChannel_eq c with ⟨hold, hsame⟩ | ⟨hnew, hpushed⟩
  · rw [hsame, hold, if_pos rfl, List.append_nil]
  · have htext : g.channelLabel c = label := by
      rw [channelLabel, Array.getD_eq_getD_getElem?, hlabel, Option.getD_some]
    rw [hpushed, hnew, channelList, Array.toList_push, List.map_append, ← htext]
    rfl

/-! ## Channels that are added in turn -/

theorem coincide_listed_iff {c d : ChannelRecord} :
    g.Coincide c.listed d.listed ↔ ChannelRecord.Repeats g.directed c d := by
  rw [Coincide, ends_eq_ends_iff, ChannelRecord.Repeats]
  simp only [ChannelRecord.listed]
  grind

/-- The recorded channels that a graph does not have yet. -/
def missing (g : ProcessorGraph) (records : List ChannelRecord) : List ChannelRecord :=
  records.filter fun r => !g.hasChannel r.source r.target r.label

/-- A channel is listed at the end unless it is there already. -/
theorem WellFormed.channelList_addRecorded (hg : g.WellFormed) (hadd : g.addRecorded r = .ok h) :
    h.channelList = g.channelList ++ (g.missing [r]).map ChannelRecord.listed := by
  obtain ⟨⟨new, next⟩, hnext, heq⟩ := bind_eq_ok_iff.mp hadd
  obtain ⟨_, -, hnext⟩ := bind_eq_ok_iff.mp hnext
  obtain ⟨_, -, hnext⟩ := bind_eq_ok_iff.mp hnext
  let interned := (g.internChannelLabel r.label).2
  let c : Channel := ⟨r.source, r.target, (g.internChannelLabel r.label).1⟩
  have hinserted : (interned.insertChannel c).2 = h :=
    (congrArg Prod.snd (Except.ok.inj hnext)).trans (Except.ok.inj heq)
  have hlabel : interned.channelLabels[c.label]? = some r.label :=
    (internLabel_spec hg.channelLabels_nodup r.label).2.2
  rw [← hinserted, (hg.internChannelLabel r.label).channelList_insertChannel hlabel,
    hg.channelList_internChannelLabel r.label, hg.hasChannel_internChannelLabel r.label, missing,
    List.filter_singleton]
  cases g.hasChannel r.source r.target r.label with
  | true => rfl
  | false => rfl

/-- What is missing after a channel was added repeats neither this channel nor one that
was there before. -/
theorem missing_of_added {records : List ChannelRecord}
    (hadded : ∀ i j label, h.hasChannel i j label = true ↔ g.hasChannel i j label = true ∨
      r.label = label ∧ g.ends r.source r.target = g.ends i j) :
    h.missing records =
      g.missing (records.filter fun d => ¬ChannelRecord.Repeats g.directed r d) := by
  rw [missing, missing, List.filter_filter]
  apply List.filter_congr
  intro d _
  have hrepeats : r.label = d.label ∧ g.ends r.source r.target = g.ends d.source d.target ↔
      ChannelRecord.Repeats g.directed r d := and_comm.trans coincide_listed_iff
  rw [Bool.eq_iff_iff]
  simp [← Bool.not_eq_true, hadded, hrepeats]

/-- Recorded channels between processors of the graph are all accepted.  They can be asked
for from then on, and those that are new are listed in their order. -/
theorem WellFormed.exists_foldlM_addRecorded (hg : g.WellFormed) {records : List ChannelRecord}
    (hrecords : ∀ r ∈ records, r.source < g.processorCount ∧ r.target < g.processorCount) :
    ∃ h, records.foldlM addRecorded g = .ok h ∧ h.WellFormed ∧ g.SameProcessors h ∧
      (∀ i j label, h.hasChannel i j label = true ↔ g.hasChannel i j label = true ∨
        ∃ r ∈ records, r.label = label ∧ g.ends r.source r.target = g.ends i j) ∧
      h.channelList = g.channelList ++
        (g.missing (GraphRecord.firsts g.directed records)).map ChannelRecord.listed := by
  induction records generalizing g with
  | nil => exact ⟨g, rfl, hg, .refl g, by simp, by simp [GraphRecord.firsts, missing]⟩
  | cons r rest ih =>
      obtain ⟨⟨hsource, htarget⟩, hrest⟩ := List.forall_mem_cons.mp hrecords
      obtain ⟨next, hnext, hformed, hsame, hadded⟩ := hg.exists_addRecorded hsource htarget
      rw [← hsame.processorCount_eq] at hrest
      obtain ⟨h, hh, hhformed, hhsame, hhadded, hhlist⟩ := ih hformed hrest
      refine ⟨h, ?_, hhformed, hsame.trans hhsame, ?_, ?_⟩
      · rw [List.foldlM_cons, hnext]
        exact hh
      · intro i j label
        simp only [hhadded, hadded, hsame.ends_eq, List.exists_mem_cons_iff, or_assoc]
      · rw [hhlist, hg.channelList_addRecorded hnext, missing_of_added hadded, hsame.directed_eq,
          List.append_assoc, ← List.map_append, GraphRecord.firsts]
        congr 2
        exact (List.filter_append _ _).symm

/-- If all recorded channels are accepted, then they lead between processors of the graph. -/
theorem lt_of_foldlM_addRecorded (hg : g.WellFormed) {records : List ChannelRecord}
    (hh : records.foldlM addRecorded g = .ok h) :
    ∀ r ∈ records, r.source < g.processorCount ∧ r.target < g.processorCount := by
  induction records generalizing g with
  | nil => simp
  | cons r rest ih =>
      obtain ⟨next, hnext, hrest⟩ := bind_eq_ok_iff.mp hh
      obtain ⟨⟨_, _⟩, hadded, -⟩ := bind_eq_ok_iff.mp hnext
      obtain ⟨_, hsource, hadded⟩ := bind_eq_ok_iff.mp hadded
      obtain ⟨_, htarget, -⟩ := bind_eq_ok_iff.mp hadded
      have hends := And.intro (check_eq_ok_iff.mp hsource) (check_eq_ok_iff.mp htarget)
      obtain ⟨other, hother, hformed, hsame, -⟩ := hg.exists_addRecorded hends.1 hends.2
      obtain rfl : other = next := Except.ok.inj (hother.symm.trans hnext)
      refine List.forall_mem_cons.mpr ⟨hends, ?_⟩
      rw [← hsame.processorCount_eq]
      exact ih hformed hrest

/-! ## Restored graphs -/

theorem listed_toRecord (g : ProcessorGraph) :
    g.toRecord.channels.map ChannelRecord.listed = g.channelList := by
  rw [toRecord, List.map_map]
  exact List.map_id _

theorem channelList_foldl_addProcessor (g : ProcessorGraph) (labels : List String) :
    (labels.foldl addProcessor g).channelList = g.channelList := by
  induction labels generalizing g with
  | nil => rfl
  | cons first rest ih => exact ih (g.addProcessor first)

theorem labels_foldl_addProcessor (directed : Bool) (labels : List String) :
    (List.range labels.length).map (labels.foldl addProcessor (empty directed)).labelOf =
      labels := by
  apply List.ext_getElem
  · simp
  · intro l hl hl'
    have hlabel := (wellFormed_empty directed).labelOf_foldl_addProcessor
      (List.getElem?_eq_getElem hl')
    rw [show (empty directed).processorCount = 0 from rfl, Nat.zero_add] at hlabel
    rw [List.getElem_map, List.getElem_range, hlabel]

/-- The graph with the processors of a record. -/
def ofProcessors (record : GraphRecord) : ProcessorGraph :=
  record.processors.foldl addProcessor (empty record.directed)

theorem wellFormed_ofProcessors (record : GraphRecord) : (ofProcessors record).WellFormed :=
  (wellFormed_empty _).foldl_addProcessor record.processors

theorem processorCount_ofProcessors (record : GraphRecord) :
    (ofProcessors record).processorCount = record.processors.length :=
  (processorCount_foldl_addProcessor _ _).trans (Nat.zero_add _)

/-- A record of channels between its processors is accepted, and of channels that
repeat each other the first one is kept. -/
theorem exists_ofRecord {record : GraphRecord} (hrecord : record.WellFormed) :
    ∃ h, ofRecord record = .ok h ∧ h.WellFormed ∧ h.toRecord = record.withoutRepeats := by
  let start := ofProcessors record
  have hdirected : start.directed = record.directed := directed_foldl_addProcessor _ _
  have hcount : start.processorCount = record.processors.length :=
    processorCount_ofProcessors record
  have hnone : start.channelList = [] := channelList_foldl_addProcessor _ _
  have hmissing : ∀ records, start.missing records = records := by
    intro records
    apply List.filter_eq_self.mpr
    intro r _
    rw [show start.hasChannel r.source r.target r.label = false from
      (hasChannel_foldl_addProcessor _ _).trans (hasChannel_empty _)]
    rfl
  rw [GraphRecord.WellFormed, ← hcount] at hrecord
  obtain ⟨h, hh, hformed, hsame, -, hlist⟩ :=
    (wellFormed_ofProcessors record).exists_foldlM_addRecorded hrecord
  refine ⟨h, mapError_eq_ok_iff.mpr hh, hformed, ?_⟩
  have hlabels : (List.range h.processorCount).map h.labelOf = record.processors := by
    rw [hsame.processorCount_eq, processorCount_ofProcessors,
      List.map_congr_left fun i _ => hsame.labelOf_eq i]
    exact labels_foldl_addProcessor _ _
  have hrecords : h.toRecord.channels = GraphRecord.firsts record.directed record.channels := by
    apply List.map_injective_iff.mpr ChannelRecord.listed_injective
    rw [h.listed_toRecord, hlist, hmissing, hdirected, hnone, List.nil_append]
  calc
    h.toRecord = ⟨h.directed, (List.range h.processorCount).map h.labelOf,
      h.toRecord.channels⟩ := rfl
    _ = record.withoutRepeats := by
      rw [hlabels, hrecords, hsame.directed_eq, hdirected, GraphRecord.withoutRepeats]

theorem wellFormed_of_ofRecord {record : GraphRecord} (hh : ofRecord record = .ok h) :
    record.WellFormed := by
  have hlt := lt_of_foldlM_addRecorded (wellFormed_ofProcessors record) (mapError_eq_ok_iff.mp hh)
  rwa [processorCount_ofProcessors] at hlt

/-- The record of a graph describes a graph with the same record. -/
theorem WellFormed.exists_ofRecord_toRecord (hg : g.WellFormed) :
    ∃ h, ofRecord g.toRecord = .ok h ∧ h.WellFormed ∧ h.toRecord = g.toRecord := by
  have hrecord : g.toRecord.WellFormed := by
    intro r hr
    have hmem : r.listed ∈ g.channelList := g.listed_toRecord ▸ List.mem_map_of_mem hr
    simpa [toRecord] using hg.lt_of_mem_channelList hmem
  have hdistinct : g.toRecord.channels.Pairwise fun c d =>
      ¬ChannelRecord.Repeats g.directed c d := by
    have hlisted := hg.channelList_pairwise
    rw [← g.listed_toRecord, List.pairwise_map] at hlisted
    exact hlisted.imp fun {c d} => mt coincide_listed_iff.mpr
  obtain ⟨h, hh, hformed, hsame⟩ := exists_ofRecord hrecord
  refine ⟨h, hh, hformed, hsame.trans ?_⟩
  calc
    g.toRecord.withoutRepeats =
        ⟨g.directed, g.toRecord.processors,
          GraphRecord.firsts g.directed g.toRecord.channels⟩ := rfl
    _ = g.toRecord := by rw [GraphRecord.firsts_eq_self hdistinct]; rfl

/-! ## What a record determines -/

theorem processorCount_eq_of_toRecord (hgh : h.toRecord = g.toRecord) :
    h.processorCount = g.processorCount := by
  have hlength := congrArg (List.length ∘ GraphRecord.processors) hgh
  simpa [toRecord] using hlength

theorem labelOf_eq_of_toRecord (hgh : h.toRecord = g.toRecord) (hi : i < g.processorCount) :
    h.labelOf i = g.labelOf i := by
  have hlabels := congrArg GraphRecord.processors hgh
  rw [toRecord, toRecord, processorCount_eq_of_toRecord hgh] at hlabels
  exact List.map_inj_left.mp hlabels i (List.mem_range.mpr hi)

theorem channelList_eq_of_toRecord (hgh : h.toRecord = g.toRecord) :
    h.channelList = g.channelList := by
  rw [← h.listed_toRecord, hgh, g.listed_toRecord]

theorem channelCount_eq_of_toRecord (hgh : h.toRecord = g.toRecord) :
    h.channelCount = g.channelCount := by
  have hlength := congrArg List.length (channelList_eq_of_toRecord hgh)
  simpa [channelList, channelCount] using hlength

theorem WellFormed.hasChannel_eq_of_toRecord (hh : h.WellFormed) (hg : g.WellFormed)
    (hgh : h.toRecord = g.toRecord) (i j : Nat) (label : String) :
    h.hasChannel i j label = g.hasChannel i j label := by
  have hdirected : h.directed = g.directed := congrArg GraphRecord.directed hgh
  rw [Bool.eq_iff_iff, hh.hasChannel_iff_coincide, hg.hasChannel_iff_coincide,
    channelList_eq_of_toRecord hgh]
  simp only [coincide_iff_of_directed hdirected]

theorem Preserves.of_toRecord {n : Nat} {p : Perm n} (hp : g.Preserves p) (hg : g.WellFormed)
    (hh : h.WellFormed) (hgh : h.toRecord = g.toRecord) : h.Preserves p := by
  have hcount := processorCount_eq_of_toRecord hgh
  refine ⟨hp.degree_eq.trans hcount.symm, ?_, ?_⟩
  · intro i hi
    rw [hcount] at hi
    rw [labelOf_eq_of_toRecord hgh (hp.app_lt hi), labelOf_eq_of_toRecord hgh hi,
      hp.labelOf_eq i hi]
  · intro i hi j hj label
    rw [hcount] at hi hj
    rw [hh.hasChannel_eq_of_toRecord hg hgh, hh.hasChannel_eq_of_toRecord hg hgh,
      hp.hasChannel_eq i hi j hj]

/-- Graphs with the same record have the same automorphisms, however their labels are
numbered and whatever is remembered. -/
theorem WellFormed.same_automorphisms_of_toRecord (hg : g.WellFormed) (hh : h.WellFormed)
    (hgh : h.toRecord = g.toRecord) : g.automorphisms.same h.automorphisms = true := by
  rw [PermGroup.same_iff_contains]
  intro n p
  rw [hg.contains_automorphisms_iff_preserves, hh.contains_automorphisms_iff_preserves]
  constructor
  · intro hp
    exact hp.of_toRecord hg hh hgh
  · intro hp
    exact hp.of_toRecord hh hg hgh.symm

end ProcessorGraph
end ProcessorSymmetry

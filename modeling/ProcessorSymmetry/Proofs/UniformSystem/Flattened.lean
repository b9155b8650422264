import ProcessorSymmetry.Proofs.Group.WreathProduct
import ProcessorSymmetry.Proofs.ProcessorGraph.Built
import ProcessorSymmetry.Proofs.ProcessorGraph.Records

/-!
# Flattened systems

Flattening a system of well-formed graphs succeeds.  The label of a processor
joins the labels of its cluster and of its place.  Channels lead inside of each
cluster as in the proto graph, and between all places of two clusters, or of one
cluster, as between the clusters.
-/

namespace ProcessorSymmetry

/-- Blocks of rows one after another are a single row of points. -/
theorem flatMap_range_block {α : Type} (f : Nat → Nat → α) (k m : Nat) :
    ((List.range k).flatMap fun b => (List.range m).map (f b)) =
      (List.range (k * m)).map fun x => f (x / m) (x % m) := by
  induction k with
  | zero => simp
  | succ k ih =>
      rw [List.range_succ, List.flatMap_append, ih, List.flatMap_singleton, Nat.succ_mul,
        List.range_add, List.map_append, List.map_map]
      congr 1
      apply List.map_congr_left
      intro l hl
      rw [Function.comp_apply, block_div (List.mem_range.mp hl),
        Nat.mul_add_mod_of_lt (List.mem_range.mp hl)]

namespace UniformSystem

open ProcessorGraph

variable {s : UniformSystem} {c c' l l' : Nat} {label : String}

/-- The parts are well-formed, and what is remembered is the composed group. -/
structure WellFormed (s : UniformSystem) : Prop where
  clusters : s.clusters.WellFormed
  proto : s.proto.WellFormed
  cached_eq : ∀ G, s.cached = some G → G = s.composedAutomorphisms

theorem WellFormed.automorphisms_eq (hs : s.WellFormed) :
    s.automorphisms = s.composedAutomorphisms := by
  rw [automorphisms]
  split
  · rename_i G hG
    exact hs.cached_eq G hG
  · rfl

theorem WellFormed.remember (hs : s.WellFormed) : s.remember.WellFormed where
  clusters := hs.clusters
  proto := hs.proto
  cached_eq := fun _ hG => (Option.some.inj hG).symm.trans hs.automorphisms_eq

theorem ofGraphs_spec {clusters proto : ProcessorGraph}
    (hs : UniformSystem.ofGraphs clusters proto = .ok s) :
    s.clusters = clusters ∧ s.proto = proto ∧ s.cached = none := by
  rw [UniformSystem.ofGraphs] at hs
  split at hs
  · split at hs
    · obtain rfl := Except.ok.inj hs
      exact ⟨rfl, rfl, rfl⟩
    · cases hs
  · cases hs

theorem WellFormed.ofGraphs {clusters proto : ProcessorGraph} (hclusters : clusters.WellFormed)
    (hproto : proto.WellFormed) (hs : UniformSystem.ofGraphs clusters proto = .ok s) :
    s.WellFormed ∧ s.clusters = clusters ∧ s.proto = proto := by
  obtain ⟨rfl, rfl, hnone⟩ := ofGraphs_spec hs
  exact ⟨⟨hclusters, hproto, by simp [hnone]⟩, rfl, rfl⟩

/-! ## What is added -/

theorem flatLabels_eq (s : UniformSystem) :
    s.flatLabels = (List.range s.processorCount).map fun x =>
      s.clusters.labelOf (x / s.proto.processorCount) ++ "/" ++
        s.proto.labelOf (x % s.proto.processorCount) :=
  flatMap_range_block _ _ _

theorem getElem?_flatLabels (hc : c < s.clusters.processorCount)
    (hl : l < s.proto.processorCount) :
    s.flatLabels[c * s.proto.processorCount + l]? =
      some (s.clusters.labelOf c ++ "/" ++ s.proto.labelOf l) := by
  have hlt : c * s.proto.processorCount + l < s.processorCount := block_lt hc hl
  simp [flatLabels_eq, hlt, block_div, Nat.mod_eq_of_lt, hl]

theorem length_flatLabels (s : UniformSystem) : s.flatLabels.length = s.processorCount := by
  rw [flatLabels_eq, List.length_map, List.length_range]

/-- The recorded channels lead inside of one cluster or between all places of two clusters. -/
theorem mem_flatChannels {source target : Nat} :
    ⟨source, target, label⟩ ∈ s.flatChannels ↔
      (∃ c < s.clusters.processorCount, ∃ l l', (l, l', label) ∈ s.proto.channelList ∧
        c * s.proto.processorCount + l = source ∧ c * s.proto.processorCount + l' = target) ∨
      ∃ c c', (c, c', label) ∈ s.clusters.channelList ∧
        ∃ l < s.proto.processorCount, ∃ l' < s.proto.processorCount,
          c * s.proto.processorCount + l = source ∧
            c' * s.proto.processorCount + l' = target := by
  simp only [flatChannels, List.mem_append, List.mem_flatMap, List.mem_map, List.mem_range,
    Prod.exists, ChannelRecord.mk.injEq]
  refine or_congr ?_ ?_
  · refine exists_congr fun c => and_congr_right fun _ => ?_
    constructor
    · rintro ⟨l, l', label, hmem, hsource, htarget, rfl⟩
      exact ⟨l, l', hmem, hsource, htarget⟩
    · rintro ⟨l, l', hmem, hsource, htarget⟩
      exact ⟨l, l', label, hmem, hsource, htarget, rfl⟩
  · refine exists_congr fun c => exists_congr fun c' => ?_
    constructor
    · rintro ⟨label, hmem, l, hl, l', hl', hsource, htarget, rfl⟩
      exact ⟨hmem, l, hl, l', hl', hsource, htarget⟩
    · rintro ⟨hmem, l, hl, l', hl', hsource, htarget⟩
      exact ⟨label, hmem, l, hl, l', hl', hsource, htarget, rfl⟩

theorem WellFormed.mem_flatChannels_block (hs : s.WellFormed)
    (hc : c < s.clusters.processorCount) (hl : l < s.proto.processorCount)
    (hl' : l' < s.proto.processorCount) :
    ⟨c * s.proto.processorCount + l, c' * s.proto.processorCount + l', label⟩ ∈ s.flatChannels ↔
      (c = c' ∧ (l, l', label) ∈ s.proto.channelList) ∨
        (c, c', label) ∈ s.clusters.channelList := by
  rw [mem_flatChannels]
  refine or_congr ?_ ?_
  · constructor
    · rintro ⟨b, -, i, j, hmem, hsource, htarget⟩
      obtain ⟨hi, hj⟩ := hs.proto.lt_of_mem_channelList hmem
      obtain ⟨rfl, rfl⟩ := (block_inj hi hl).mp hsource
      obtain ⟨rfl, rfl⟩ := (block_inj hj hl').mp htarget
      exact ⟨rfl, hmem⟩
    · rintro ⟨rfl, hmem⟩
      exact ⟨c, hc, l, l', hmem, rfl, rfl⟩
  · constructor
    · rintro ⟨a, b, hmem, i, hi, j, hj, hsource, htarget⟩
      obtain ⟨rfl, -⟩ := (block_inj hi hl).mp hsource
      obtain ⟨rfl, -⟩ := (block_inj hj hl').mp htarget
      exact hmem
    · intro hmem
      exact ⟨c, c', hmem, l, hl, l', hl', rfl, rfl⟩

/-- A record has given ends and a given label in one direction or the other. -/
theorem exists_record_iff {records : List ChannelRecord} {source target : Nat} :
    (∃ r ∈ records, r.label = label ∧
      (r.source = source ∧ r.target = target ∨ r.source = target ∧ r.target = source)) ↔
      ⟨source, target, label⟩ ∈ records ∨ ⟨target, source, label⟩ ∈ records := by
  constructor
  · rintro ⟨r, hr, rfl, ⟨rfl, rfl⟩ | ⟨rfl, rfl⟩⟩
    · exact .inl hr
    · exact .inr hr
  · rintro (hr | hr)
    · exact ⟨_, hr, rfl, .inl ⟨rfl, rfl⟩⟩
    · exact ⟨_, hr, rfl, .inr ⟨rfl, rfl⟩⟩

theorem WellFormed.flatChannels_lt (hs : s.WellFormed) {r : ChannelRecord}
    (hr : r ∈ s.flatChannels) : r.source < s.processorCount ∧ r.target < s.processorCount := by
  rcases mem_flatChannels.mp hr with
    ⟨c, hc, l, l', hmem, hsource, htarget⟩ | ⟨c, c', hmem, l, hl, l', hl', hsource, htarget⟩
  · obtain ⟨hl, hl'⟩ := hs.proto.lt_of_mem_channelList hmem
    rw [← hsource, ← htarget]
    exact ⟨block_lt hc hl, block_lt hc hl'⟩
  · obtain ⟨hc, hc'⟩ := hs.clusters.lt_of_mem_channelList hmem
    rw [← hsource, ← htarget]
    exact ⟨block_lt hc hl, block_lt hc' hl'⟩

/-! ## The flattened graph -/

/-- What can be asked about the flattened graph, by the clusters and places of processors. -/
structure IsFlattening (s : UniformSystem) (flat : ProcessorGraph) : Prop where
  wellFormed : flat.WellFormed
  processorCount_eq : flat.processorCount = s.processorCount
  undirected : flat.directed = false
  labelOf_block : ∀ c < s.clusters.processorCount, ∀ l < s.proto.processorCount,
    flat.labelOf (c * s.proto.processorCount + l) =
      s.clusters.labelOf c ++ "/" ++ s.proto.labelOf l
  hasChannel_block : ∀ c < s.clusters.processorCount, ∀ c' < s.clusters.processorCount,
    ∀ l < s.proto.processorCount, ∀ l' < s.proto.processorCount, ∀ label,
    flat.hasChannel (c * s.proto.processorCount + l) (c' * s.proto.processorCount + l') label =
        true ↔
      (c = c' ∧ s.proto.hasChannel l l' label = true) ∨ s.clusters.hasChannel c c' label = true

theorem IsFlattening.place_lt {flat : ProcessorGraph} (hflat : s.IsFlattening flat)
    (hc : c < s.clusters.processorCount) (hl : l < s.proto.processorCount) :
    c * s.proto.processorCount + l < flat.processorCount := by
  rw [hflat.processorCount_eq]
  exact block_lt hc hl

/-- Flattening a well-formed system succeeds. -/
theorem WellFormed.exists_flatten (hs : s.WellFormed) :
    ∃ flat, s.flatten = .ok flat ∧ s.IsFlattening flat := by
  let start := s.flatLabels.foldl ProcessorGraph.addProcessor (.empty false)
  have hempty : (ProcessorGraph.empty false).WellFormed := wellFormed_empty false
  have hstart : start.WellFormed := hempty.foldl_addProcessor s.flatLabels
  have hcount : start.processorCount = s.processorCount :=
    (processorCount_foldl_addProcessor _ _).trans
      ((Nat.zero_add _).trans s.length_flatLabels)
  have hrecords : ∀ r ∈ s.flatChannels,
      r.source < start.processorCount ∧ r.target < start.processorCount := by
    intro r hr
    rw [hcount]
    exact hs.flatChannels_lt hr
  obtain ⟨flat, hflat, hformed, hsame, hchannels, -⟩ := hstart.exists_foldlM_addRecorded hrecords
  have hundirected : start.directed = false := directed_foldl_addProcessor _ _
  refine ⟨flat, hflat, hformed, hsame.processorCount_eq.trans hcount,
    hsame.directed_eq.trans hundirected, ?_, ?_⟩
  · intro c hc l hl
    have hlabel := hempty.labelOf_foldl_addProcessor (getElem?_flatLabels hc hl)
    have hzero : (ProcessorGraph.empty false).processorCount = 0 := rfl
    rw [hzero, Nat.zero_add] at hlabel
    exact (hsame.labelOf_eq _).trans hlabel
  · intro c hc c' hc' l hl l' hl' label
    have hnone : ∀ i j, start.hasChannel i j label = false := fun i j =>
      (hasChannel_foldl_addProcessor (.empty false) s.flatLabels).trans (hasChannel_empty false)
    rw [hchannels, hnone, hs.proto.hasChannel_iff_mem_channelList s.proto_undirected,
      hs.clusters.hasChannel_iff_mem_channelList s.clusters_undirected]
    simp only [ends_eq_ends_iff, hundirected, true_and, Bool.false_eq_true, false_or]
    rw [exists_record_iff, hs.mem_flatChannels_block hc hl hl',
      hs.mem_flatChannels_block hc' hl' hl]
    grind

/-- A system of graphs that can be built is well-formed and can be flattened. -/
theorem exists_isFlattening {clusters proto : ProcessorGraph} (hclusters : Built clusters)
    (hproto : Built proto) (hs : ofGraphs clusters proto = .ok s) :
    s.WellFormed ∧ ∃ flat, s.flatten = .ok flat ∧ s.IsFlattening flat := by
  have hformed := (WellFormed.ofGraphs hclusters.wellFormed hproto.wellFormed hs).1
  exact ⟨hformed, hformed.exists_flatten⟩

/-- A system of graphs that can be built is flattened without an error.  Every processor of
the result has the labels of its cluster and of its place, and its channels are those of
its copy of the proto graph together with those of its cluster, which also lead from a
processor to itself and may repeat a label of the copy. -/
theorem flatten_labels_and_channels {clusters proto : ProcessorGraph}
    (hclusters : Built clusters) (hproto : Built proto) (hs : ofGraphs clusters proto = .ok s) :
    let m := proto.processorCount
    ∃ flat, s.flatten = .ok flat ∧ flat.processorCount = clusters.processorCount * m ∧
      (∀ c < clusters.processorCount, ∀ l < m, ∃ above below,
        clusters.processorLabel c = .ok above ∧ proto.processorLabel l = .ok below ∧
          flat.processorLabel (c * m + l) = .ok (above ++ "/" ++ below)) ∧
      ∀ c < clusters.processorCount, ∀ c' < clusters.processorCount, ∀ l < m, ∀ l' < m,
        ∀ label, flat.hasChannel (c * m + l) (c' * m + l') label = true ↔
          (c = c' ∧ proto.hasChannel l l' label = true) ∨
            clusters.hasChannel c c' label = true := by
  intro m
  obtain ⟨-, flat, hflatten, hflat⟩ := exists_isFlattening hclusters hproto hs
  obtain ⟨rfl, rfl, -⟩ := ofGraphs_spec hs
  refine ⟨flat, hflatten, hflat.processorCount_eq, ?_, hflat.hasChannel_block⟩
  intro c hc l hl
  have hlabel := processorLabel_of_lt (hflat.place_lt hc hl)
  rw [hflat.labelOf_block c hc l hl] at hlabel
  exact ⟨_, _, processorLabel_of_lt hc, processorLabel_of_lt hl, hlabel⟩

/-- Two clusters of two processors, where the channel between the clusters has the label of
the channels inside of them, and each cluster has a channel with another label to itself. -/
theorem flatten_labels_and_channels_complete :
    let clusters := ((complete 2 "C" "X").loopAll "Y").2
    let proto := complete 2 "P" "X"
    Built clusters ∧ Built proto ∧ ∃ s flat, ofGraphs clusters proto = .ok s ∧
      s.flatten = .ok flat ∧ flat.processorCount = 4 ∧ flat.processorLabel 3 = .ok "C/P" ∧
      flat.hasChannel 1 2 "X" = true ∧ flat.hasChannel 0 0 "X" = false ∧
      flat.hasChannel 3 3 "Y" = true ∧ flat.hasChannel 0 2 "Y" = false := by
  intro clusters proto
  have hclusters : Built clusters := (built_complete 2 "C" "X").loopAll "Y"
  have hproto : Built proto := built_complete 2 "P" "X"
  let system : UniformSystem := ⟨clusters, proto, rfl, rfl, none⟩
  obtain ⟨flat, hflatten, hcount, hlabels, hchannels⟩ :=
    flatten_labels_and_channels (s := system) hclusters hproto rfl
  have hC : clusters.labelOf 1 = "C" := by decide +kernel
  have hP : proto.labelOf 1 = "P" := by decide +kernel
  obtain ⟨above, below, habove, hbelow, hlabel⟩ := hlabels 1 (by decide) 1 (by decide)
  rw [processorLabel_of_lt (by decide), hC] at habove
  rw [processorLabel_of_lt (by decide), hP] at hbelow
  obtain rfl := Except.ok.inj habove
  obtain rfl := Except.ok.inj hbelow
  have hchannel : ∀ c < 2, ∀ c' < 2, ∀ l < 2, ∀ l' < 2, ∀ label,
      flat.hasChannel (c * 2 + l) (c' * 2 + l') label =
        (decide (c = c') && proto.hasChannel l l' label || clusters.hasChannel c c' label) := by
    intro c hc c' hc' l hl l' hl' label
    rw [Bool.eq_iff_iff, Bool.or_eq_true, Bool.and_eq_true, decide_eq_true_iff]
    exact hchannels c hc c' hc' l hl l' hl' label
  have hbetween := hchannel 0 (by decide) 1 (by decide) 1 (by decide) 0 (by decide) "X"
  have hnone := hchannel 0 (by decide) 0 (by decide) 0 (by decide) 0 (by decide) "X"
  have hself := hchannel 1 (by decide) 1 (by decide) 1 (by decide) 1 (by decide) "Y"
  have hapart := hchannel 0 (by decide) 1 (by decide) 0 (by decide) 0 (by decide) "Y"
  exact ⟨hclusters, hproto, system, flat, rfl, hflatten, hcount, hlabel,
    hbetween.trans (by decide +kernel), hnone.trans (by decide +kernel),
    hself.trans (by decide +kernel), hapart.trans (by decide +kernel)⟩

end UniformSystem
end ProcessorSymmetry

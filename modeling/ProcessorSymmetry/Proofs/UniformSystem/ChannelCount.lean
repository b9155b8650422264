import Mathlib.Algebra.BigOperators.Intervals
import ProcessorSymmetry.Proofs.ProcessorGraph.Changes
import ProcessorSymmetry.Proofs.UniformSystem.Flattened

/-!
# Channels of flattened systems

A flattened graph has a copy of each channel of the proto graph for every cluster, a
channel for every pair of places of two connected clusters, and a channel for every
unordered pair of places of a cluster that is connected with itself.  None of these
coincide, unless a channel from a cluster to itself has a label of the proto graph.
-/

namespace ProcessorSymmetry

/-- The pairs of places in ascending order, each place also with itself. -/
def orderedPairs (m : Nat) : Finset (Nat × Nat) :=
  (Finset.range m ×ˢ Finset.range m).filter fun z => z.1 ≤ z.2

theorem card_orderedPairs (m : Nat) : (orderedPairs m).card = m * (m + 1) / 2 := by
  have hbelow : ∀ y ∈ Finset.range m, ((Finset.range m).filter (· ≤ y)).card = y + 1 := by
    intro y hy
    have hrange : (Finset.range m).filter (· ≤ y) = Finset.range (y + 1) := by
      ext x
      rw [Finset.mem_filter, Finset.mem_range, Finset.mem_range]
      have := Finset.mem_range.mp hy
      omega
    rw [hrange, Finset.card_range]
  calc
    (orderedPairs m).card = ∑ y ∈ Finset.range m, ((Finset.range m).filter (· ≤ y)).card := by
      rw [orderedPairs, Finset.card_filter, Finset.sum_product_right]
      simp only [Finset.card_filter]
    _ = ∑ y ∈ Finset.range m, (y + 1) := Finset.sum_congr rfl hbelow
    _ = ∑ y ∈ Finset.range (m + 1), y := (Finset.sum_range_succ' id m).symm
    _ = m * (m + 1) / 2 := by rw [Finset.sum_range_id, Nat.add_sub_cancel, Nat.mul_comm]

namespace ProcessorGraph

variable {g : ProcessorGraph}

/-- The number of channels between distinct processors. -/
def linkCount (g : ProcessorGraph) : Nat :=
  g.channelList.countP fun x => x.1 ≠ x.2.1

/-- The number of channels from a processor to itself. -/
def loopCount (g : ProcessorGraph) : Nat :=
  g.channelList.countP fun x => x.1 = x.2.1

theorem linkCount_add_loopCount (g : ProcessorGraph) :
    g.linkCount + g.loopCount = g.channelCount := by
  have hlength : g.channelList.length = g.channelCount := by
    rw [channelList, List.length_map, Array.length_toList, channelCount]
  rw [← hlength, Nat.add_comm, loopCount, linkCount,
    List.length_eq_countP_add_countP fun x : Nat × Nat × String => x.1 = x.2.1]
  simp

/-- What does not depend on the order of the ends may be counted among the listed channels. -/
theorem WellFormed.card_filter_channelKeys (hg : g.WellFormed) {P : Nat × Nat × String → Prop}
    [DecidablePred P] (hP : ∀ x, P (g.listedKey x) ↔ P x) :
    (g.channelKeys.filter P).card = g.channelList.countP (P ·) := by
  have hkeys : g.channelKeys.filter P =
      ((g.channelList.filter (P ·)).map g.listedKey).toFinset := by
    ext x
    simp only [channelKeys, Finset.mem_filter, List.mem_toFinset, List.mem_map, List.mem_filter,
      decide_eq_true_eq]
    constructor
    · rintro ⟨⟨y, hy, rfl⟩, hkey⟩
      exact ⟨y, ⟨hy, (hP y).mp hkey⟩, rfl⟩
    · rintro ⟨y, ⟨hy, hlisted⟩, rfl⟩
      exact ⟨⟨y, hy, rfl⟩, (hP y).mpr hlisted⟩
  have hnodup : ((g.channelList.filter (P ·)).map g.listedKey).Nodup :=
    hg.listedKeys_nodup.sublist (List.filter_sublist.map g.listedKey)
  rw [hkeys, List.toFinset_card_of_nodup hnodup, List.length_map, List.countP_eq_length_filter]

theorem WellFormed.card_linkKeys (hg : g.WellFormed) :
    (g.channelKeys.filter fun x => x.1 ≠ x.2.1).card = g.linkCount :=
  hg.card_filter_channelKeys fun _ => ends_ne_iff

theorem WellFormed.card_loopKeys (hg : g.WellFormed) :
    (g.channelKeys.filter fun x => x.1 = x.2.1).card = g.loopCount :=
  hg.card_filter_channelKeys fun _ => not_iff_not.mp ends_ne_iff

end ProcessorGraph

namespace UniformSystem

open ProcessorGraph

variable {s : UniformSystem} {flat clusters proto : ProcessorGraph} {c c' l l' : Nat}
  {label : String}

/-! ## Channels by clusters and places -/

/-- A channel of the flattened graph, by its clusters with its label and by its places. -/
abbrev PlacedChannel := (Nat × Nat × String) × Nat × Nat

/-- The ends and the label of a channel between places of clusters of `m` processors. -/
def PlacedChannel.listed (m : Nat) (y : PlacedChannel) : Nat × Nat × String :=
  (y.1.1 * m + y.2.1, y.1.2.1 * m + y.2.2, y.1.2.2)

theorem PlacedChannel.listed_injOn (m : Nat) :
    Set.InjOn (PlacedChannel.listed m) {y | y.2.1 < m ∧ y.2.2 < m} := by
  rintro ⟨⟨a, b, label⟩, l, l'⟩ ⟨hl, hl'⟩ ⟨⟨c, d, other⟩, k, k'⟩ ⟨hk, hk'⟩ h
  simp only [PlacedChannel.listed, Prod.mk.injEq, block_inj hl hk, block_inj hl' hk'] at h
  grind

/-- The channels of the copies of the proto graph. -/
def innerKeys (s : UniformSystem) : Finset PlacedChannel :=
  (Finset.range s.clusters.processorCount ×ˢ s.proto.channelKeys).image fun z =>
    ((z.1, z.1, z.2.2.2), z.2.1, z.2.2.1)

/-- The channels between all places of two clusters. -/
def betweenKeys (s : UniformSystem) : Finset PlacedChannel :=
  (s.clusters.channelKeys.filter fun x => x.1 ≠ x.2.1) ×ˢ
    (Finset.range s.proto.processorCount ×ˢ Finset.range s.proto.processorCount)

/-- The channels between all places of a cluster that has a channel to itself. -/
def loopKeys (s : UniformSystem) : Finset PlacedChannel :=
  (s.clusters.channelKeys.filter fun x => x.1 = x.2.1) ×ˢ orderedPairs s.proto.processorCount

theorem WellFormed.card_innerKeys (hs : s.WellFormed) :
    s.innerKeys.card = s.proto.channelCount * s.clusters.processorCount := by
  rw [innerKeys, Finset.card_image_of_injective, Finset.card_product, Finset.card_range,
    hs.proto.card_channelKeys, Nat.mul_comm]
  rintro ⟨c, l, l', label⟩ ⟨c', k, k', other⟩ h
  grind

theorem WellFormed.card_betweenKeys (hs : s.WellFormed) :
    s.betweenKeys.card = s.clusters.linkCount * s.proto.processorCount ^ 2 := by
  rw [betweenKeys, Finset.card_product, Finset.card_product, Finset.card_range,
    hs.clusters.card_linkKeys, Nat.pow_two]

theorem WellFormed.card_loopKeys (hs : s.WellFormed) :
    s.loopKeys.card =
      s.clusters.loopCount * (s.proto.processorCount * (s.proto.processorCount + 1) / 2) := by
  rw [loopKeys, Finset.card_product, hs.clusters.card_loopKeys, card_orderedPairs]

theorem WellFormed.mem_innerKeys (hs : s.WellFormed) :
    ((c, c', label), l, l') ∈ s.innerKeys ↔
      c < s.clusters.processorCount ∧ c = c' ∧ s.proto.hasChannel l l' label = true ∧ l ≤ l' := by
  rw [← hs.proto.mem_channelKeys_of_undirected s.proto_undirected]
  simp only [innerKeys, Finset.mem_image, Finset.mem_product, Finset.mem_range, Prod.exists]
  grind

theorem WellFormed.mem_betweenKeys (hs : s.WellFormed) :
    ((c, c', label), l, l') ∈ s.betweenKeys ↔
      s.clusters.hasChannel c c' label = true ∧ c < c' ∧ l < s.proto.processorCount ∧
        l' < s.proto.processorCount := by
  rw [betweenKeys, Finset.mem_product, Finset.mem_filter,
    hs.clusters.mem_channelKeys_of_undirected s.clusters_undirected, Finset.mem_product,
    Finset.mem_range, Finset.mem_range]
  grind

theorem WellFormed.mem_loopKeys (hs : s.WellFormed) :
    ((c, c', label), l, l') ∈ s.loopKeys ↔
      s.clusters.hasChannel c c' label = true ∧ c = c' ∧ l < s.proto.processorCount ∧
        l' < s.proto.processorCount ∧ l ≤ l' := by
  rw [loopKeys, Finset.mem_product, Finset.mem_filter,
    hs.clusters.mem_channelKeys_of_undirected s.clusters_undirected, orderedPairs,
    Finset.mem_filter, Finset.mem_product, Finset.mem_range, Finset.mem_range]
  grind

/-- All channels of the flattened graph. -/
def placedChannels (s : UniformSystem) : Finset PlacedChannel :=
  s.innerKeys ∪ (s.betweenKeys ∪ s.loopKeys)

theorem WellFormed.mem_placedChannels (hs : s.WellFormed) :
    ((c, c', label), l, l') ∈ s.placedChannels ↔
      (c < s.clusters.processorCount ∧ c' < s.clusters.processorCount ∧
        l < s.proto.processorCount ∧ l' < s.proto.processorCount) ∧
      ((c = c' ∧ s.proto.hasChannel l l' label = true) ∨
        s.clusters.hasChannel c c' label = true) ∧ (c < c' ∨ c = c' ∧ l ≤ l') := by
  rw [placedChannels, Finset.mem_union, Finset.mem_union, hs.mem_innerKeys, hs.mem_betweenKeys,
    hs.mem_loopKeys]
  have hplaces := @WellFormed.hasChannel_lt s.proto l l' hs.proto label
  have hclusters := @WellFormed.hasChannel_lt s.clusters c c' hs.clusters label
  grind

/-- The channels of the flattened graph are those that clusters and places give. -/
theorem IsFlattening.channelKeys_eq (hflat : s.IsFlattening flat) (hs : s.WellFormed) :
    flat.channelKeys = s.placedChannels.image (PlacedChannel.listed s.proto.processorCount) := by
  ext ⟨i, j, label⟩
  rw [hflat.wellFormed.mem_channelKeys_of_undirected hflat.undirected, Finset.mem_image]
  constructor
  · rintro ⟨hchannel, hle⟩
    obtain ⟨hi, hj⟩ := hflat.wellFormed.hasChannel_lt hchannel
    rw [hflat.processorCount_eq] at hi hj
    obtain ⟨c, hc, l, hl, rfl⟩ := exists_block hi
    obtain ⟨c', hc', l', hl', rfl⟩ := exists_block hj
    refine ⟨((c, c', label), l, l'), hs.mem_placedChannels.mpr ⟨⟨hc, hc', hl, hl'⟩, ?_, ?_⟩, rfl⟩
    · exact (hflat.hasChannel_block c hc c' hc' l hl l' hl' label).mp hchannel
    · exact (block_le_block_iff hl hl').mp hle
  · rintro ⟨⟨⟨c, c', other⟩, l, l'⟩, hplaced, heq⟩
    obtain ⟨rfl, rfl, rfl⟩ : _ ∧ _ ∧ _ := by simpa [PlacedChannel.listed] using heq
    obtain ⟨⟨hc, hc', hl, hl'⟩, hchannel, hle⟩ := hs.mem_placedChannels.mp hplaced
    exact ⟨(hflat.hasChannel_block c hc c' hc' l hl l' hl' other).mpr hchannel,
      (block_le_block_iff hl hl').mpr hle⟩

theorem IsFlattening.channelCount_eq_card (hflat : s.IsFlattening flat) (hs : s.WellFormed) :
    flat.channelCount = s.placedChannels.card := by
  rw [← hflat.wellFormed.card_channelKeys, hflat.channelKeys_eq hs]
  apply Finset.card_image_of_injOn
  apply (PlacedChannel.listed_injOn s.proto.processorCount).mono
  rintro ⟨⟨c, c', label⟩, l, l'⟩ hplaced
  obtain ⟨⟨-, -, hl, hl'⟩, -⟩ := hs.mem_placedChannels.mp (Finset.mem_coe.mp hplaced)
  exact ⟨hl, hl'⟩

/-! ## Counting -/

/-- Channels that clusters and places give do not coincide, provided that no label of a
channel from a cluster to itself is a label of the proto graph. -/
theorem WellFormed.card_placedChannels (hs : s.WellFormed)
    (hseparate : ∀ c l l' label, s.clusters.hasChannel c c label = true →
      s.proto.hasChannel l l' label = false) :
    s.placedChannels.card =
      s.proto.channelCount * s.clusters.processorCount +
        s.clusters.linkCount * s.proto.processorCount ^ 2 +
        s.clusters.loopCount * (s.proto.processorCount * (s.proto.processorCount + 1) / 2) := by
  have houter : Disjoint s.betweenKeys s.loopKeys := by
    rw [Finset.disjoint_left]
    rintro ⟨⟨c, c', label⟩, l, l'⟩ hbetween hloop
    exact (hs.mem_betweenKeys.mp hbetween).2.1.ne (hs.mem_loopKeys.mp hloop).2.1
  have hinner : Disjoint s.innerKeys (s.betweenKeys ∪ s.loopKeys) := by
    rw [Finset.disjoint_left]
    rintro ⟨⟨c, c', label⟩, l, l'⟩ hinside houtside
    obtain ⟨-, rfl, hproto, -⟩ := hs.mem_innerKeys.mp hinside
    rcases Finset.mem_union.mp houtside with hbetween | hloop
    · exact (hs.mem_betweenKeys.mp hbetween).2.1.ne rfl
    · rw [hseparate c l l' label (hs.mem_loopKeys.mp hloop).1] at hproto
      cases hproto
  rw [placedChannels, Finset.card_union_of_disjoint hinner, Finset.card_union_of_disjoint houter,
    hs.card_innerKeys, hs.card_betweenKeys, hs.card_loopKeys, Nat.add_assoc]

/-- A system of graphs that can be built is flattened without an error.  If no channel
from a cluster to itself has a label of the proto graph, then the channels of the result
are a copy of those of the proto graph for every cluster, one for each two places of
connected clusters, and one for each unordered pair of places, equal ones included, of a
cluster with a channel to itself.  Without any channels from clusters to themselves these
are as many as the system counts. -/
theorem channelCount_flatten (hclusters : Built clusters) (hproto : Built proto)
    (hs : ofGraphs clusters proto = .ok s) :
    let n := clusters.processorCount
    let m := proto.processorCount
    ∃ flat, s.flatten = .ok flat ∧
      ((∀ c l l' label, clusters.hasChannel c c label = true →
          proto.hasChannel l l' label = false) →
        flat.channelCount = proto.channelCount * n + clusters.linkCount * m ^ 2 +
          clusters.loopCount * m * (m + 1) / 2) ∧
      (clusters.loopCount = 0 → flat.channelCount = s.channelCount) := by
  intro n m
  obtain ⟨hformed, flat, hflatten, hflat⟩ := exists_isFlattening hclusters hproto hs
  obtain ⟨rfl, rfl, -⟩ := ofGraphs_spec hs
  refine ⟨flat, hflatten, ?_, ?_⟩
  · intro hseparate
    rw [hflat.channelCount_eq_card hformed, hformed.card_placedChannels hseparate, Nat.mul_assoc,
      Nat.mul_div_assoc _ (Nat.even_mul_succ_self m).two_dvd]
  · intro hnone
    have hlinks : s.clusters.linkCount = s.clusters.channelCount := by
      rw [← linkCount_add_loopCount, hnone, Nat.add_zero]
    have hseparate : ∀ c l l' label, s.clusters.hasChannel c c label = true →
        s.proto.hasChannel l l' label = false := by
      intro c l l' label hloop
      rw [hformed.clusters.hasChannel_iff_mem_channelList s.clusters_undirected, or_self] at hloop
      exact absurd (decide_eq_true rfl) (List.countP_eq_zero.mp hnone _ hloop)
    rw [hflat.channelCount_eq_card hformed, hformed.card_placedChannels hseparate, hnone, hlinks,
      Nat.zero_mul, Nat.add_zero, channelCount, Nat.mul_assoc, Nat.pow_two]

/-- Two clusters of three processors, where the label of the channel between the clusters
is also that of the channels inside of them, once with channels from the clusters to
themselves and once without. -/
theorem channelCount_flatten_complete :
    let clusters := ((complete 2 "C" "X").loopAll "Y").2
    let proto := complete 3 "P" "X"
    Built clusters ∧ Built proto ∧
      (∃ s flat, ofGraphs clusters proto = .ok s ∧ s.flatten = .ok flat ∧
        s.channelCount = 33 ∧ flat.channelCount = 27) ∧
      ∃ s flat, ofGraphs (complete 2 "C" "X") proto = .ok s ∧ s.flatten = .ok flat ∧
        s.channelCount = 15 ∧ flat.channelCount = 15 := by
  intro clusters proto
  have hplain : Built (complete 2 "C" "X") := built_complete 2 "C" "X"
  have hclusters : Built clusters := hplain.loopAll "Y"
  have hproto : Built proto := built_complete 3 "P" "X"
  let looped : UniformSystem := ⟨clusters, proto, rfl, rfl, none⟩
  let plain : UniformSystem := ⟨complete 2 "C" "X", proto, rfl, rfl, none⟩
  have hseparate : ∀ c l l' label, clusters.hasChannel c c label = true →
      proto.hasChannel l l' label = false := by
    intro c l l' label hloop
    have hlabels : ∀ x ∈ clusters.channelList, x.1 = x.2.1 →
        ∀ y ∈ proto.channelList, y.2.2 ≠ x.2.2 := by decide +kernel
    rw [hclusters.wellFormed.hasChannel_iff_mem_channelList rfl, or_self] at hloop
    rw [Bool.eq_false_iff]
    intro hinner
    rcases (hproto.wellFormed.hasChannel_iff_mem_channelList rfl).mp hinner with hmem | hmem
    · exact hlabels _ hloop rfl _ hmem rfl
    · exact hlabels _ hloop rfl _ hmem rfl
  obtain ⟨flat, hflat, hcount, -⟩ := channelCount_flatten (s := looped) hclusters hproto rfl
  obtain ⟨other, hother, -, hsame⟩ := channelCount_flatten (s := plain) hplain hproto rfl
  have hflatCount : flat.channelCount = 27 := (hcount hseparate).trans (by decide +kernel)
  have hotherCount : other.channelCount = 15 :=
    (hsame (by decide +kernel)).trans (by decide +kernel)
  exact ⟨hclusters, hproto, ⟨looped, flat, rfl, hflat, by decide +kernel, hflatCount⟩,
    plain, other, rfl, hother, by decide +kernel, hotherCount⟩

end UniformSystem
end ProcessorSymmetry

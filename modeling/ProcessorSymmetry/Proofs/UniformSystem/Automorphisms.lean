import ProcessorSymmetry.Proofs.Mapping.Equivalence
import ProcessorSymmetry.Proofs.ProcessorGraph.Automorphisms
import ProcessorSymmetry.Proofs.UniformSystem.Flattened

/-!
# Composed automorphisms

The composed group of a system consists of the permutations that permute the
clusters by an automorphism of their graph and rearrange the places in each
cluster by automorphisms of the proto graph.  All of them are automorphisms of
the flattened graph, which may have others: clusters without channels between
their places need not stay together.
-/

namespace ProcessorSymmetry
namespace UniformSystem

open ProcessorGraph Perm

variable {s : UniformSystem} {clusters proto flat : ProcessorGraph} {n : Nat} {p : Perm n}

/-- The permutation permutes the clusters by an automorphism of their graph, and
the places of each cluster by an automorphism of the proto graph. -/
def PermutesClusters (s : UniformSystem) (p : Perm n) : Prop :=
  n = s.processorCount ∧
    ∃ q : Perm s.clusters.processorCount, s.clusters.automorphisms.contains q = true ∧
      ∃ h : Nat → Perm s.proto.processorCount,
        (∀ c < s.clusters.processorCount, s.proto.automorphisms.contains (h c) = true) ∧
        ∀ c < s.clusters.processorCount, ∀ l < s.proto.processorCount,
          p (c * s.proto.processorCount + l) = q c * s.proto.processorCount + h c l

theorem WellFormed.contains_automorphisms_iff (hs : s.WellFormed) :
    s.automorphisms.contains p = true ↔ s.PermutesClusters p := by
  rw [hs.automorphisms_eq, composedAutomorphisms,
    PermGroup.contains_wreathProduct_iff (hs.clusters.degree_automorphisms .search)
      (hs.proto.degree_automorphisms .search)]
  exact Iff.rfl

theorem WellFormed.permutesClusters_iff (hs : s.WellFormed)
    {p : Perm (s.clusters.processorCount * s.proto.processorCount)} :
    s.PermutesClusters p ↔
      ∃ q : Perm s.clusters.processorCount, s.clusters.Preserves q ∧
        ∃ h : Nat → Perm s.proto.processorCount,
          (∀ c < s.clusters.processorCount, s.proto.Preserves (h c)) ∧ MovesBlocks q h p := by
  simp only [PermutesClusters, hs.clusters.contains_automorphisms_iff_preserves,
    hs.proto.contains_automorphisms_iff_preserves]
  exact and_iff_right rfl

/-- What permutes clusters keeps the joined labels, and the channels inside of
clusters and between them, even if they coincide. -/
theorem IsFlattening.preserves (hflat : s.IsFlattening flat) (hs : s.WellFormed)
    (hp : s.PermutesClusters p) : flat.Preserves p := by
  obtain rfl : n = s.clusters.processorCount * s.proto.processorCount := hp.1
  obtain ⟨q, hq, h, hh, hp⟩ := hs.permutesClusters_iff.mp hp
  refine ⟨hflat.processorCount_eq.symm, ?_, ?_⟩
  · intro x hx
    rw [hflat.processorCount_eq] at hx
    obtain ⟨c, hc, l, hl, rfl⟩ := exists_block hx
    rw [hp c hc l hl, hflat.labelOf_block _ (q.app_lt hc) _ ((h c).app_lt hl),
      hflat.labelOf_block c hc l hl, hq.labelOf_eq c hc, (hh c hc).labelOf_eq l hl]
  · intro x hx y hy label
    rw [hflat.processorCount_eq] at hx hy
    obtain ⟨c, hc, l, hl, rfl⟩ := exists_block hx
    obtain ⟨c', hc', l', hl', rfl⟩ := exists_block hy
    rw [Bool.eq_iff_iff, hp c hc l hl, hp c' hc' l' hl',
      hflat.hasChannel_block _ (q.app_lt hc) _ (q.app_lt hc') _ ((h c).app_lt hl) _
        ((h c').app_lt hl'),
      hflat.hasChannel_block c hc c' hc' l hl l' hl', hq.hasChannel_eq c hc c' hc']
    by_cases hcc : c = c'
    · obtain rfl := hcc
      rw [(hh c hc).hasChannel_eq l hl l' hl']
      simp
    · have hqcc : q c ≠ q c' := fun heq => hcc (q.app_injective heq)
      simp [hcc, hqcc]

/-- Whatever permutes clusters is an automorphism of the flattened graph. -/
theorem IsFlattening.isContainedIn (hflat : s.IsFlattening flat) (hs : s.WellFormed)
    (finder : AutomorphismFinder) : s.automorphisms.IsContainedIn (flat.automorphisms finder) := by
  intro n p hp
  rw [hflat.wellFormed.contains_automorphisms_iff_preserves finder]
  exact hflat.preserves hs (hs.contains_automorphisms_iff.mp hp)

/-! ## The composed group and the flattened graph -/

/-- Systems of graphs that can be built can be flattened.  All elements of the
composed group are automorphisms of the flattened graph, so that mappings that
are equivalent on the system, by whatever search, are equivalent on the
flattened graph by every exact search. -/
theorem composed_isContainedIn_flattened (hclusters : Built clusters) (hproto : Built proto)
    (hs : ofGraphs clusters proto = .ok s) (finder : AutomorphismFinder) :
    ∃ flat, s.flatten = .ok flat ∧
      (∀ {n : Nat} (p : Perm n), s.automorphisms.contains p = true →
        (flat.automorphisms finder).contains p = true) ∧
      ∀ (a b : TaskMapping) (options exactly : SearchOptions),
        exactly.method ≠ .descent → exactly.offset = options.offset →
        s.automorphisms.equivalent a b options = .ok true →
        (flat.automorphisms finder).equivalent a b exactly = .ok true := by
  obtain ⟨hformed, flat, hflatten, hflat⟩ := exists_isFlattening hclusters hproto hs
  have hcontained := hflat.isContainedIn hformed finder
  refine ⟨flat, hflatten, fun p hp => hcontained p hp, ?_⟩
  intro a b options exactly hmethod hoffset hequivalent
  exact hcontained.equivalent hmethod hoffset hequivalent

/-- Both levels have channels of one label, so that the flattened graph is a complete one. -/
theorem composed_isContainedIn_flattened_complete :
    let clusters := complete 2 "C" "X"
    let proto := complete 2 "P" "X"
    Built clusters ∧ Built proto ∧ ∃ s flat, ofGraphs clusters proto = .ok s ∧
      s.flatten = .ok flat ∧ flat.automorphisms.contains (swap 4 0 1) = true ∧
      s.automorphisms.equivalent [0, 2] [3, 1] { method := .descent } = .ok true ∧
      flat.automorphisms.equivalent [0, 2] [3, 1] { method := .orbit } = .ok true := by
  intro clusters proto
  have hclusters : Built clusters := built_complete 2 "C" "X"
  have hproto : Built proto := built_complete 2 "P" "X"
  let s : UniformSystem := ⟨clusters, proto, rfl, rfl, none⟩
  have hs : ofGraphs clusters proto = .ok s := rfl
  have hmember : s.automorphisms.contains (swap 4 0 1) = true := by decide +kernel
  have hequivalent :
      s.automorphisms.equivalent [0, 2] [3, 1] { method := .descent } = .ok true := by
    decide +kernel
  obtain ⟨flat, hflatten, hcontains, hmappings⟩ :=
    composed_isContainedIn_flattened hclusters hproto hs .search
  have hmapping := hmappings [0, 2] [3, 1] { method := .descent } { method := .orbit }
    (by decide) rfl hequivalent
  have hflat := hcontains (swap 4 0 1) hmember
  exact ⟨hclusters, hproto, s, flat, hs, hflatten, hflat, hequivalent, hmapping⟩

/-- The composed group has an order that divides the order of the group of the
flattened graph.  They are the same group exactly if the orders are equal, that
is, if every automorphism of the flattened graph permutes the clusters by an
automorphism of their graph and the places in each cluster by an automorphism of
the proto graph. -/
theorem composed_order_dvd_flattened (hclusters : Built clusters) (hproto : Built proto)
    (hs : ofGraphs clusters proto = .ok s) (finder : AutomorphismFinder) :
    ∃ flat, s.flatten = .ok flat ∧
      s.automorphisms.order ∣ (flat.automorphisms finder).order ∧
      (s.automorphisms.same (flat.automorphisms finder) = true ↔
        s.automorphisms.order = (flat.automorphisms finder).order) ∧
      (s.automorphisms.same (flat.automorphisms finder) = true ↔
        ∀ {n : Nat} (p : Perm n), (flat.automorphisms finder).contains p = true →
          s.PermutesClusters p) := by
  obtain ⟨hformed, flat, hflatten, hflat⟩ := exists_isFlattening hclusters hproto hs
  have hcontained := hflat.isContainedIn hformed finder
  refine ⟨flat, hflatten, hcontained.order_dvd, hcontained.same_iff_order_eq, ?_⟩
  rw [PermGroup.same_iff, and_iff_right hcontained]
  simp only [PermGroup.IsContainedIn, hformed.contains_automorphisms_iff]

/-- Connected clusters stay together if channels between them have another label. -/
theorem composed_order_dvd_flattened_connected :
    let clusters := complete 2 "C" "X"
    let proto := complete 2 "P" "Y"
    Built clusters ∧ Built proto ∧ ∃ s flat, ofGraphs clusters proto = .ok s ∧
      s.flatten = .ok flat ∧ s.automorphisms.order = 8 ∧ flat.automorphisms.order = 8 ∧
      s.automorphisms.same flat.automorphisms = true := by
  intro clusters proto
  have hclusters : Built clusters := built_complete 2 "C" "X"
  have hproto : Built proto := built_complete 2 "P" "Y"
  let s : UniformSystem := ⟨clusters, proto, rfl, rfl, none⟩
  have hs : ofGraphs clusters proto = .ok s := rfl
  obtain ⟨-, built, hbuilt, hflattening⟩ := exists_isFlattening hclusters hproto hs
  obtain ⟨flat, hflatten, -, hsame, -⟩ := composed_order_dvd_flattened hclusters hproto hs .search
  obtain rfl : flat = built := Except.ok.inj (hflatten.symm.trans hbuilt)
  have horder : s.automorphisms.order = 8 := by decide +kernel
  have htrial : (flat.automorphismsWith .trial).order = 8 := by
    have hcomputed : s.flatten.map (fun g => (g.automorphismsWith .trial).order) = .ok 8 := by
      decide +kernel
    rw [hflatten] at hcomputed
    exact Except.ok.inj hcomputed
  have hflat : flat.automorphisms.order = 8 :=
    (PermGroup.order_eq_of_same
      (hflattening.wellFormed.same_automorphisms_afresh .search .trial)).trans htrial
  exact ⟨hclusters, hproto, s, flat, hs, hflatten, horder, hflat,
    hsame.mpr (horder.trans hflat.symm)⟩

/-- Two clusters of two processors have eight composed automorphisms.  Without any
channels their flattened graph has all twenty-four permutations. -/
theorem composed_not_same_flattened :
    let clusters := (empty false).addProcessors 2 "C"
    let proto := (empty false).addProcessors 2 "P"
    Built clusters ∧ Built proto ∧ ∃ s flat, ofGraphs clusters proto = .ok s ∧
      s.flatten = .ok flat ∧ s.automorphisms.order = 8 ∧ flat.automorphisms.order = 24 ∧
      s.automorphisms.same flat.automorphisms = false := by
  intro clusters proto
  let s : UniformSystem := ⟨clusters, proto, rfl, rfl, none⟩
  let flat := s.flatLabels.foldl ProcessorGraph.addProcessor (.empty false)
  have horder : s.automorphisms.order = 8 := by decide +kernel
  have hflat : flat.automorphisms.order = 24 := by decide +kernel
  refine ⟨(Built.empty false).addProcessors 2 "C", (Built.empty false).addProcessors 2 "P",
    s, flat, rfl, rfl, horder, hflat, ?_⟩
  simp [PermGroup.same, horder, hflat]

end UniformSystem
end ProcessorSymmetry

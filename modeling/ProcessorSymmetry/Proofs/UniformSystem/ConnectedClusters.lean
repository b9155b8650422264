import Mathlib.Logic.Relation
import ProcessorSymmetry.Proofs.UniformSystem.Automorphisms

/-!
# Connected clusters

If the proto graph is connected, no channel label is used on both levels, and
the labels of clusters can be read off joined labels, then every automorphism of
the flattened graph permutes the clusters.  The channels inside of a cluster
hold its processors together, and what happens to clusters and to places can be
read off labels and channels separately.
-/

namespace ProcessorSymmetry

/-- A text before the first slash can be told from the text after it. -/
theorem append_slash_inj {a a' b b' : String} (ha : '/' ∉ a.toList) (ha' : '/' ∉ a'.toList)
    (h : a ++ "/" ++ b = a' ++ "/" ++ b') : a = a' ∧ b = b' := by
  have hbefore : ∀ {a : String} (b : String), '/' ∉ a.toList →
      (a ++ "/" ++ b).toList.takeWhile (· ≠ '/') = a.toList := by
    intro a b ha
    have hlist : (a ++ "/" ++ b).toList = a.toList ++ '/' :: b.toList := by simp
    have hall : ∀ x ∈ a.toList, decide (x ≠ '/') = true := fun x hx =>
      decide_eq_true fun heq => ha (heq ▸ hx)
    rw [hlist, List.takeWhile_append_of_pos hall]
    simp
  have heq : a = a' := by
    rw [← String.toList_inj, ← hbefore b ha, h, hbefore b' ha']
  subst heq
  simpa using h

namespace ProcessorGraph

/-- All processors are joined by channels between distinct processors. -/
def Connected (g : ProcessorGraph) : Prop :=
  ∀ i < g.processorCount, ∀ j < g.processorCount,
    Relation.ReflTransGen (fun a b => a ≠ b ∧ ∃ label, g.hasChannel a b label = true) i j

end ProcessorGraph

namespace UniformSystem

open ProcessorGraph Perm

variable {s : UniformSystem} {flat : ProcessorGraph} {c c' l l' n : Nat} {label : String}

/-- No channel label is used both between clusters and inside of them. -/
def SeparateChannels (s : UniformSystem) : Prop :=
  ∀ a b i j label, s.clusters.hasChannel a b label = true → s.proto.hasChannel i j label = false

/-- No label of a cluster contains the slash that joins it to the label of a place. -/
def SlashFree (s : UniformSystem) : Prop :=
  ∀ c < s.clusters.processorCount, '/' ∉ (s.clusters.labelOf c).toList

section Parts

variable {p : Perm (s.clusters.processorCount * s.proto.processorCount)}
  {q : Perm s.clusters.processorCount} {h : Nat → Perm s.proto.processorCount}

/-! ## Clusters stay together -/

theorem IsFlattening.sameBlock (hflat : s.IsFlattening flat) (hseparate : s.SeparateChannels)
    (hp : flat.Preserves p) (hc : c < s.clusters.processorCount)
    (hl : l < s.proto.processorCount) (hl' : l' < s.proto.processorCount)
    (hchannel : s.proto.hasChannel l l' label = true) :
    p (c * s.proto.processorCount + l) / s.proto.processorCount =
      p (c * s.proto.processorCount + l') / s.proto.processorCount := by
  have hinside : flat.hasChannel (c * s.proto.processorCount + l)
      (c * s.proto.processorCount + l') label = true :=
    (hflat.hasChannel_block c hc c hc l hl l' hl' label).mpr (.inl ⟨rfl, hchannel⟩)
  rw [← hp.hasChannel_eq _ (hflat.place_lt hc hl) _ (hflat.place_lt hc hl')] at hinside
  obtain ⟨b, hb, i, hi, hpx⟩ := exists_block (p.app_lt (block_lt hc hl))
  obtain ⟨b', hb', j, hj, hpy⟩ := exists_block (p.app_lt (block_lt hc hl'))
  rw [hpx, hpy, hflat.hasChannel_block b hb b' hb' i hi j hj] at hinside
  rw [hpx, hpy, block_div hi, block_div hj]
  rcases hinside with ⟨hsame, -⟩ | hbetween
  · exact hsame
  · rw [hseparate _ _ l l' label hbetween] at hchannel
    cases hchannel

/-- An automorphism of the flattened graph keeps connected clusters together. -/
theorem IsFlattening.keepsBlocks (hflat : s.IsFlattening flat) (hs : s.WellFormed)
    (hconnected : s.proto.Connected) (hseparate : s.SeparateChannels) (hp : flat.Preserves p) :
    KeepsBlocks s.clusters.processorCount s.proto.processorCount p := by
  intro c hc l hl
  have hpath := hconnected 0 (Nat.zero_lt_of_lt hl) l hl
  clear hl
  induction hpath with
  | refl => rfl
  | tail _ hstep ih =>
      obtain ⟨-, label, hchannel⟩ := hstep
      obtain ⟨hi, hj⟩ := hs.proto.hasChannel_lt hchannel
      exact (hflat.sameBlock hseparate hp hc hi hj hchannel).symm.trans ih

/-! ## The two levels can be told apart -/

theorem IsFlattening.hasChannel_between (hflat : s.IsFlattening flat)
    (hnone : ∀ i j, s.proto.hasChannel i j label = false) (hc : c < s.clusters.processorCount)
    (hc' : c' < s.clusters.processorCount) (hl : l < s.proto.processorCount)
    (hl' : l' < s.proto.processorCount) :
    flat.hasChannel (c * s.proto.processorCount + l) (c' * s.proto.processorCount + l') label =
      s.clusters.hasChannel c c' label := by
  rw [Bool.eq_iff_iff, hflat.hasChannel_block c hc c' hc' l hl l' hl']
  simp [hnone]

theorem IsFlattening.hasChannel_inside (hflat : s.IsFlattening flat)
    (hnone : ∀ a b, s.clusters.hasChannel a b label = false) (hc : c < s.clusters.processorCount)
    (hl : l < s.proto.processorCount) (hl' : l' < s.proto.processorCount) :
    flat.hasChannel (c * s.proto.processorCount + l) (c * s.proto.processorCount + l') label =
      s.proto.hasChannel l l' label := by
  rw [Bool.eq_iff_iff, hflat.hasChannel_block c hc c hc l hl l' hl']
  simp [hnone]

theorem SeparateChannels.none_or_none (hseparate : s.SeparateChannels) (label : String) :
    (∀ i j, s.proto.hasChannel i j label = false) ∨
      ∀ a b, s.clusters.hasChannel a b label = false := by
  by_contra hboth
  simp only [not_or, not_forall, Bool.not_eq_false] at hboth
  obtain ⟨⟨i, j, hproto⟩, a, b, hclusters⟩ := hboth
  rw [hseparate a b i j label hclusters] at hproto
  cases hproto

theorem IsFlattening.labels_of_movesBlocks (hflat : s.IsFlattening flat) (hslash : s.SlashFree)
    (hp : flat.Preserves p) (hmoves : MovesBlocks q h p) (hc : c < s.clusters.processorCount)
    (hl : l < s.proto.processorCount) :
    s.clusters.labelOf (q c) = s.clusters.labelOf c ∧
      s.proto.labelOf (h c l) = s.proto.labelOf l := by
  have hlabel := hp.labelOf_eq _ (hflat.place_lt hc hl)
  rw [hmoves c hc l hl, hflat.labelOf_block _ (q.app_lt hc) _ ((h c).app_lt hl),
    hflat.labelOf_block c hc l hl] at hlabel
  exact append_slash_inj (hslash _ (q.app_lt hc)) (hslash c hc) hlabel

theorem IsFlattening.clusters_preserves (hflat : s.IsFlattening flat) (hslash : s.SlashFree)
    (hseparate : s.SeparateChannels) (hm : 0 < s.proto.processorCount) (hp : flat.Preserves p)
    (hmoves : MovesBlocks q h p) : s.clusters.Preserves q := by
  refine ⟨rfl, fun c hc => (hflat.labels_of_movesBlocks hslash hp hmoves hc hm).1, ?_⟩
  intro c hc c' hc' label
  rcases hseparate.none_or_none label with hproto | hclusters
  · calc
      s.clusters.hasChannel (q c) (q c') label =
          flat.hasChannel (p (c * s.proto.processorCount + 0))
            (p (c' * s.proto.processorCount + 0)) label := by
        rw [hmoves c hc 0 hm, hmoves c' hc' 0 hm, hflat.hasChannel_between hproto (q.app_lt hc)
          (q.app_lt hc') ((h c).app_lt hm) ((h c').app_lt hm)]
      _ = flat.hasChannel (c * s.proto.processorCount + 0) (c' * s.proto.processorCount + 0)
            label := hp.hasChannel_eq _ (hflat.place_lt hc hm) _ (hflat.place_lt hc' hm) label
      _ = s.clusters.hasChannel c c' label := hflat.hasChannel_between hproto hc hc' hm hm
  · rw [hclusters, hclusters]

theorem IsFlattening.proto_preserves (hflat : s.IsFlattening flat) (hslash : s.SlashFree)
    (hseparate : s.SeparateChannels) (hp : flat.Preserves p) (hmoves : MovesBlocks q h p)
    (hc : c < s.clusters.processorCount) : s.proto.Preserves (h c) := by
  refine ⟨rfl, fun l hl => (hflat.labels_of_movesBlocks hslash hp hmoves hc hl).2, ?_⟩
  intro l hl l' hl' label
  rcases hseparate.none_or_none label with hproto | hclusters
  · rw [hproto, hproto]
  · calc
      s.proto.hasChannel (h c l) (h c l') label =
          flat.hasChannel (p (c * s.proto.processorCount + l))
            (p (c * s.proto.processorCount + l')) label := by
        rw [hmoves c hc l hl, hmoves c hc l' hl', hflat.hasChannel_inside hclusters
          (q.app_lt hc) ((h c).app_lt hl) ((h c).app_lt hl')]
      _ = flat.hasChannel (c * s.proto.processorCount + l) (c * s.proto.processorCount + l')
            label := hp.hasChannel_eq _ (hflat.place_lt hc hl) _ (hflat.place_lt hc hl') label
      _ = s.proto.hasChannel l l' label := hflat.hasChannel_inside hclusters hc hl hl'

end Parts

/-- Under these assumptions every automorphism of the flattened graph permutes clusters. -/
theorem IsFlattening.permutesClusters (hflat : s.IsFlattening flat) (hs : s.WellFormed)
    (hconnected : s.proto.Connected) (hseparate : s.SeparateChannels) (hslash : s.SlashFree)
    {p : Perm n} (hp : flat.Preserves p) : s.PermutesClusters p := by
  obtain rfl : n = s.clusters.processorCount * s.proto.processorCount :=
    hp.degree_eq.trans hflat.processorCount_eq
  rw [hs.permutesClusters_iff]
  rcases Nat.eq_zero_or_pos s.proto.processorCount with hm | hm
  · -- Without places there is nothing to be moved.
    refine ⟨1, preserves_one rfl, fun _ => 1, fun c _ => preserves_one rfl, ?_⟩
    intro c _ l hl
    omega
  · obtain ⟨q, h, hmoves⟩ := exists_movesBlocks hm
      (hflat.keepsBlocks hs hconnected hseparate hp)
      (hflat.keepsBlocks hs hconnected hseparate hp.inv)
    exact ⟨q, hflat.clusters_preserves hslash hseparate hm hp hmoves, h,
      fun c hc => hflat.proto_preserves hslash hseparate hp hmoves hc, hmoves⟩

/-- Over a connected proto graph, with different labels of channels on the two
levels and without slashes in the labels of clusters, composing the groups of the
parts and flattening first give the same group.  Its elements permute the clusters
by an automorphism of their graph and act on each cluster by an automorphism of
the proto graph. -/
theorem composed_same_flattened {clusters proto : ProcessorGraph} (hclusters : Built clusters)
    (hproto : Built proto) (hclusters_undirected : clusters.directed = false)
    (hproto_undirected : proto.directed = false) (hconnected : proto.Connected)
    (hseparate : ∀ a b i j label, clusters.hasChannel a b label = true →
      proto.hasChannel i j label = false)
    (hslash : ∀ c < clusters.processorCount, '/' ∉ (clusters.labelOf c).toList)
    (finder : AutomorphismFinder) :
    ∃ s flat, ofGraphs clusters proto = .ok s ∧ s.flatten = .ok flat ∧
      s.automorphisms.same (flat.automorphisms finder) = true ∧
      ∀ {n : Nat} (p : Perm n),
        (flat.automorphisms finder).contains p = s.automorphisms.contains p ∧
        ((flat.automorphisms finder).contains p = true ↔ s.PermutesClusters p) := by
  let s : UniformSystem := ⟨clusters, proto, hclusters_undirected, hproto_undirected, none⟩
  have hs : ofGraphs clusters proto = .ok s := by
    rw [ofGraphs, dif_pos hclusters_undirected, dif_pos hproto_undirected]
  obtain ⟨hformed, flat, hflatten, hflat⟩ := exists_isFlattening hclusters hproto hs
  have hpermutes : ∀ {n : Nat} (p : Perm n),
      (flat.automorphisms finder).contains p = true ↔ s.PermutesClusters p := by
    intro n p
    rw [hflat.wellFormed.contains_automorphisms_iff_preserves]
    exact ⟨hflat.permutesClusters hformed hconnected hseparate hslash,
      hflat.preserves hformed⟩
  have hcontains : ∀ {n : Nat} (p : Perm n),
      (flat.automorphisms finder).contains p = s.automorphisms.contains p := by
    intro n p
    rw [Bool.eq_iff_iff, hpermutes, hformed.contains_automorphisms_iff]
  refine ⟨s, flat, hs, hflatten, ?_, fun p => ⟨hcontains p, hpermutes p⟩⟩
  rw [PermGroup.same_iff]
  exact ⟨fun _ p hp => (hcontains p).trans hp, fun _ p hp => (hcontains p).symm.trans hp⟩

/-- Two connected clusters of two processors, where each cluster also has a channel to itself. -/
theorem composed_same_flattened_complete :
    let clusters := ((complete 2 "C" "X").loopAll "X").2
    let proto := complete 2 "P" "Y"
    Built clusters ∧ Built proto ∧ proto.Connected ∧
      (∀ a b i j label, clusters.hasChannel a b label = true →
        proto.hasChannel i j label = false) ∧
      ∃ s flat, ofGraphs clusters proto = .ok s ∧ s.flatten = .ok flat ∧
        s.automorphisms.same flat.automorphisms = true ∧
        flat.automorphisms.contains (swap 4 0 1) = true ∧
        flat.automorphisms.contains (swap 4 1 2) = false := by
  intro clusters proto
  have hclusters : Built clusters := (built_complete 2 "C" "X").loopAll "X"
  have hproto : Built proto := built_complete 2 "P" "Y"
  have hjoined : ∀ i < 2, ∀ j < 2, i ≠ j → proto.hasChannel i j "Y" = true := by decide +kernel
  have hconnected : proto.Connected := by
    intro i hi j hj
    by_cases hij : i = j
    · rw [hij]
    · exact .single ⟨hij, "Y", hjoined i hi j hj hij⟩
  have hX : clusters.channelList = [(0, 1, "X"), (0, 0, "X"), (1, 1, "X")] := by decide +kernel
  have hY : proto.channelList = [(0, 1, "Y")] := by decide +kernel
  have hseparate : ∀ a b i j label, clusters.hasChannel a b label = true →
      proto.hasChannel i j label = false := by
    intro a b i j label hchannel
    rw [hclusters.wellFormed.hasChannel_iff_mem_channelList rfl, hX] at hchannel
    rw [Bool.eq_false_iff, Ne, hproto.wellFormed.hasChannel_iff_mem_channelList rfl, hY]
    grind
  have hslash : ∀ c < clusters.processorCount, '/' ∉ (clusters.labelOf c).toList := by
    decide +kernel
  let system : UniformSystem := ⟨clusters, proto, rfl, rfl, none⟩
  have hplaces : system.automorphisms.contains (swap 4 0 1) = true := by decide +kernel
  have hapart : system.automorphisms.contains (swap 4 1 2) = false := by decide +kernel
  obtain ⟨s, flat, hs, hflatten, hsame, hcontains⟩ := composed_same_flattened hclusters hproto
    rfl rfl hconnected hseparate hslash .search
  obtain rfl : s = system := (Except.ok.inj hs).symm
  exact ⟨hclusters, hproto, hconnected, hseparate, system, flat, hs, hflatten, hsame,
    (hcontains _).1.trans hplaces, (hcontains _).1.trans hapart⟩

end UniformSystem
end ProcessorSymmetry

import ProcessorSymmetry.Proofs.Architecture.Built
import ProcessorSymmetry.Proofs.Perm.Images
import ProcessorSymmetry.Proofs.ProcessorGraph.Records

/-!
# Architectures that are restored from their forms

The canonical form of an architecture describes an architecture that agrees with it
in everything that a form can tell: it has the same form, as many processors and
channels, and the same automorphisms.  This is proved along the nesting of clusters.
-/

namespace ProcessorSymmetry

open Perm

namespace UniformSystem

/-- A system only depends on the elements of the groups of its parts. -/
theorem WellFormed.same_automorphisms {s t : UniformSystem} (hs : s.WellFormed)
    (ht : t.WellFormed) (hclusters : t.clusters.toRecord = s.clusters.toRecord)
    (hproto : t.proto.toRecord = s.proto.toRecord) :
    s.automorphisms.same t.automorphisms = true := by
  rw [hs.automorphisms_eq, ht.automorphisms_eq]
  exact PermGroup.same_wreathProduct (hs.proto.same_automorphisms_of_toRecord ht.proto hproto)
    (hs.clusters.same_automorphisms_of_toRecord ht.clusters hclusters)

end UniformSystem

namespace Architecture

variable {a : Architecture} {parts : List Architecture}

/-- `b` has the form of `a`, as many processors and channels, and the same automorphisms. -/
structure AgreesWith (a b : Architecture) : Prop where
  toForm_eq : b.toForm = a.toForm
  processorCount_eq : b.processorCount = a.processorCount
  channelCount_eq : b.channelCount = a.channelCount
  same : a.sameAutomorphisms b = true

/-! ## Graphs, systems and groups -/

theorem agree_graph {g h : ProcessorGraph} (hg : g.WellFormed) (hh : h.WellFormed)
    (hgh : h.toRecord = g.toRecord) : (graph g).AgreesWith (graph h) where
  toForm_eq := by rw [toForm, toForm, hgh]
  processorCount_eq := ProcessorGraph.processorCount_eq_of_toRecord hgh
  channelCount_eq := ProcessorGraph.channelCount_eq_of_toRecord hgh
  same := hg.same_automorphisms_of_toRecord hh hgh

theorem exists_graph_restored {g : ProcessorGraph} (hg : g.WellFormed) :
    ∃ b, ofForm (graph g).toForm = .ok b ∧ (graph g).AgreesWith b := by
  obtain ⟨h, hh, hformed, hrecord⟩ := hg.exists_ofRecord_toRecord
  refine ⟨.graph h, ?_, agree_graph hg hformed hrecord⟩
  rw [toForm, ofForm, hh]
  rfl

theorem exists_uniform_restored {s : UniformSystem} (hs : s.WellFormed) :
    ∃ b, ofForm (uniform s).toForm = .ok b ∧ (uniform s).AgreesWith b := by
  obtain ⟨clusters, hclusters, hclustersFormed, hclustersRecord⟩ :=
    hs.clusters.exists_ofRecord_toRecord
  obtain ⟨proto, hproto, hprotoFormed, hprotoRecord⟩ := hs.proto.exists_ofRecord_toRecord
  have hundirected : clusters.directed = false :=
    (congrArg GraphRecord.directed hclustersRecord).trans s.clusters_undirected
  have hundirected' : proto.directed = false :=
    (congrArg GraphRecord.directed hprotoRecord).trans s.proto_undirected
  let t : UniformSystem := ⟨clusters, proto, hundirected, hundirected', none⟩
  have ht : UniformSystem.ofGraphs clusters proto = .ok t := by
    rw [UniformSystem.ofGraphs, dif_pos hundirected, dif_pos hundirected']
  have htFormed := (UniformSystem.WellFormed.ofGraphs hclustersFormed hprotoFormed ht).1
  have hcount := ProcessorGraph.processorCount_eq_of_toRecord hclustersRecord
  have hcount' := ProcessorGraph.processorCount_eq_of_toRecord hprotoRecord
  have hchannels := ProcessorGraph.channelCount_eq_of_toRecord hclustersRecord
  have hchannels' := ProcessorGraph.channelCount_eq_of_toRecord hprotoRecord
  refine ⟨.uniform t, ?_, ?_, ?_, ?_, hs.same_automorphisms htFormed hclustersRecord hprotoRecord⟩
  · rw [toForm, ofForm, uniformOfRecords, hclusters, hproto]
    simp only [bind, Except.bind, ht]
    rfl
  · rw [toForm, toForm, hclustersRecord, hprotoRecord]
  · simp only [processorCount, UniformSystem.processorCount, t, hcount, hcount']
  · simp only [channelCount, UniformSystem.channelCount, t, hcount, hcount', hchannels, hchannels']

theorem groupOfImages_generators (G : PermGroup) :
    groupOfImages G.degree (G.generators.map toList) = .ok (.generatedBy G.generators) := by
  let entries : List AnyPerm := G.generators.map (Sigma.mk G.degree)
  have himages : G.generators.map toList = entries.map fun a => a.2.toList := by
    rw [List.map_map]
    rfl
  rw [groupOfImages, himages, mapM_map_eq_ok fun a _ => ofImages_toList a]
  exact mapError_eq_ok_iff.mpr (PermGroup.ofGenerators_map_mk G.generators)

/-- A group is restored from its generators, also if it answers through the chain of
the symmetric group. -/
theorem exists_group_restored (G : PermGroup) :
    ∃ b, ofForm (group G).toForm = .ok b ∧ (group G).AgreesWith b := by
  refine ⟨.group (.generatedBy G.generators), ?_, rfl, rfl, rfl, ?_⟩
  · rw [toForm, ofForm, groupOfImages_generators]
    rfl
  · rw [sameAutomorphisms, PermGroup.same_iff_contains]
    intro n p
    rw [automorphisms, automorphisms, PermGroup.contains_iff, PermGroup.contains_iff]
    exact Iff.rfl

/-! ## Clusters -/

/-- If each part is restored, then all of them are, in order. -/
theorem exists_parts_restored
    (h : ∀ a ∈ parts, ∃ b, ofForm a.toForm = .ok b ∧ a.AgreesWith b) :
    ∃ others, ofFormAll (toFormAll parts) = .ok others ∧ List.Forall₂ AgreesWith parts others := by
  induction parts with
  | nil =>
      refine ⟨[], ?_, .nil⟩
      rw [toFormAll, ofFormAll]
      rfl
  | cons a rest ih =>
      obtain ⟨⟨b, hb, hab⟩, hrest⟩ := List.forall_mem_cons.mp h
      obtain ⟨others, hothers, hagree⟩ := ih hrest
      refine ⟨b :: others, ?_, .cons hab hagree⟩
      rw [toFormAll, ofFormAll, hb, hothers]
      rfl

theorem agree_ofParts {others : List Architecture} (h : List.Forall₂ AgreesWith parts others) :
    (ofParts parts).AgreesWith (ofParts others) where
  toForm_eq := by
    rw [ofParts, ofParts, toForm, toForm]
    congr 1
    induction h with
    | nil => rfl
    | cons hab _ ih => rw [toFormAll, toFormAll, hab.toForm_eq, ih]
  processorCount_eq := by
    rw [ofParts, ofParts, processorCount, processorCount]
    induction h with
    | nil => rfl
    | cons hab _ ih => rw [processorCountAll, processorCountAll, hab.processorCount_eq, ih]
  channelCount_eq := by
    rw [ofParts, ofParts, channelCount, channelCount]
    induction h with
    | nil => rfl
    | cons hab _ ih => rw [channelCountAll, channelCountAll, hab.channelCount_eq, ih]
  same := by
    rw [sameAutomorphisms, ofParts, ofParts, automorphisms, automorphisms]
    apply PermGroup.same_directProduct
    induction h with
    | nil => exact .nil
    | cons hab _ ih => exact .cons hab.same ih

/-- What a cluster remembers is lost in its form, but it is not needed either. -/
theorem agree_cluster {cached : Option PermGroup} {b : Architecture}
    (h : (ofParts parts).AgreesWith b)
    (hcached : ∀ G, cached = some G → G = .directProduct (automorphismsAll parts)) :
    (cluster parts cached).AgreesWith b where
  toForm_eq := h.toForm_eq
  processorCount_eq := h.processorCount_eq
  channelCount_eq := h.channelCount_eq
  same := by
    rw [sameAutomorphisms, automorphisms_cluster hcached]
    exact h.same

/-! ## All architectures -/

theorem WellFormed.exists_restored (ha : a.WellFormed) :
    ∃ b, ofForm a.toForm = .ok b ∧ a.AgreesWith b := by
  induction ha with
  | graph formed => exact exists_graph_restored formed
  | uniform formed => exact exists_uniform_restored formed
  | group G => exact exists_group_restored G
  | cluster _ cached_eq ih =>
      obtain ⟨others, hothers, hagree⟩ := exists_parts_restored ih
      refine ⟨.ofParts others, ?_, agree_cluster (agree_ofParts hagree) cached_eq⟩
      rw [toForm, ofForm, hothers]
      rfl

/-- The canonical form of an architecture is accepted.  It describes an architecture
with the same form, as many processors and channels, and an equal automorphism group. -/
theorem exists_ofForm_toForm (ha : Built a) :
    ∃ b, ofForm a.toForm = .ok b ∧ b.toForm = a.toForm ∧
      b.processorCount = a.processorCount ∧ b.channelCount = a.channelCount ∧
      a.sameAutomorphisms b = true ∧
      ∀ ⦃n : Nat⦄ (p : Perm n), a.automorphisms.contains p = b.automorphisms.contains p := by
  obtain ⟨b, hb, hagree⟩ := ha.wellFormed.exists_restored
  refine ⟨b, hb, hagree.toForm_eq, hagree.processorCount_eq, hagree.channelCount_eq,
    hagree.same, fun n p => ?_⟩
  rw [Bool.eq_iff_iff]
  exact PermGroup.same_iff_contains.mp hagree.same p

/-- A directed graph beside a cluster of a system and a group, which remembers its automorphisms. -/
theorem exists_ofForm_toForm_nested :
    let g := (((ProcessorGraph.empty true).addProcessor "P").addProcessor "Q").connectAll "C"
    let s : UniformSystem :=
      ⟨.complete 2 "P" "C", .mesh 2 1 "Q" "D", rfl, rfl, none⟩
    let a := ofParts [graph g.2, (ofParts [uniform s, group (.symmetric 3)]).remember]
    Built a ∧ ∃ b, ofForm a.toForm = .ok b ∧ b.toForm = a.toForm ∧
      b.processorCount = 9 ∧ b.channelCount = 8 ∧ a.sameAutomorphisms b = true := by
  intro g s a
  have hg : g.2.Built :=
    (((ProcessorGraph.Built.empty true).addProcessor "P").addProcessor "Q").connectAll "C"
  have hs : Built (uniform s) :=
    .uniform (ProcessorGraph.built_complete 2 "P" "C") (.mesh 2 1 "Q" "D") rfl
  have hinner : Built (ofParts [uniform s, group (.symmetric 3)]).remember := by
    refine .remember (.ofParts ?_)
    simpa using ⟨hs, Built.group (.symmetric 3)⟩
  have ha : Built a := by
    refine .ofParts ?_
    simpa using ⟨Built.graph hg, hinner⟩
  obtain ⟨b, hb, hform, hprocessors, hchannels, hsame, -⟩ := exists_ofForm_toForm ha
  have hcounts : a.processorCount = 9 ∧ a.channelCount = 8 := by decide +kernel
  exact ⟨ha, b, hb, hform, hprocessors.trans hcounts.1, hchannels.trans hcounts.2, hsame⟩

end Architecture
end ProcessorSymmetry

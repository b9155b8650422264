import ProcessorSymmetry.Architecture.Form
import ProcessorSymmetry.Proofs.Group.DirectProduct
import ProcessorSymmetry.Proofs.ProcessorGraph.Built
import ProcessorSymmetry.Proofs.UniformSystem.Flattened

/-!
# Architectures that can be built

Architectures are built from graphs, from systems of graphs and from bare groups by
putting them side by side, and by asking for automorphism groups in between.  What
they remember is up to date, at every depth.  Architectures that are restored from
forms are built in the same way.
-/

namespace ProcessorSymmetry
namespace Architecture

variable {a part whole : Architecture} {parts : List Architecture}

/-- The architectures that arise by the public operations. -/
inductive Built : Architecture → Prop
  | graph {g : ProcessorGraph} (built : g.Built) : Built (.graph g)
  | uniform {clusters proto : ProcessorGraph} {s : UniformSystem}
      (clusters_built : clusters.Built) (proto_built : proto.Built)
      (composed : UniformSystem.ofGraphs clusters proto = .ok s) : Built (.uniform s)
  | group (G : PermGroup) : Built (.group G)
  | ofParts {parts : List Architecture} (built : ∀ a ∈ parts, Built a) : Built (ofParts parts)
  | addPart {a part whole : Architecture} (built : Built a) (part_built : Built part)
      (added : a.addPart? part = some whole) : Built whole
  | remember {a : Architecture} (built : Built a) : Built a.remember

/-- Parts are well-formed at every depth, and what is remembered is the group that
would be computed now. -/
inductive WellFormed : Architecture → Prop
  | graph {g : ProcessorGraph} (formed : g.WellFormed) : WellFormed (.graph g)
  | uniform {s : UniformSystem} (formed : s.WellFormed) : WellFormed (.uniform s)
  | cluster {parts : List Architecture} {cached : Option PermGroup}
      (formed : ∀ a ∈ parts, WellFormed a)
      (cached_eq : ∀ G, cached = some G → G = .directProduct (automorphismsAll parts)) :
      WellFormed (.cluster parts cached)
  | group (G : PermGroup) : WellFormed (.group G)

theorem automorphisms_cluster {cached : Option PermGroup}
    (h : ∀ G, cached = some G → G = .directProduct (automorphismsAll parts)) :
    (cluster parts cached).automorphisms = .directProduct (automorphismsAll parts) := by
  cases cached with
  | none => rw [automorphisms]
  | some G =>
      rw [automorphisms]
      exact h G rfl

theorem WellFormed.addPart (ha : a.WellFormed) (hpart : part.WellFormed)
    (hadded : a.addPart? part = some whole) : whole.WellFormed := by
  cases ha with
  | graph _ => cases hadded
  | uniform _ => cases hadded
  | group _ => cases hadded
  | cluster hparts _ =>
      obtain rfl := Option.some.inj hadded
      refine .cluster (fun b hb => ?_) (by simp)
      rcases List.mem_append.mp hb with hb | hb
      · exact hparts b hb
      · rwa [List.mem_singleton.mp hb]

theorem WellFormed.remember (ha : a.WellFormed) : a.remember.WellFormed := by
  cases ha with
  | graph hg => exact .graph (hg.remember .search)
  | uniform hs => exact .uniform hs.remember
  | group G => exact .group G
  | cluster hparts hcached =>
      refine .cluster hparts fun G hG => ?_
      rw [← Option.some.inj hG, automorphisms_cluster hcached]

theorem Built.wellFormed (ha : Built a) : a.WellFormed := by
  induction ha with
  | graph built => exact .graph built.wellFormed
  | uniform hclusters hproto composed =>
      exact .uniform (UniformSystem.WellFormed.ofGraphs hclusters.wellFormed hproto.wellFormed
        composed).1
  | group G => exact .group G
  | ofParts _ ih => exact .cluster ih (by simp)
  | addPart _ _ added iha ihpart => exact iha.addPart ihpart added
  | remember _ ih => exact ih.remember

/-! ## Architectures that are restored -/

theorem built_uniformOfRecords {clusters proto : GraphRecord} {s : UniformSystem}
    (h : uniformOfRecords clusters proto = .ok s) : Built (.uniform s) := by
  obtain ⟨g, hg, h⟩ := bind_eq_ok_iff.mp h
  obtain ⟨k, hk, h⟩ := bind_eq_ok_iff.mp h
  refine .uniform (ProcessorGraph.built_ofRecord hg) (ProcessorGraph.built_ofRecord hk) ?_
  exact mapError_eq_ok_iff.mp h

mutual

theorem built_ofForm : ∀ (form : Form) {a : Architecture}, ofForm form = .ok a → Built a
  | .graph record, a, h => by
      rw [ofForm] at h
      obtain ⟨g, hg, h⟩ := bind_eq_ok_iff.mp h
      obtain rfl := Except.ok.inj h
      exact .graph (ProcessorGraph.built_ofRecord hg)
  | .uniform clusters proto, a, h => by
      rw [ofForm] at h
      obtain ⟨s, hs, h⟩ := bind_eq_ok_iff.mp h
      obtain rfl := Except.ok.inj h
      exact built_uniformOfRecords hs
  | .cluster forms, a, h => by
      rw [ofForm] at h
      obtain ⟨parts, hparts, h⟩ := bind_eq_ok_iff.mp h
      obtain rfl := Except.ok.inj h
      exact .ofParts (built_ofFormAll forms hparts)
  | .group degree generators, a, h => by
      rw [ofForm] at h
      obtain ⟨G, -, h⟩ := bind_eq_ok_iff.mp h
      obtain rfl := Except.ok.inj h
      exact .group G

theorem built_ofFormAll : ∀ (forms : List Form) {parts : List Architecture},
    ofFormAll forms = .ok parts → ∀ a ∈ parts, Built a
  | [], parts, h => by
      rw [ofFormAll] at h
      obtain rfl := Except.ok.inj h
      simp
  | form :: rest, parts, h => by
      rw [ofFormAll] at h
      obtain ⟨a, ha, h⟩ := bind_eq_ok_iff.mp h
      obtain ⟨others, hothers, h⟩ := bind_eq_ok_iff.mp h
      obtain rfl := Except.ok.inj h
      exact List.forall_mem_cons.mpr ⟨built_ofForm form ha, built_ofFormAll rest hothers⟩

end

end Architecture
end ProcessorSymmetry

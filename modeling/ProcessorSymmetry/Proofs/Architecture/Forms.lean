import ProcessorSymmetry.Proofs.Architecture.RoundTrip

/-!
# Forms that describe architectures

A form describes an architecture if its channels lead between processors, its systems
are undirected, and its generators are arrangements of the domain, at every depth.
Then it is accepted, and the architecture has the same form less the channels that
repeat earlier ones.  Any other form is refused as malformed.

Reading a form is a sequence of readings of its components.  What is known of an
outcome is stated once, and carries over from the components to the whole.
-/

namespace ProcessorSymmetry

namespace Form

/-- The forms that describe architectures. -/
inductive WellFormed : Form → Prop
  | graph {record : GraphRecord} (formed : record.WellFormed) : WellFormed (.graph record)
  | uniform {clusters proto : GraphRecord} (clusters_formed : clusters.WellFormed)
      (proto_formed : proto.WellFormed) (clusters_undirected : clusters.directed = false)
      (proto_undirected : proto.directed = false) : WellFormed (.uniform clusters proto)
  | cluster {parts : List Form} (formed : ∀ form ∈ parts, WellFormed form) :
      WellFormed (.cluster parts)
  | group {degree : Nat} {generators : List (List Nat)}
      (arranged : ∀ images ∈ generators, images.Perm (List.range degree)) :
      WellFormed (.group degree generators)

mutual

/-- The form with no channel that repeats an earlier one of its record. -/
def withoutRepeats : Form → Form
  | .graph record => .graph record.withoutRepeats
  | .uniform clusters proto => .uniform clusters.withoutRepeats proto.withoutRepeats
  | .cluster parts => .cluster (withoutRepeatsAll parts)
  | .group degree generators => .group degree generators

/-- Each of the forms with no channel that repeats an earlier one of its record. -/
def withoutRepeatsAll : List Form → List Form
  | [] => []
  | form :: rest => form.withoutRepeats :: withoutRepeatsAll rest

end

section Cases

variable {record clusters proto : GraphRecord} {parts : List Form} {degree : Nat}
  {generators : List (List Nat)}

theorem wellFormed_graph_iff : (graph record).WellFormed ↔ record.WellFormed := by
  constructor
  · intro (.graph formed)
    exact formed
  · exact .graph

theorem wellFormed_uniform_iff : (uniform clusters proto).WellFormed ↔
    clusters.WellFormed ∧ proto.WellFormed ∧
      clusters.directed = false ∧ proto.directed = false := by
  constructor
  · intro (.uniform hclusters hproto hundirected hundirected')
    exact ⟨hclusters, hproto, hundirected, hundirected'⟩
  · intro ⟨hclusters, hproto, hundirected, hundirected'⟩
    exact .uniform hclusters hproto hundirected hundirected'

theorem wellFormed_cluster_iff :
    (cluster parts).WellFormed ↔ ∀ form ∈ parts, form.WellFormed := by
  constructor
  · intro (.cluster formed)
    exact formed
  · exact .cluster

theorem wellFormed_group_iff : (group degree generators).WellFormed ↔
    ∀ images ∈ generators, images.Perm (List.range degree) := by
  constructor
  · intro (.group arranged)
    exact arranged
  · exact .group

end Cases

end Form

/-! ## Outcomes -/

/-- What was read is well-formed and was accepted, with a property of the value, or it is
not well-formed and was refused as malformed. -/
def Decides {α : Type} (formed : Prop) (property : α → Prop) : Except Error α → Prop
  | .ok a => formed ∧ property a
  | .error e => ¬formed ∧ ∃ cause, e = .malformedForm cause

namespace Decides

variable {α β : Type} {formed formed' : Prop} {property : α → Prop} {property' : β → Prop}
  {x : Except Error α}

theorem of_mapError (hsound : ∀ a, x = .ok a → formed)
    (hcomplete : formed → ∃ a, x = .ok a ∧ property a) :
    Decides formed property (x.mapError .malformedForm) := by
  cases x with
  | ok a =>
      have hformed := hsound a rfl
      obtain ⟨b, hb, hproperty⟩ := hcomplete hformed
      obtain rfl : a = b := Except.ok.inj hb
      exact ⟨hformed, hproperty⟩
  | error cause =>
      refine ⟨fun hformed => ?_, cause, rfl⟩
      obtain ⟨a, ha, -⟩ := hcomplete hformed
      cases ha

/-- The parts of a whole are read one after the other. -/
theorem bind {f : α → Except Error β} (hx : Decides formed property x)
    (hf : ∀ a, property a → Decides formed' property' (f a)) :
    Decides (formed ∧ formed') property' (x >>= f) := by
  cases x with
  | error cause => exact ⟨mt And.left hx.1, hx.2⟩
  | ok a =>
      have hnext := hf a hx.2
      change Decides (formed ∧ formed') property' (f a)
      cases hfa : f a with
      | error cause =>
          rw [hfa] at hnext
          exact ⟨mt And.right hnext.1, hnext.2⟩
      | ok b =>
          rw [hfa] at hnext
          exact ⟨⟨hx.1, hnext.1⟩, hnext.2⟩

/-- A whole is made of a part that was read. -/
theorem map {f : α → β} (hx : Decides formed property x)
    (hf : ∀ a, property a → property' (f a)) :
    Decides formed property' (x >>= fun a => pure (f a)) := by
  cases x with
  | error cause => exact hx
  | ok a => exact ⟨hx.1, hf a hx.2⟩

theorem imp {property' : α → Prop} (hx : Decides formed property x)
    (h : ∀ a, property a → property' a) : Decides formed property' x := by
  cases x with
  | error cause => exact hx
  | ok a => exact ⟨hx.1, h a hx.2⟩

end Decides

namespace Architecture

open Perm

/-! ## Records and generators -/

theorem decides_ofRecord (record : GraphRecord) :
    Decides record.WellFormed (fun g => g.toRecord = record.withoutRepeats)
      (ProcessorGraph.ofRecord record) := by
  apply Decides.of_mapError
  · intro g hg
    exact ProcessorGraph.wellFormed_of_ofRecord (mapError_eq_ok_iff.mpr hg)
  · intro hrecord
    obtain ⟨g, hg, -, hsame⟩ := ProcessorGraph.exists_ofRecord hrecord
    exact ⟨g, mapError_eq_ok_iff.mp hg, hsame⟩

theorem decides_ofGraphs (clusters proto : ProcessorGraph) :
    Decides (clusters.directed = false ∧ proto.directed = false)
      (fun s => s.clusters = clusters ∧ s.proto = proto)
      ((UniformSystem.ofGraphs clusters proto).mapError .malformedForm) := by
  apply Decides.of_mapError
  · intro s hs
    obtain ⟨rfl, rfl, -⟩ := UniformSystem.ofGraphs_spec hs
    exact ⟨s.clusters_undirected, s.proto_undirected⟩
  · intro ⟨hclusters, hproto⟩
    refine ⟨⟨clusters, proto, hclusters, hproto, none⟩, ?_, rfl, rfl⟩
    rw [UniformSystem.ofGraphs, dif_pos hclusters, dif_pos hproto]

theorem decides_uniformOfRecords (clusters proto : GraphRecord) :
    Decides (clusters.WellFormed ∧ proto.WellFormed ∧
        clusters.directed = false ∧ proto.directed = false)
      (fun s => s.clusters.toRecord = clusters.withoutRepeats ∧
        s.proto.toRecord = proto.withoutRepeats)
      (uniformOfRecords clusters proto) := by
  refine (decides_ofRecord clusters).bind fun g hg => ?_
  refine (decides_ofRecord proto).bind fun h hh => ?_
  have hclusters : g.directed = clusters.directed := congrArg GraphRecord.directed hg
  have hproto : h.directed = proto.directed := congrArg GraphRecord.directed hh
  rw [← hclusters, ← hproto, ← hg, ← hh]
  refine (decides_ofGraphs g h).imp fun s hs => ?_
  exact ⟨congrArg ProcessorGraph.toRecord hs.1, congrArg ProcessorGraph.toRecord hs.2⟩

/-- Images that were read as generators of a degree arrange its domain. -/
theorem perm_range_of_groupOfImages {degree : Nat} {generators : List (List Nat)} {G : PermGroup}
    (h : groupOfImages degree generators = .ok G) :
    ∀ images ∈ generators, images.Perm (List.range degree) := by
  obtain ⟨entries, hentries, h⟩ := bind_eq_ok_iff.mp (mapError_eq_ok_iff.mp h)
  obtain ⟨perms, hperms, -⟩ := bind_eq_ok_iff.mp h
  intro images himages
  obtain ⟨entry, hentry, hread⟩ := mapM_eq_ok hentries images himages
  obtain ⟨p, hp, hread⟩ := bind_eq_ok_iff.mp hread
  obtain rfl := Except.ok.inj hread
  obtain ⟨q, -, hq⟩ := mapM_eq_ok hperms _ hentry
  have hdegree : images.length = degree := by
    split at hq
    · rename_i hofDegree
      exact (ofDegree?_eq_some_iff.mp hofDegree).1
    · cases hq
  have hperm := p.toList_perm_range
  rwa [ofImages_eq_ok_iff.mp hp, hdegree] at hperm

theorem exists_groupOfImages {degree : Nat} {generators : List (List Nat)}
    (h : ∀ images ∈ generators, images.Perm (List.range degree)) :
    ∃ G, groupOfImages degree generators = .ok G ∧
      G.degree = degree ∧ G.generators.map toList = generators := by
  have hperms : generators ∈ Set.range (List.map (toList : Perm degree → List Nat)) := by
    rw [Set.range_list_map]
    exact fun images himages => exists_toList_eq (h images himages)
  obtain ⟨perms, rfl⟩ := hperms
  exact ⟨.generatedBy perms, groupOfImages_generators (.generatedBy perms), rfl, rfl⟩

theorem decides_groupOfImages (degree : Nat) (generators : List (List Nat)) :
    Decides (∀ images ∈ generators, images.Perm (List.range degree))
      (fun G => G.degree = degree ∧ G.generators.map toList = generators)
      (groupOfImages degree generators) := by
  apply Decides.of_mapError
  · intro G hG
    exact perm_range_of_groupOfImages (mapError_eq_ok_iff.mpr hG)
  · intro hperm
    obtain ⟨G, hG, hsame⟩ := exists_groupOfImages hperm
    exact ⟨G, mapError_eq_ok_iff.mp hG, hsame⟩

/-! ## Forms at every depth -/

mutual

theorem decides_ofForm : ∀ form : Form,
    Decides form.WellFormed (fun a => a.toForm = form.withoutRepeats) (ofForm form)
  | .graph record => by
      rw [ofForm, Form.wellFormed_graph_iff]
      refine (decides_ofRecord record).map fun g hg => ?_
      rw [toForm, Form.withoutRepeats, hg]
  | .uniform clusters proto => by
      rw [ofForm, Form.wellFormed_uniform_iff]
      refine (decides_uniformOfRecords clusters proto).map fun s hs => ?_
      rw [toForm, Form.withoutRepeats, hs.1, hs.2]
  | .cluster forms => by
      rw [ofForm, Form.wellFormed_cluster_iff]
      refine (decides_ofFormAll forms).map fun parts hparts => ?_
      rw [ofParts, toForm, Form.withoutRepeats, hparts]
  | .group degree generators => by
      rw [ofForm, Form.wellFormed_group_iff]
      refine (decides_groupOfImages degree generators).map fun G hG => ?_
      rw [toForm, Form.withoutRepeats, hG.2, hG.1]

theorem decides_ofFormAll : ∀ forms : List Form,
    Decides (∀ form ∈ forms, form.WellFormed)
      (fun parts => toFormAll parts = Form.withoutRepeatsAll forms) (ofFormAll forms)
  | [] => by
      rw [ofFormAll]
      exact ⟨by simp, rfl⟩
  | form :: rest => by
      rw [ofFormAll, List.forall_mem_cons]
      refine (decides_ofForm form).bind fun a ha => ?_
      refine (decides_ofFormAll rest).map fun others hothers => ?_
      rw [toFormAll, Form.withoutRepeatsAll, ha, hothers]

end

/-- Exactly the well-formed forms are accepted, at every depth.  The architecture has
the same form again, without channels that repeat earlier ones, and what is refused is
refused as a malformed form. -/
theorem ofForm_accepts_wellFormed (form : Form) :
    ((∃ a, ofForm form = .ok a) ↔ form.WellFormed) ∧
      (∀ a, ofForm form = .ok a → a.toForm = form.withoutRepeats) ∧
      ∀ e, ofForm form = .error e → ∃ cause, e = .malformedForm cause := by
  have hdecides := decides_ofForm form
  cases hform : ofForm form with
  | ok a =>
      rw [hform] at hdecides
      refine ⟨⟨fun _ => hdecides.1, fun _ => ⟨a, rfl⟩⟩, fun b hb => ?_, fun e he => ?_⟩
      · rw [← Except.ok.inj hb]
        exact hdecides.2
      · cases he
  | error e =>
      rw [hform] at hdecides
      refine ⟨⟨fun ⟨a, ha⟩ => ?_, fun h => absurd h hdecides.1⟩, fun a ha => ?_, fun e he => ?_⟩
      · cases ha
      · cases ha
      · rw [← Except.error.inj he]
        exact hdecides.2

/-- A channel is repeated the other way round, and then one leads to a missing processor. -/
theorem ofForm_accepts_wellFormed_nested :
    let form (target : Nat) : Form :=
      .cluster [.group 3 [[1, 2, 0]],
        .cluster [.graph ⟨false, ["P", "Q"], [⟨0, 1, "C"⟩, ⟨target, 0, "C"⟩]⟩]]
    (∃ a, ofForm (form 1) = .ok a ∧ a.toForm =
      .cluster [.group 3 [[1, 2, 0]], .cluster [.graph ⟨false, ["P", "Q"], [⟨0, 1, "C"⟩]⟩]]) ∧
      ∃ cause, ofForm (form 2) = .error (.malformedForm cause) := by
  intro form
  obtain ⟨haccepted, hrestored, -⟩ := ofForm_accepts_wellFormed (form 1)
  obtain ⟨hmissing, -, hrefused⟩ := ofForm_accepts_wellFormed (form 2)
  have hformed : ∀ target, (form target).WellFormed ↔ target < 2 := by
    intro target
    simp only [form, Form.wellFormed_cluster_iff, Form.wellFormed_graph_iff,
      Form.wellFormed_group_iff, List.forall_mem_cons, GraphRecord.WellFormed]
    have hperm : [1, 2, 0].Perm (List.range 3) := by decide
    simp [hperm]
  constructor
  · obtain ⟨a, ha⟩ := haccepted.mpr ((hformed 1).mpr (by decide))
    exact ⟨a, ha, hrestored a ha⟩
  · cases hform : ofForm (form 2) with
    | ok a => exact absurd ((hformed 2).mp (hmissing.mp ⟨a, hform⟩)) (by decide)
    | error e =>
        obtain ⟨cause, rfl⟩ := hrefused e hform
        exact ⟨cause, rfl⟩

end Architecture
end ProcessorSymmetry

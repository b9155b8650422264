import ProcessorSymmetry.Proofs.ProcessorGraph.WellFormed
import ProcessorSymmetry.ProcessorGraph.Topology
import ProcessorSymmetry.UniformSystem

/-!
# Graphs that can be built

Graphs are built from the empty graph and from meshes by adding processors and
channels, and by asking for automorphism groups in between.  All graphs that
arise in this way are well-formed, and every other way to make a graph is a
sequence of such steps.
-/

namespace ProcessorSymmetry
namespace ProcessorGraph

variable {g h : ProcessorGraph} {label : String}

/-- The graphs that arise by the public operations. -/
inductive Built : ProcessorGraph → Prop
  | empty (directed : Bool) : Built (empty directed)
  | mesh (width height : Nat) (processorLabel channelLabel : String) :
      Built (mesh width height processorLabel channelLabel)
  | torus (width height : Nat) (processorLabel channelLabel : String) :
      Built (torus width height processorLabel channelLabel)
  | addProcessor {g : ProcessorGraph} (built : Built g) (label : String) :
      Built (g.addProcessor label)
  | addChannel {g h : ProcessorGraph} (built : Built g) {source target : Nat} {label : String}
      {new : Bool} (added : g.addChannel source target label = .ok (new, h)) : Built h
  | connectAmong {g h : ProcessorGraph} (built : Built g) {pes : List Nat} {label : String}
      {count : Nat} (added : g.connectAmong pes label = .ok (count, h)) : Built h
  | connectAll {g : ProcessorGraph} (built : Built g) (label : String) :
      Built (g.connectAll label).2
  | connectLabelled {g : ProcessorGraph} (built : Built g) (processorLabel label : String) :
      Built (g.connectLabelled processorLabel label).2
  | loopAmong {g h : ProcessorGraph} (built : Built g) {pes : List Nat} {label : String}
      {count : Nat} (added : g.loopAmong pes label = .ok (count, h)) : Built h
  | loopAll {g : ProcessorGraph} (built : Built g) (label : String) : Built (g.loopAll label).2
  | loopLabelled {g : ProcessorGraph} (built : Built g) (processorLabel label : String) :
      Built (g.loopLabelled processorLabel label).2
  | remember {g : ProcessorGraph} (built : Built g) (finder : AutomorphismFinder) :
      Built (g.remember finder)

/-! ## Meshes -/

theorem WellFormed.addProcessors (hg : g.WellFormed) (count : Nat) (label : String) :
    (g.addProcessors count label).WellFormed := by
  induction count with
  | zero => exact hg
  | succ count ih => exact ih.addProcessor label

theorem processorCount_addProcessors (g : ProcessorGraph) (count : Nat) (label : String) :
    (g.addProcessors count label).processorCount = g.processorCount + count := by
  induction count with
  | zero => rfl
  | succ count ih => exact (processorCount_addProcessor _ label).trans (congrArg (· + 1) ih)

theorem processorCount_mesh (width height : Nat) (processorLabel channelLabel : String) :
    (mesh width height processorLabel channelLabel).processorCount = width * height := by
  rw [mesh, processorCount_connect, processorCount_addProcessors]
  exact Nat.zero_add _

theorem meshPairs_lt {width height : Nat} {pair : Nat × Nat}
    (h : pair ∈ meshPairs width height) : pair.1 < width * height ∧ pair.2 < width * height := by
  obtain ⟨pe, hpe, hpair⟩ := List.mem_flatMap.mp h
  rw [List.mem_range] at hpe
  rcases List.mem_append.mp hpair with hpair | hpair
  · split at hpair
    · rename_i hcol
      rw [List.mem_singleton.mp hpair]
      refine ⟨hpe, ?_⟩
      have hrow : pe / width < height := Nat.div_lt_of_lt_mul hpe
      calc
        pe + 1 = width * (pe / width) + (pe % width + 1) := by rw [← Nat.add_assoc, Nat.div_add_mod]
        _ < width * (pe / width) + width := Nat.add_lt_add_left hcol _
        _ = width * (pe / width + 1) := (Nat.mul_succ _ _).symm
        _ ≤ width * height := Nat.mul_le_mul_left width hrow
    · cases hpair
  · split at hpair
    · rename_i hrow
      rw [List.mem_singleton.mp hpair]
      exact ⟨hpe, hrow⟩
    · cases hpair

theorem wellFormed_mesh (width height : Nat) (processorLabel channelLabel : String) :
    (mesh width height processorLabel channelLabel).WellFormed := by
  have hstart := (wellFormed_empty false).addProcessors (width * height) processorLabel
  apply hstart.connect
  intro pair hpair
  rw [processorCount_addProcessors, empty, processorCount, Array.size_empty, Nat.zero_add]
  exact meshPairs_lt hpair

theorem wrapPairs_lt {width height : Nat} (hpos : 0 < width * height) {pair : Nat × Nat}
    (h : pair ∈ wrapPairs width height) : pair.1 < width * height ∧ pair.2 < width * height := by
  have hwidth : 0 < width := Nat.pos_of_mul_pos_right hpos
  have hheight : 0 < height := Nat.pos_of_mul_pos_left hpos
  rcases List.mem_append.mp h with h | h
  · obtain ⟨row, hrow, rfl⟩ := List.mem_map.mp h
    have hle : (row + 1) * width ≤ width * height := by
      rw [Nat.mul_comm]
      exact Nat.mul_le_mul_left width (List.mem_range.mp hrow)
    rw [Nat.succ_mul] at hle
    constructor
    · omega
    · omega
  · obtain ⟨col, hcol, rfl⟩ := List.mem_map.mp h
    rw [List.mem_range] at hcol
    have heq : (height - 1) * width + width = width * height := by
      rw [← Nat.succ_mul, Nat.succ_eq_add_one, Nat.sub_add_cancel hheight, Nat.mul_comm]
    constructor
    · omega
    · omega

theorem wellFormed_torus (width height : Nat) (processorLabel channelLabel : String) :
    (torus width height processorLabel channelLabel).WellFormed := by
  have hmesh := wellFormed_mesh width height processorLabel channelLabel
  rw [torus]
  split
  · exact hmesh
  · rename_i hcount
    apply hmesh.connect
    intro pair hpair
    rw [processorCount_mesh] at hcount ⊢
    exact wrapPairs_lt (Nat.pos_of_ne_zero hcount) (List.mem_of_mem_filter hpair)

/-! ## All operations -/

theorem processorsLabelled_lt {pe : Nat} (h : pe ∈ g.processorsLabelled label) :
    pe < g.processorCount :=
  List.mem_range.mp (List.mem_of_mem_filter h)

theorem WellFormed.connectAmong (hg : g.WellFormed) {pes : List Nat} {count : Nat}
    (hadded : g.connectAmong pes label = .ok (count, h)) : h.WellFormed := by
  obtain ⟨_, hchecked, hadded⟩ := bind_eq_ok_iff.mp hadded
  have heq : (g.connect label (g.distinctPairs pes)).2 = h :=
    congrArg Prod.snd (Except.ok.inj hadded)
  rw [← heq]
  exact hg.connectDistinct label fun pe hpe =>
    check_eq_ok_iff.mp (forM_eq_ok_iff.mp hchecked pe hpe)

theorem WellFormed.loopAmong (hg : g.WellFormed) {pes : List Nat} {count : Nat}
    (hadded : g.loopAmong pes label = .ok (count, h)) : h.WellFormed := by
  obtain ⟨_, hchecked, hadded⟩ := bind_eq_ok_iff.mp hadded
  have heq : (g.connect label (pes.map fun pe => (pe, pe))).2 = h :=
    congrArg Prod.snd (Except.ok.inj hadded)
  rw [← heq]
  exact hg.connectLoops label fun pe hpe =>
    check_eq_ok_iff.mp (forM_eq_ok_iff.mp hchecked pe hpe)

theorem Built.wellFormed (hg : Built g) : g.WellFormed := by
  induction hg with
  | empty directed => exact wellFormed_empty directed
  | mesh width height _ _ => exact wellFormed_mesh width height _ _
  | torus width height _ _ => exact wellFormed_torus width height _ _
  | addProcessor _ label ih => exact ih.addProcessor label
  | addChannel _ added ih => exact ih.addChannel added
  | connectAmong _ added ih => exact ih.connectAmong added
  | connectAll _ label ih => exact ih.connectDistinct label fun pe hpe => List.mem_range.mp hpe
  | connectLabelled _ _ label ih =>
      exact ih.connectDistinct label fun pe hpe => processorsLabelled_lt hpe
  | loopAmong _ added ih => exact ih.loopAmong added
  | loopAll _ label ih => exact ih.connectLoops label fun pe hpe => List.mem_range.mp hpe
  | loopLabelled _ _ label ih =>
      exact ih.connectLoops label fun pe hpe => processorsLabelled_lt hpe
  | remember _ finder ih => exact ih.remember finder

/-! ## Other ways to make graphs -/

theorem Built.addProcessors (hg : Built g) (count : Nat) (label : String) :
    Built (g.addProcessors count label) := by
  induction count with
  | zero => exact hg
  | succ count ih => exact ih.addProcessor label

theorem built_complete (count : Nat) (processorLabel channelLabel : String) :
    Built (complete count processorLabel channelLabel) :=
  ((Built.empty false).addProcessors count processorLabel).connectAll channelLabel

theorem Built.foldlM {α : Type} {add : ProcessorGraph → α → Except Error ProcessorGraph}
    (hadd : ∀ g h a, Built g → add g a = .ok h → Built h) (entries : List α) (hg : Built g)
    (hh : entries.foldlM add g = .ok h) : Built h := by
  induction entries generalizing g with
  | nil =>
      rw [← Except.ok.inj hh]
      exact hg
  | cons a rest ih =>
      rw [List.foldlM_cons] at hh
      obtain ⟨next, hnext, hrest⟩ := bind_eq_ok_iff.mp hh
      exact ih (hadd g next a hg hnext) hrest

theorem Built.addRecorded (c : ChannelRecord) (hg : Built g) (hh : g.addRecorded c = .ok h) :
    Built h := by
  obtain ⟨⟨new, next⟩, hnext, heq⟩ := bind_eq_ok_iff.mp hh
  rw [← Except.ok.inj heq]
  exact hg.addChannel hnext

theorem built_ofAdjacency {count : Nat} {adjacency : List (Nat × List Nat)} {directed : Bool}
    (hh : ofAdjacency count adjacency directed = .ok h) : Built h := by
  apply ((Built.empty directed).addProcessors count "P").foldlM _ _ hh
  rintro g next ⟨source, target⟩ hg hnext
  obtain ⟨⟨new, added⟩, hadded, heq⟩ := bind_eq_ok_iff.mp hnext
  rw [← Except.ok.inj heq]
  exact hg.addChannel hadded

theorem Built.foldl_addProcessor (hg : Built g) (labels : List String) :
    Built (labels.foldl ProcessorGraph.addProcessor g) := by
  induction labels generalizing g with
  | nil => exact hg
  | cons label rest ih => exact ih (hg.addProcessor label)

theorem built_ofRecord {record : GraphRecord} (hh : ofRecord record = .ok h) : Built h :=
  ((Built.empty record.directed).foldl_addProcessor record.processors).foldlM
    (fun _ _ c hg => hg.addRecorded c) _ (mapError_eq_ok_iff.mp hh)

theorem built_flatten {s : UniformSystem} (hh : s.flatten = .ok h) : Built h :=
  ((Built.empty false).foldl_addProcessor s.flatLabels).foldlM
    (fun _ _ c hg => hg.addRecorded c) _ hh

end ProcessorGraph
end ProcessorSymmetry

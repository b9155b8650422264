import ProcessorSymmetry.Proofs.ColoredGraph.Automorphisms
import ProcessorSymmetry.Proofs.Group.Equality
import ProcessorSymmetry.Proofs.ProcessorGraph.Built
import ProcessorSymmetry.Proofs.ProcessorGraph.Encoding

/-!
# Automorphisms of processor graphs

The automorphisms of a processor graph are those of its colored graph.  They
are the permutations that keep the labels of processors and the channels with
their labels and, in a directed graph, with their directions.
-/

namespace ProcessorSymmetry
namespace ProcessorGraph

open Perm

variable {g : ProcessorGraph} {m : Nat} {p : Perm m}

/-- The permutation keeps the labels of processors and the labels between them, all by their
numbers. -/
structure Keeps (g : ProcessorGraph) (p : Perm m) : Prop where
  degree_eq : m = g.processorCount
  processors_eq : ∀ i < g.processorCount, g.processors[p i]? = g.processors[i]?
  labelsOn_eq : ∀ i < g.processorCount, ∀ j < g.processorCount,
    g.labelsOn (p i) (p j) = g.labelsOn i j

theorem Keeps.app_lt (h : g.Keeps p) {i : Nat} (hi : i < g.processorCount) :
    p i < g.processorCount := by
  rw [← h.degree_eq] at hi ⊢
  exact p.app_lt hi

/-- There are no labels where there are no processors, so that nothing is lost there. -/
theorem Keeps.labelsOn_app (h : g.Keeps p) (hg : g.WellFormed) (i j : Nat) :
    g.labelsOn (p i) (p j) = g.labelsOn i j := by
  by_cases hij : i < g.processorCount ∧ j < g.processorCount
  · exact h.labelsOn_eq i hij.1 j hij.2
  · have hpij : ¬(p i < g.processorCount ∧ p j < g.processorCount) := by
      rw [← h.degree_eq, p.app_lt_iff, p.app_lt_iff, h.degree_eq]
      exact hij
    rw [hg.labelsOn_eq_nil hpij, hg.labelsOn_eq_nil hij]

theorem Keeps.relabels (h : g.Keeps p) (hg : g.WellFormed) :
    g.coloredGraph.Relabels p g.coloredGraph where
  size_eq := g.size_coloredGraph.trans h.degree_eq.symm
  image_size_eq := g.size_coloredGraph.trans h.degree_eq.symm
  directed_eq := rfl
  color_eq := by
    intro i
    by_cases hi : i < g.processorCount
    · rw [color_coloredGraph_eq_iff (h.app_lt hi) hi]
      exact ⟨h.processors_eq i hi, h.labelsOn_eq i hi i hi⟩
    · rw [← h.degree_eq, Nat.not_lt] at hi
      rw [p.app_of_le hi]
  edge?_eq := by
    intro i j
    by_cases hij : i = j
    · rw [hij, hg.edge?_coloredGraph_self, hg.edge?_coloredGraph_self]
    · have hne : p i ≠ p j := fun heq => hij (p.app_injective heq)
      exact (hg.edge?_coloredGraph_eq_iff hne hij).mpr (h.labelsOn_app hg i j)

theorem keeps_of_relabels (hg : g.WellFormed)
    (hp : g.coloredGraph.Relabels p g.coloredGraph) : g.Keeps p := by
  have hm : m = g.processorCount := hp.size_eq.symm.trans g.size_coloredGraph
  have hcolor : ∀ i < g.processorCount,
      g.processors[p i]? = g.processors[i]? ∧ g.labelsOn (p i) (p i) = g.labelsOn i i := by
    intro i hi
    have hpi : p i < g.processorCount := by
      rw [← hm] at hi ⊢
      exact p.app_lt hi
    exact (color_coloredGraph_eq_iff hpi hi).mp (hp.color_eq i)
  refine ⟨hm, fun i hi => (hcolor i hi).1, ?_⟩
  intro i hi j hj
  by_cases hij : i = j
  · rw [← hij]
    exact (hcolor i hi).2
  · have hne : p i ≠ p j := fun heq => hij (p.app_injective heq)
    exact (hg.edge?_coloredGraph_eq_iff hne hij).mp (hp.edge?_eq i j)

/-- The colored graph has the same automorphisms. -/
theorem WellFormed.relabels_coloredGraph_iff (hg : g.WellFormed) :
    g.coloredGraph.Relabels p g.coloredGraph ↔ g.Keeps p := by
  constructor
  · exact keeps_of_relabels hg
  · intro h
    exact h.relabels hg

/-- Labels may be asked for instead of their numbers. -/
theorem WellFormed.keeps_iff (hg : g.WellFormed) :
    g.Keeps p ↔
      m = g.processorCount ∧
        (∀ i < g.processorCount, g.processorLabel (p i) = g.processorLabel i) ∧
        ∀ i < g.processorCount, ∀ j < g.processorCount, ∀ label,
          g.hasChannel (p i) (p j) label = g.hasChannel i j label := by
  constructor
  · intro h
    refine ⟨h.degree_eq, ?_, ?_⟩
    · intro i hi
      exact (hg.processorLabel_eq_iff (h.app_lt hi) hi).mpr (h.processors_eq i hi)
    · intro i hi j hj
      exact hg.hasChannel_eq_iff.mpr (h.labelsOn_eq i hi j hj)
  · rintro ⟨rfl, hprocessors, hchannels⟩
    refine ⟨rfl, ?_, ?_⟩
    · intro i hi
      exact (hg.processorLabel_eq_iff (p.app_lt hi) hi).mp (hprocessors i hi)
    · intro i hi j hj
      exact hg.hasChannel_eq_iff.mp (hchannels i hi j hj)

/-! ## Permutations that preserve what can be asked -/

/-- The permutation keeps the texts of the labels of processors and the channels with theirs. -/
structure Preserves (g : ProcessorGraph) (p : Perm m) : Prop where
  degree_eq : m = g.processorCount
  labelOf_eq : ∀ i < g.processorCount, g.labelOf (p i) = g.labelOf i
  hasChannel_eq : ∀ i < g.processorCount, ∀ j < g.processorCount, ∀ label,
    g.hasChannel (p i) (p j) label = g.hasChannel i j label

theorem Preserves.app_lt (h : g.Preserves p) {i : Nat} (hi : i < g.processorCount) :
    p i < g.processorCount :=
  h.degree_eq ▸ p.app_lt (h.degree_eq ▸ hi)

theorem preserves_one (hm : m = g.processorCount) : g.Preserves (1 : Perm m) :=
  ⟨hm, by simp, by simp⟩

theorem Preserves.inv (h : g.Preserves p) : g.Preserves p⁻¹ := by
  have hlt : ∀ i < g.processorCount, p⁻¹ i < g.processorCount := fun i hi =>
    h.degree_eq ▸ p⁻¹.app_lt (h.degree_eq ▸ hi)
  refine ⟨h.degree_eq, ?_, ?_⟩
  · intro i hi
    simpa using (h.labelOf_eq (p⁻¹ i) (hlt i hi)).symm
  · intro i hi j hj label
    simpa using (h.hasChannel_eq (p⁻¹ i) (hlt i hi) (p⁻¹ j) (hlt j hj) label).symm

theorem WellFormed.preserves_iff_keeps (hg : g.WellFormed) : g.Preserves p ↔ g.Keeps p := by
  rw [hg.keeps_iff]
  constructor
  · intro h
    refine ⟨h.degree_eq, fun i hi => ?_, h.hasChannel_eq⟩
    rw [processorLabel_of_lt (h.app_lt hi), processorLabel_of_lt hi, h.labelOf_eq i hi]
  · rintro ⟨rfl, hlabels, hchannels⟩
    refine ⟨rfl, fun i hi => ?_, hchannels⟩
    have hlabel := hlabels i hi
    rw [processorLabel_of_lt (p.app_lt hi), processorLabel_of_lt hi] at hlabel
    exact Except.ok.inj hlabel

/-- The group that is answered contains what preserves the graph, whichever finder is used and
whether the answer is remembered or not. -/
theorem WellFormed.contains_automorphisms_iff_preserves (hg : g.WellFormed)
    (finder : AutomorphismFinder) :
    (g.automorphisms finder).contains p = true ↔ g.Preserves p := by
  obtain ⟨used, hused⟩ := hg.exists_automorphisms_eq finder
  rw [hg.preserves_iff_keeps, ← hg.relabels_coloredGraph_iff, hused]
  exact hg.coloredGraph.contains_generators_iff used

theorem WellFormed.degree_automorphisms (hg : g.WellFormed) (finder : AutomorphismFinder) :
    (g.automorphisms finder).degree = g.processorCount := by
  obtain ⟨used, hused⟩ := hg.exists_automorphisms_eq finder
  rw [hused]
  exact g.size_coloredGraph

theorem WellFormed.same_automorphismsWith (hg : g.WellFormed) (finder other : AutomorphismFinder) :
    (g.automorphismsWith finder).same (g.automorphismsWith other) = true := by
  rw [PermGroup.same_iff_contains]
  intro n p
  calc
    (g.automorphismsWith finder).contains p = true ↔ g.coloredGraph.Relabels p g.coloredGraph :=
      hg.coloredGraph.contains_generators_iff finder
    _ ↔ (g.automorphismsWith other).contains p = true :=
      (hg.coloredGraph.contains_generators_iff other).symm

theorem WellFormed.same_automorphisms_afresh (hg : g.WellFormed)
    (finder other : AutomorphismFinder) :
    (g.automorphisms finder).same (g.automorphismsWith other) = true := by
  obtain ⟨used, hused⟩ := hg.exists_automorphisms_eq finder
  rw [hused]
  exact hg.same_automorphismsWith used other

/-! ## The automorphism group -/

/-- The automorphism group consists of the permutations of the processors that
keep their labels and the channels between them with their labels. -/
theorem automorphisms_contains_iff (hg : Built g) (finder : AutomorphismFinder) (p : Perm m) :
    (g.automorphisms finder).contains p = true ↔
      m = g.processorCount ∧
        (∀ i < g.processorCount, g.processorLabel (p i) = g.processorLabel i) ∧
        ∀ i < g.processorCount, ∀ j < g.processorCount, ∀ label,
          g.hasChannel (p i) (p j) label = g.hasChannel i j label := by
  have hformed := hg.wellFormed
  obtain ⟨used, hused⟩ := hformed.exists_automorphisms_eq finder
  calc
    (g.automorphisms finder).contains p = true ↔
        g.coloredGraph.Relabels p g.coloredGraph := by
      rw [hused]
      exact hformed.coloredGraph.contains_generators_iff used
    _ ↔ g.Keeps p := hformed.relabels_coloredGraph_iff
    _ ↔ _ := hformed.keeps_iff

/-- Two processors with parallel channels and channels to themselves may be exchanged, but not
with a third one. -/
theorem automorphisms_contains_iff_exchange :
    let connected := (((empty true).addProcessors 2 "P").addProcessor "Q").connectAll "C"
    let g := ((connected.2.connectLabelled "P" "D").2.loopLabelled "P" "L").2
    Built g ∧ (g.automorphisms .search).contains (swap 3 0 1) = true ∧
      (g.automorphisms .search).contains (swap 3 0 2) = false := by
  intro connected g
  have hconnected : Built connected.2 :=
    (((Built.empty true).addProcessors 2 "P").addProcessor "Q").connectAll "C"
  have hg : Built g := (hconnected.connectLabelled "P" "D").loopLabelled "P" "L"
  have hcount : 3 = g.processorCount := by decide +kernel
  have hkeeps : g.Keeps (swap 3 0 1) := by
    refine ⟨hcount, ?_, ?_⟩
    · rw [← hcount]
      decide +kernel
    · have hperm : ∀ i < 3, ∀ j < 3,
          (g.labelsAmong g.channels.toList (g.ends (swap 3 0 1 i) (swap 3 0 1 j))).Perm
            (g.labelsAmong g.channels.toList (g.ends i j)) := by decide +kernel
      rw [← hcount]
      exact fun i hi j hj => sortBy_eq_of_perm compare (hperm i hi j hj)
  have hthird : ¬g.processors[(swap 3 0 2) 0]? = g.processors[0]? := by decide +kernel
  refine ⟨hg, ?_, ?_⟩
  · exact (automorphisms_contains_iff hg .search (swap 3 0 1)).mpr
      (hg.wellFormed.keeps_iff.mp hkeeps)
  · rw [Bool.eq_false_iff]
    intro hcontains
    have hall := (automorphisms_contains_iff hg .search (swap 3 0 2)).mp hcontains
    exact hthird ((hg.wellFormed.keeps_iff.mpr hall).processors_eq 0 (hcount ▸ Nat.zero_lt_succ 2))

end ProcessorGraph
end ProcessorSymmetry

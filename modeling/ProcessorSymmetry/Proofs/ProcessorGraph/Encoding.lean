import ProcessorSymmetry.Proofs.ColoredGraph.Building
import ProcessorSymmetry.Proofs.ProcessorGraph.Channels

/-!
# The colored graph of a processor graph

Two vertices have the same color if and only if the processors have the same
label and the same channels to themselves, and two edges have the same color if
and only if the channels between their ends have the same labels.
-/

namespace ProcessorSymmetry
namespace ProcessorGraph

variable {g : ProcessorGraph} {a b i j : Nat}

instance : Std.TransCmp compareKinds :=
  inferInstanceAs (Std.TransCmp (compareLex (compareOn Prod.fst) (compareOn Prod.snd)))

instance : Std.LawfulEqCmp compareKinds where
  compare_self := Std.ReflCmp.compare_self
  eq_of_compare {a b} h := by
    simp only [compareKinds, compareLex, compareOn, Ordering.then_eq_eq,
      Std.LawfulEqCmp.compare_eq_iff_eq] at h
    exact Prod.ext h.1 h.2

/-! ## Collecting labels -/

/-- The channels of a list that lead from a processor to itself leave their labels there. -/
theorem getElem?_foldl_loops (g : ProcessorGraph) (channels : List Channel)
    (hi : i < g.processorCount) :
    (channels.foldl (fun loops c =>
      if c.source = c.target then loops.modify c.source (c.label :: ·) else loops)
      (Array.replicate g.processorCount []))[i]? =
      some (g.labelsAmong channels (i, i)) := by
  -- A label is put before those of the channels that come earlier in the list.
  induction channels using List.reverseRecOn with
  | nil =>
      rw [List.foldl_nil, Array.getElem?_replicate, if_pos hi]
      rfl
  | append_singleton channels c ih =>
      have hloop : g.ends c.source c.target = (i, i) ↔ c.source = i ∧ c.target = i := by
        rw [← ends_self g i, ends_eq_ends_iff]
        omega
      rw [List.foldl_concat, labelsAmong_concat]
      by_cases hends : c.source = i ∧ c.target = i
      · obtain ⟨hsource, htarget⟩ := hends
        rw [if_pos (hsource.trans htarget.symm), if_pos (hloop.mpr ⟨hsource, htarget⟩),
          Array.getElem?_modify, if_pos hsource, ih]
        rfl
      · rw [if_neg (hends ∘ hloop.mp)]
        split
        · rename_i hself
          rw [Array.getElem?_modify, if_neg fun hsource => hends ⟨hsource, hself ▸ hsource⟩, ih]
        · exact ih

theorem getElem?_loopLabels (hi : i < g.processorCount) :
    g.loopLabels[i]? = some (g.labelsOn i i) := by
  rw [loopLabels, Array.getElem?_toList, Array.getElem?_map, ← Array.foldl_toList,
    getElem?_foldl_loops g _ hi, Option.map_some, labelsOn, ends_self]

theorem length_loopLabels (g : ProcessorGraph) : g.loopLabels.length = g.processorCount := by
  rw [loopLabels, Array.length_toList, Array.size_map, ← Array.foldl_toList]
  generalize g.channels.toList = channels
  induction channels using List.reverseRecOn with
  | nil => exact Array.size_replicate
  | append_singleton channels c ih =>
      rw [List.foldl_concat]
      split
      · rw [Array.size_modify, ih]
      · exact ih

/-- The channels of a list between distinct processors leave their labels at their ends, and
ends without channels have no entry. -/
theorem getElem?_foldl_between (g : ProcessorGraph) (channels : List Channel)
    {pair : Nat × Nat} (hpair : pair.1 ≠ pair.2) :
    (channels.foldl (fun between c =>
      let c := g.key c
      if c.source = c.target then between
      else between.insert (c.source, c.target)
        (c.label :: (between[(c.source, c.target)]?).getD []))
      (Std.TreeMap.empty : Std.TreeMap (Nat × Nat) (List Nat) comparePairs))[pair]? =
      if g.labelsAmong channels pair = [] then none
      else some (g.labelsAmong channels pair) := by
  induction channels using List.reverseRecOn with
  | nil => simp [labelsAmong, Std.TreeMap.empty_eq_emptyc]
  | append_singleton channels c ih =>
      rw [List.foldl_concat, labelsAmong_concat, g.key_eq c]
      by_cases hends : g.ends c.source c.target = pair
      · rw [if_pos hends, hends]
        dsimp only
        rw [if_neg hpair, Std.TreeMap.getElem?_insert,
          if_pos (Std.LawfulEqCmp.compare_eq_iff_eq.mpr rfl), ih]
        by_cases hnone : g.labelsAmong channels pair = []
        · simp [hnone]
        · simp [hnone]
      · rw [if_neg hends, ← ih]
        dsimp only
        split
        · rfl
        · rw [Std.TreeMap.getElem?_insert,
            if_neg fun heq => hends (Std.LawfulEqCmp.eq_of_compare heq)]

theorem getElem?_labelsBetween_self (g : ProcessorGraph) (i : Nat) :
    g.labelsBetween[(i, i)]? = none := by
  rw [labelsBetween, ← Array.foldl_toList]
  generalize g.channels.toList = channels
  induction channels using List.reverseRecOn with
  | nil => simp [Std.TreeMap.empty_eq_emptyc]
  | append_singleton channels c ih =>
      rw [List.foldl_concat]
      dsimp only
      split
      · exact ih
      · rename_i hne
        rw [Std.TreeMap.getElem?_insert, if_neg _]
        · exact ih
        · intro heq
          obtain ⟨hsource, htarget⟩ := Prod.mk.inj (Std.LawfulEqCmp.eq_of_compare heq)
          exact hne (hsource.trans htarget.symm)

/-- The connected pairs are those that have a channel, each with its labels. -/
theorem mem_connectedPairs {pair : Nat × Nat} {labels : List Nat} :
    (pair, labels) ∈ g.connectedPairs ↔
      pair.1 ≠ pair.2 ∧ g.labelsAmong g.channels.toList pair ≠ [] ∧
        sortBy compare (g.labelsAmong g.channels.toList pair) = labels := by
  have hmem : (pair, labels) ∈ g.connectedPairs ↔
      ∃ unsorted, g.labelsBetween[pair]? = some unsorted ∧ sortBy compare unsorted = labels := by
    rw [connectedPairs, List.mem_map]
    constructor
    · rintro ⟨⟨pair', unsorted⟩, hentry, heq⟩
      obtain ⟨rfl, hsorted⟩ := Prod.mk.inj heq
      exact ⟨unsorted, Std.TreeMap.mem_toList_iff_getElem?_eq_some.mp hentry, hsorted⟩
    · rintro ⟨unsorted, hentry, rfl⟩
      exact ⟨(pair, unsorted), Std.TreeMap.mem_toList_iff_getElem?_eq_some.mpr hentry, rfl⟩
  rw [hmem]
  by_cases hpair : pair.1 = pair.2
  · have hself : g.labelsBetween[pair]? = none := by
      rw [← getElem?_labelsBetween_self g pair.1]
      exact congrArg (g.labelsBetween[·]?) (Prod.ext rfl hpair.symm)
    simp [hself, hpair]
  · rw [labelsBetween, ← Array.foldl_toList, getElem?_foldl_between g _ hpair]
    by_cases hnone : g.labelsAmong g.channels.toList pair = []
    · simp [hnone]
    · simp [hnone, hpair]

theorem connectedPairs_nodup (g : ProcessorGraph) : (g.connectedPairs.map Prod.fst).Nodup := by
  have hfst : g.connectedPairs.map Prod.fst = g.labelsBetween.toList.map Prod.fst := by
    rw [connectedPairs, List.map_map]
    rfl
  rw [hfst, Std.TreeMap.map_fst_toList_eq_keys]
  exact Std.TreeMap.nodup_keys

/-- Connected pairs are ends of channels. -/
theorem exists_channel_of_mem {pair : Nat × Nat} {labels : List Nat}
    (h : (pair, labels) ∈ g.connectedPairs) :
    ∃ c ∈ g.channels.toList, g.ends c.source c.target = pair := by
  obtain ⟨-, hne, -⟩ := mem_connectedPairs.mp h
  obtain ⟨l, hl⟩ := List.exists_mem_of_ne_nil _ hne
  obtain ⟨c, hc, -⟩ := List.mem_map.mp (List.mem_reverse.mp hl)
  obtain ⟨hc, hends⟩ := List.mem_filter.mp hc
  exact ⟨c, hc, of_decide_eq_true hends⟩

theorem labelsOn_eq_nil_iff :
    g.labelsOn i j = [] ↔ g.labelsAmong g.channels.toList (g.ends i j) = [] := by
  rw [labelsOn, ← List.length_eq_zero_iff, (sortBy_perm compare _).length_eq,
    List.length_eq_zero_iff]

/-- What is listed for the ends of a pair are the labels between them. -/
theorem ends_mem_connectedPairs {labels : List Nat} :
    (g.ends i j, labels) ∈ g.connectedPairs ↔
      i ≠ j ∧ g.labelsOn i j ≠ [] ∧ g.labelsOn i j = labels := by
  rw [mem_connectedPairs, ends_ne_iff, Ne, Ne, ← labelsOn_eq_nil_iff]
  exact Iff.rfl

/-! ## Vertices -/

theorem length_kinds (g : ProcessorGraph) : g.kinds.length = g.processorCount := by
  rw [kinds, List.length_zip, length_loopLabels, Array.length_toList]
  exact Nat.min_self _

theorem getElem?_kinds {l : Nat} (hl : g.processors[i]? = some l) :
    g.kinds[i]? = some (l, g.labelsOn i i) := by
  obtain ⟨hi, -⟩ := Array.getElem?_eq_some_iff.mp hl
  rw [kinds, List.getElem?_zip_eq_some, Array.getElem?_toList]
  exact ⟨hl, getElem?_loopLabels hi⟩

/-- The colored graph before any edge is added. -/
def coloredVertices (g : ProcessorGraph) : ColoredGraph :=
  .ofColors g.directed (denseRanks compareKinds g.kinds)

theorem size_coloredVertices (g : ProcessorGraph) : g.coloredVertices.size = g.processorCount := by
  rw [coloredVertices, ColoredGraph.size_ofColors, denseRanks_eq, List.length_map, length_kinds]

theorem wellFormed_coloredVertices (g : ProcessorGraph) : g.coloredVertices.WellFormed :=
  ColoredGraph.wellFormed_ofColors _ _

theorem edge?_coloredVertices (g : ProcessorGraph) (i j : Nat) :
    g.coloredVertices.edge? i j = none :=
  ColoredGraph.edge?_ofColors _ _ _ _

/-! ## Edges -/

/-- The color of the edges between processors whose channels have the given labels. -/
def edgeColor (g : ProcessorGraph) (labels : List Nat) : Nat :=
  rank compare (g.connectedPairs.map Prod.snd) labels

/-- The edges of the colored graph. -/
def coloredEdges (g : ProcessorGraph) : List ((Nat × Nat) × Nat) :=
  g.connectedPairs.map fun entry => (entry.1, g.edgeColor entry.2)

theorem coloredGraph_eq (g : ProcessorGraph) :
    g.coloredGraph = g.coloredVertices.addEdges g.coloredEdges := by
  have hedges : (g.connectedPairs.map Prod.fst).zip
      (denseRanks compare (g.connectedPairs.map Prod.snd)) = g.coloredEdges := by
    rw [denseRanks_eq, List.map_map, List.zip_map']
    rfl
  rw [coloredGraph, hedges]
  rfl

theorem size_coloredGraph (g : ProcessorGraph) : g.coloredGraph.size = g.processorCount := by
  rw [coloredGraph_eq, ColoredGraph.size_addEdges, size_coloredVertices]

theorem color_coloredGraph {l : Nat} (hl : g.processors[i]? = some l) :
    g.coloredGraph.color i = rank compareKinds g.kinds (l, g.labelsOn i i) := by
  rw [coloredGraph_eq, ColoredGraph.color_addEdges, coloredVertices, ColoredGraph.color_ofColors,
    denseRanks_eq, List.getD_eq_getElem?_getD, List.getElem?_map, getElem?_kinds hl]
  rfl

/-- Vertices have the same color if and only if the processors have the same
label and the same labels of channels to themselves. -/
theorem color_coloredGraph_eq_iff (hi : i < g.processorCount) (hj : j < g.processorCount) :
    g.coloredGraph.color i = g.coloredGraph.color j ↔
      g.processors[i]? = g.processors[j]? ∧ g.labelsOn i i = g.labelsOn j j := by
  have hgeti := Array.getElem?_eq_getElem hi
  have hgetj := Array.getElem?_eq_getElem hj
  have hkindi := List.mem_of_getElem? (getElem?_kinds hgeti)
  have hkindj := List.mem_of_getElem? (getElem?_kinds hgetj)
  rw [color_coloredGraph hgeti, color_coloredGraph hgetj, rank_inj compareKinds hkindi hkindj,
    Prod.mk.injEq, hgeti, hgetj, Option.some.injEq]

/-- The edges lead between processors, and are listed as they are looked up. -/
theorem WellFormed.coloredEdges_spec (hg : g.WellFormed) :
    ∀ edge ∈ g.coloredEdges, edge.1.1 < g.processorCount ∧ edge.1.2 < g.processorCount ∧
      g.ends edge.1.1 edge.1.2 = edge.1 := by
  intro edge hedge
  obtain ⟨⟨pair, labels⟩, hentry, rfl⟩ := List.mem_map.mp hedge
  obtain ⟨c, hc, rfl⟩ := exists_channel_of_mem hentry
  obtain ⟨hsource, htarget, -⟩ := hg.channel_lt c hc
  obtain ⟨hfst, hsnd⟩ := ends_lt hsource htarget
  exact ⟨hfst, hsnd, ends_ends g _ _⟩

/-- Adding edges makes exactly those that are found in the list. -/
theorem edge?_addEdges {h : ColoredGraph} {edges : List ((Nat × Nat) × Nat)}
    (hh : h.WellFormed) (hdirected : h.directed = g.directed) (hnone : h.edge? a b = none)
    (hedges : ∀ edge ∈ edges, edge.1.1 < h.size ∧ edge.1.2 < h.size ∧
      g.ends edge.1.1 edge.1.2 = edge.1) :
    (h.addEdges edges).edge? a b = edges.lookup (g.ends a b) := by
  induction edges with
  | nil => exact hnone
  | cons edge rest ih =>
      obtain ⟨⟨hi, hj, hends⟩, hrest⟩ := List.forall_mem_cons.mp hedges
      obtain ⟨⟨i, j⟩, color⟩ := edge
      have hmade : (h.addEdges rest).WellFormed :=
        hh.addEdges fun edge hedge => ⟨(hrest edge hedge).1, (hrest edge hedge).2.1⟩
      have hstep : (h.addEdges (((i, j), color) :: rest)).edge? a b = _ :=
        hmade.edge?_addEdge ((h.size_addEdges rest).symm ▸ hi) ((h.size_addEdges rest).symm ▸ hj)
      rw [hstep, ColoredGraph.directed_addEdges, hdirected, ih hrest, List.lookup_cons]
      by_cases heq : g.ends a b = (i, j)
      · rw [if_pos (ends_eq_ends_iff.mp (heq.trans hends.symm)), heq, beq_self_eq_true]
      · rw [if_neg fun hab => heq ((ends_eq_ends_iff.mpr hab).trans hends), beq_false_of_ne heq]

theorem WellFormed.coloredGraph (hg : g.WellFormed) : g.coloredGraph.WellFormed := by
  rw [coloredGraph_eq]
  apply g.wellFormed_coloredVertices.addEdges
  intro edge hedge
  obtain ⟨hi, hj, -⟩ := hg.coloredEdges_spec edge hedge
  rw [size_coloredVertices]
  exact ⟨hi, hj⟩

theorem coloredEdges_nodup (g : ProcessorGraph) : (g.coloredEdges.map Prod.fst).Nodup := by
  rw [coloredEdges, List.map_map]
  exact g.connectedPairs_nodup

/-- There is an edge where there is a channel, and its color stands for the labels. -/
theorem WellFormed.edge?_coloredGraph_eq_some_iff (hg : g.WellFormed) {color : Nat} :
    g.coloredGraph.edge? i j = some color ↔
      i ≠ j ∧ g.labelsOn i j ≠ [] ∧ g.edgeColor (g.labelsOn i j) = color := by
  have hedge? : g.coloredGraph.edge? i j = g.coloredEdges.lookup (g.ends i j) := by
    rw [coloredGraph_eq]
    apply edge?_addEdges g.wellFormed_coloredVertices rfl (g.edge?_coloredVertices i j)
    rw [size_coloredVertices]
    exact hg.coloredEdges_spec
  rw [hedge?, lookup_eq_some_iff_mem g.coloredEdges_nodup, coloredEdges, List.mem_map]
  constructor
  · rintro ⟨⟨pair, labels⟩, hentry, heq⟩
    obtain ⟨rfl, rfl⟩ := Prod.mk.inj heq
    obtain ⟨hij, hne, hlabels⟩ := ends_mem_connectedPairs.mp hentry
    exact ⟨hij, hne, congrArg g.edgeColor hlabels⟩
  · rintro ⟨hij, hne, rfl⟩
    exact ⟨_, ends_mem_connectedPairs.mpr ⟨hij, hne, rfl⟩, rfl⟩

theorem WellFormed.edge?_coloredGraph_self (hg : g.WellFormed) (i : Nat) :
    g.coloredGraph.edge? i i = none := by
  rw [Option.eq_none_iff_forall_ne_some]
  intro color hcolor
  exact (hg.edge?_coloredGraph_eq_some_iff.mp hcolor).1 rfl

theorem edgeColor_inj (hij : i ≠ j) (hne : g.labelsOn i j ≠ []) (hab : a ≠ b)
    (hne' : g.labelsOn a b ≠ []) :
    g.edgeColor (g.labelsOn a b) = g.edgeColor (g.labelsOn i j) ↔
      g.labelsOn a b = g.labelsOn i j := by
  apply rank_inj compare
  · exact List.mem_map_of_mem (ends_mem_connectedPairs.mpr ⟨hab, hne', rfl⟩)
  · exact List.mem_map_of_mem (ends_mem_connectedPairs.mpr ⟨hij, hne, rfl⟩)

/-- Edges have the same color, or there are none, if and only if the channels
have the same labels. -/
theorem WellFormed.edge?_coloredGraph_eq_iff (hg : g.WellFormed) (hab : a ≠ b) (hij : i ≠ j) :
    g.coloredGraph.edge? a b = g.coloredGraph.edge? i j ↔ g.labelsOn a b = g.labelsOn i j := by
  constructor
  · intro h
    by_cases hnone : g.labelsOn a b = []
    · by_contra hne
      have hne' : g.labelsOn i j ≠ [] := fun hnil => hne (hnone.trans hnil.symm)
      have hsome := hg.edge?_coloredGraph_eq_some_iff.mpr ⟨hij, hne', rfl⟩
      rw [← h] at hsome
      exact (hg.edge?_coloredGraph_eq_some_iff.mp hsome).2.1 hnone
    · have hsome := hg.edge?_coloredGraph_eq_some_iff.mpr ⟨hab, hnone, rfl⟩
      rw [h] at hsome
      obtain ⟨-, hne, hcolor⟩ := hg.edge?_coloredGraph_eq_some_iff.mp hsome
      exact (edgeColor_inj hij hne hab hnone).mp hcolor.symm
  · intro h
    apply Option.ext
    intro color
    rw [hg.edge?_coloredGraph_eq_some_iff, hg.edge?_coloredGraph_eq_some_iff, h]
    simp [hab, hij]

end ProcessorGraph
end ProcessorSymmetry

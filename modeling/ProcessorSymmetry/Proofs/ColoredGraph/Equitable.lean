import ProcessorSymmetry.Proofs.ColoredGraph.Refinement

/-!
# Equitable colorings

A coloring is equitable if vertices of one color cannot be told apart by the colors
around them.  A round of recoloring is monotone for the refinement of colorings, it
leaves exactly the equitable ones of the dense colorings alone, and an equitable
coloring that refines a coloring still refines it after a round.
-/

namespace ProcessorSymmetry

namespace Coloring

variable {fine coarse : Coloring}

/-! ## Refinement of colorings -/

/-- Vertices of one color in `fine` have one color in `coarse`. -/
structure Refines (fine coarse : Coloring) : Prop where
  size_eq : fine.size = coarse.size
  eq : ∀ i j, i < coarse.size → j < coarse.size →
    fine.getD i 0 = fine.getD j 0 → coarse.getD i 0 = coarse.getD j 0

theorem Refines.refl (colors : Coloring) : colors.Refines colors :=
  ⟨rfl, fun _ _ _ _ h => h⟩

/-- The coarser color is a function of the finer one. -/
theorem Refines.exists_map (h : fine.Refines coarse) :
    ∃ f : Nat → Nat, ∀ i < coarse.size, coarse.getD i 0 = f (fine.getD i 0) := by
  classical
  refine ⟨fun c => if hc : ∃ j < coarse.size, fine.getD j 0 = c then
    coarse.getD hc.choose 0 else 0, ?_⟩
  intro i hi
  have hc : ∃ j < coarse.size, fine.getD j 0 = fine.getD i 0 := ⟨i, hi, rfl⟩
  dsimp only
  rw [dif_pos hc]
  exact h.eq i _ hi hc.choose_spec.1 hc.choose_spec.2.symm

namespace IsBelow

/-- Splitting cells in order changes nothing if no cell is really split. -/
theorem eq_of_refines (h : fine.IsBelow coarse) (hfine : fine.IsDense) (hcoarse : coarse.IsDense)
    (hrefines : coarse.Refines fine) : fine = coarse := by
  have hback : coarse.IsBelow fine := by
    refine ⟨h.size_eq.symm, ?_⟩
    intro i j hi hj hlt
    have hi' : i < coarse.size := h.size_eq ▸ hi
    have hj' : j < coarse.size := h.size_eq ▸ hj
    rcases Nat.lt_trichotomy (coarse.getD i 0) (coarse.getD j 0) with hlt' | heq | hgt
    · exact hlt'
    · exact absurd (hrefines.eq i j hi hj heq) (Nat.ne_of_lt hlt)
    · exact absurd hlt (Nat.lt_asymm (h.lt j i hj' hi' hgt))
  apply ext_getD h.size_eq
  intro i hi
  apply Nat.le_antisymm
  · exact hback.getD_le hfine (h.size_eq.symm ▸ hi)
  · exact h.getD_le hcoarse hi

theorem colorCount_le (h : fine.IsBelow coarse) (hcoarse : coarse.IsDense) :
    coarse.colorCount ≤ fine.colorCount := by
  rw [colorCount_le_iff]
  intro i hi
  calc
    coarse.getD i 0 ≤ fine.getD i 0 := h.getD_le hcoarse hi
    _ < fine.colorCount := getD_lt_colorCount (h.size_eq.symm ▸ hi)

/-- A cell that is split adds a color, so that as many colors are the same colors. -/
theorem eq_of_colorCount_le (h : fine.IsBelow coarse) (hfine : fine.IsDense)
    (hcoarse : coarse.IsDense) (hcount : fine.colorCount ≤ coarse.colorCount) :
    fine = coarse := by
  refine h.eq_of_refines hfine hcoarse ⟨h.size_eq.symm, ?_⟩
  intro i j hi hj hij
  have hi' : i < coarse.size := h.size_eq ▸ hi
  have hj' : j < coarse.size := h.size_eq ▸ hj
  rcases Nat.lt_trichotomy (fine.getD i 0) (fine.getD j 0) with hlt | heq | hgt
  · exact absurd (h.colorCount_lt hcoarse hi' hj' hij hlt) (Nat.not_lt.mpr hcount)
  · exact heq
  · exact absurd (h.colorCount_lt hcoarse hj' hi' hij.symm hgt) (Nat.not_lt.mpr hcount)

end IsBelow
end Coloring

namespace ColoredGraph

open Coloring

variable {g : ColoredGraph} {colors fine coarse : Coloring} {i j : Nat}

/-! ## Colors around a vertex -/

/-- The colors of the vertices that a vertex has edges with, and of these edges.
The edges are given by their colors, such as those of the edges from one vertex. -/
def colorsAround (g : ColoredGraph) (colors : Coloring) (edge? : Nat → Option Nat) :
    List (Nat × Nat) :=
  (List.range g.size).filterMap fun j => (edge? j).map fun c => (colors.getD j 0, c)

/-- Two vertices have equally many edges of each color to vertices of each color, and
in a directed graph also from such vertices. -/
structure SameAround (g : ColoredGraph) (colors : Coloring) (i j : Nat) : Prop where
  outgoing : (g.colorsAround colors fun k => g.edge? i k).Perm
    (g.colorsAround colors fun k => g.edge? j k)
  incoming : g.directed = true → (g.colorsAround colors fun k => g.edge? k i).Perm
    (g.colorsAround colors fun k => g.edge? k j)

/-- Vertices of one color have the same colors around them. -/
structure IsEquitable (g : ColoredGraph) (colors : Coloring) : Prop where
  size_eq : colors.size = g.size
  sameAround : ∀ i j, i < g.size → j < g.size → colors.getD i 0 = colors.getD j 0 →
    g.SameAround colors i j

/-- A list of neighbours with edge colors says the same as looking edges up. -/
theorem map_perm_colorsAround {edge? : Nat → Option Nat} {edges : List (Nat × Nat)}
    (hedges : edges.Nodup) (hmem : ∀ j c, (j, c) ∈ edges ↔ edge? j = some c)
    (hlt : ∀ e ∈ edges, e.1 < g.size) :
    (edges.map fun e => (colors.getD e.1 0, e.2)).Perm (g.colorsAround colors edge?) := by
  let looked := (List.range g.size).filterMap fun j => (edge? j).map fun c => (j, c)
  have hnodup : looked.Nodup := by
    apply List.nodup_range.filterMap
    intro j j' entry hentry hentry'
    obtain ⟨c, -, rfl⟩ := Option.map_eq_some_iff.mp (Option.mem_def.mp hentry)
    obtain ⟨c', -, heq⟩ := Option.map_eq_some_iff.mp (Option.mem_def.mp hentry')
    exact (Prod.mk.inj heq).1.symm
  have hperm : edges.Perm looked := by
    rw [List.perm_ext_iff_of_nodup hedges hnodup]
    rintro ⟨j, c⟩
    constructor
    · intro h
      exact List.mem_filterMap.mpr ⟨j, List.mem_range.mpr (hlt _ h), by simp [(hmem j c).mp h]⟩
    · intro h
      obtain ⟨j', -, hsome⟩ := List.mem_filterMap.mp h
      obtain ⟨c', hc', heq⟩ := Option.map_eq_some_iff.mp hsome
      obtain ⟨rfl, rfl⟩ := Prod.mk.inj heq
      exact (hmem _ _).mpr hc'
  have hmap : looked.map (fun e => (colors.getD e.1 0, e.2)) = g.colorsAround colors edge? := by
    simp only [looked, colorsAround, List.map_filterMap, Option.map_map, Function.comp_def]
  rw [← hmap]
  exact hperm.map _

theorem WellFormed.edgesFrom_perm (hg : g.WellFormed) (colors : Coloring) (i : Nat) :
    ((g.edgesFrom i).map fun e => (colors.getD e.1 0, e.2)).Perm
      (g.colorsAround colors fun k => g.edge? i k) :=
  map_perm_colorsAround (hg.nodup_edgesFrom i) (fun _ _ => hg.mem_edgesFrom_iff) (hg.closed i)

theorem WellFormed.incoming_perm (hg : g.WellFormed) (colors : Coloring) (i : Nat) :
    ((g.incoming.getD i []).map fun e => (colors.getD e.1 0, e.2)).Perm
      (g.colorsAround colors fun k => g.edge? k i) :=
  map_perm_colorsAround (hg.nodup_incoming i) (fun _ _ => hg.mem_incoming_iff)
    fun _ he => (hg.lt_of_edge? (hg.mem_incoming_iff.mp he)).1

/-- What is the same in finer colors is the same in coarser ones. -/
theorem colorsAround_perm_of_refines (h : fine.Refines coarse) (hsize : coarse.size = g.size)
    {edge? edge?' : Nat → Option Nat}
    (hperm : (g.colorsAround fine edge?).Perm (g.colorsAround fine edge?')) :
    (g.colorsAround coarse edge?).Perm (g.colorsAround coarse edge?') := by
  obtain ⟨f, hf⟩ := h.exists_map
  have hmap : ∀ edge? : Nat → Option Nat, g.colorsAround coarse edge? =
      (g.colorsAround fine edge?).map fun entry => (f entry.1, entry.2) := by
    intro edge?
    simp only [colorsAround, List.map_filterMap, Option.map_map, Function.comp_def]
    apply List.filterMap_congr
    intro j hj
    rw [hf j (hsize ▸ List.mem_range.mp hj)]
  rw [hmap, hmap]
  exact hperm.map _

theorem SameAround.of_refines (hsame : g.SameAround fine i j) (h : fine.Refines coarse)
    (hsize : coarse.size = g.size) : g.SameAround coarse i j where
  outgoing := colorsAround_perm_of_refines h hsize hsame.outgoing
  incoming := fun hdirected => colorsAround_perm_of_refines h hsize (hsame.incoming hdirected)

end ColoredGraph

/-! ## Rounds of recoloring -/

namespace Refiner

open Coloring ColoredGraph

variable {g : ColoredGraph} {colors fine coarse : Coloring} {i j : Nat}

theorem surroundings_eq_iff {edges edges' : List (Nat × Nat)} {edge? edge?' : Nat → Option Nat}
    (h : (edges.map fun e => (colors.getD e.1 0, e.2)).Perm (g.colorsAround colors edge?))
    (h' : (edges'.map fun e => (colors.getD e.1 0, e.2)).Perm (g.colorsAround colors edge?')) :
    surroundings colors edges = surroundings colors edges' ↔
      (g.colorsAround colors edge?).Perm (g.colorsAround colors edge?') := by
  rw [← h.congr_left, ← h'.congr_right]
  exact sortBy_eq_iff_perm comparePairs

/-- Vertices look alike if they have the same color and the same colors around them. -/
theorem signature_eq_iff (hg : g.WellFormed) :
    g.refiner.signature colors i = g.refiner.signature colors j ↔
      colors.getD i 0 = colors.getD j 0 ∧ g.SameAround colors i j := by
  have houtgoing := surroundings_eq_iff (hg.edgesFrom_perm colors i) (hg.edgesFrom_perm colors j)
  have hincoming : surroundings colors (g.refiner.sources.getD i []) =
        surroundings colors (g.refiner.sources.getD j []) ↔
      (g.directed = true → (g.colorsAround colors fun k => g.edge? k i).Perm
        (g.colorsAround colors fun k => g.edge? k j)) := by
    by_cases hdirected : g.directed = true
    · simp only [refiner, hdirected, if_true, true_implies]
      exact surroundings_eq_iff (hg.incoming_perm colors i) (hg.incoming_perm colors j)
    · simp [refiner, hdirected]
  rw [signature, signature, Signature.mk.injEq, hincoming]
  refine and_congr_right fun _ => ?_
  constructor
  · rintro ⟨hedges, hsources⟩
    exact ⟨houtgoing.mp hedges, hsources⟩
  · intro hsame
    exact ⟨houtgoing.mpr hsame.outgoing, hsame.incoming⟩

theorem recolor_eq_iff (r : Refiner) (hi : i < r.graph.size) (hj : j < r.graph.size) :
    (r.recolor colors).getD i 0 = (r.recolor colors).getD j 0 ↔
      r.signature colors i = r.signature colors j := by
  rw [recolor_eq_ranked]
  exact ranked_eq_iff Signature.compare hi hj

/-- An equitable coloring that refines a coloring still refines it after a round. -/
theorem refines_recolor (hg : g.WellFormed) (hequitable : g.IsEquitable fine)
    (h : fine.Refines coarse) : fine.Refines (g.refiner.recolor coarse) := by
  have hsize : coarse.size = g.size := h.size_eq.symm.trans hequitable.size_eq
  have hrecolored := size_recolor g.refiner coarse
  refine ⟨hequitable.size_eq.trans hrecolored.symm, ?_⟩
  intro i j hi hj hij
  rw [hrecolored] at hi hj
  rw [recolor_eq_iff _ hi hj, signature_eq_iff hg]
  have hcolor := h.eq i j (hsize.symm ▸ hi) (hsize.symm ▸ hj) hij
  exact ⟨hcolor, (hequitable.sameAround i j hi hj hij).of_refines h hsize⟩

/-- The dense colorings that a round leaves alone are the equitable ones. -/
theorem isEquitable_iff_recolor_eq (hg : g.WellFormed) (hsize : colors.size = g.size)
    (hdense : colors.IsDense) :
    g.IsEquitable colors ↔ g.refiner.recolor colors = colors := by
  constructor
  · intro hequitable
    apply (recolor_isBelow hsize).eq_of_refines (recolor_isDense _ _) hdense
    exact refines_recolor hg hequitable (.refl colors)
  · intro hfixed
    refine ⟨hsize, ?_⟩
    intro i j hi hj hij
    have halike : g.refiner.signature colors i = g.refiner.signature colors j := by
      rw [← recolor_eq_iff g.refiner hi hj, hfixed]
      exact hij
    exact ((signature_eq_iff hg).mp halike).2

end Refiner
end ProcessorSymmetry

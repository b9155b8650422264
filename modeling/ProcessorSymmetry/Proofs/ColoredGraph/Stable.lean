import ProcessorSymmetry.Proofs.ColoredGraph.Building
import ProcessorSymmetry.Proofs.ColoredGraph.Equitable

/-!
# Coarsest equitable colorings

From a dense coloring on, every round adds a color or leaves the coloring alone, so
that refining ends with the coarsest equitable coloring below it.  This is what is
met whenever vertices are individualized in turn.  A coloring that leaves colors out
may end the refinement too early: the first round can happen to use as many numbers.
-/

namespace ProcessorSymmetry

open Coloring

namespace Refiner

variable {g : ColoredGraph} {r : Refiner} {colors fine : Coloring}

/-! ## The rounds -/

theorem recolor_eq_of_colorCount_le (hsize : colors.size = r.graph.size) (hdense : colors.IsDense)
    (hcount : (r.recolor colors).colorCount ≤ colors.colorCount) : r.recolor colors = colors :=
  (recolor_isBelow hsize).eq_of_colorCount_le (recolor_isDense r colors) hdense hcount

/-- From a dense coloring on, rounds go on until one of them changes nothing, because
every other one adds a color. -/
theorem recolor_refineWithin (hsize : colors.size = r.graph.size) (hdense : colors.IsDense)
    {bound : Nat} (hbound : r.graph.size ≤ colors.colorCount + bound) :
    r.recolor (r.refineWithin bound colors) = r.refineWithin bound colors := by
  induction bound generalizing colors with
  | zero =>
      have hcount : (r.recolor colors).colorCount ≤ colors.colorCount :=
        calc
          (r.recolor colors).colorCount ≤ (r.recolor colors).size :=
            (recolor_isDense r colors).colorCount_le_size
          _ = r.graph.size := size_recolor r colors
          _ ≤ colors.colorCount := hbound
      have hfixed := recolor_eq_of_colorCount_le hsize hdense hcount
      rw [refineWithin, hfixed, hfixed]
  | succ bound ih =>
      rw [refineWithin]
      split
      · rename_i hsame
        have hfixed := recolor_eq_of_colorCount_le hsize hdense hsame.le
        rw [hfixed, hfixed]
      · rename_i hother
        have hmore := (recolor_isBelow (r := r) hsize).colorCount_le hdense
        exact ih (size_recolor r colors) (recolor_isDense r colors) (by omega)

/-- The first round decides whether a coloring with gaps is refined any further. -/
theorem refine_eq_recolor (hsame : (r.recolor colors).colorCount = colors.colorCount) :
    r.refine colors = r.recolor colors := by
  rw [refine, refineWithin, if_pos hsame]

theorem recolor_refine (hother : (r.recolor colors).colorCount ≠ colors.colorCount) :
    r.recolor (r.refine colors) = r.refine colors := by
  rw [refine, refineWithin, if_neg hother]
  exact recolor_refineWithin (size_recolor r colors) (recolor_isDense r colors)
    (Nat.le_add_left _ _)

theorem recolor_refine_of_isDense (hsize : colors.size = r.graph.size)
    (hdense : colors.IsDense) : r.recolor (r.refine colors) = r.refine colors :=
  recolor_refineWithin hsize hdense (by omega)

/-- No equitable coloring is lost by a refinement. -/
theorem refines_refineWithin (hg : g.WellFormed) (hequitable : g.IsEquitable fine) (bound : Nat)
    (h : fine.Refines colors) : fine.Refines (g.refiner.refineWithin bound colors) := by
  induction bound generalizing colors with
  | zero => exact refines_recolor hg hequitable h
  | succ bound ih =>
      have hround := refines_recolor hg hequitable h
      rw [refineWithin]
      split
      · exact hround
      · exact ih hround

end Refiner

namespace ColoredGraph

open Refiner

variable {g : ColoredGraph} {colors : Coloring}

/-- `stable` splits the cells of `start` in order and leaves no color out, it is
equitable, and every equitable coloring that refines `start` refines it, too. -/
structure IsStableBelow (g : ColoredGraph) (stable start : Coloring) : Prop
    extends IsBelow stable start where
  dense : stable.IsDense
  equitable : g.IsEquitable stable
  coarsest : ∀ other, g.IsEquitable other → other.Refines start → other.Refines stable

theorem WellFormed.isEquitable_refine_iff (hg : g.WellFormed) (hsize : colors.size = g.size) :
    g.IsEquitable (g.refiner.refine colors) ↔
      g.refiner.recolor (g.refiner.refine colors) = g.refiner.refine colors :=
  isEquitable_iff_recolor_eq hg ((refine_isBelow hsize).size_eq.trans hsize) (refine_isDense hsize)

/-- A dense coloring is refined to the coarsest equitable coloring below it. -/
theorem WellFormed.isStableBelow_of_isDense (hg : g.WellFormed) (hsize : colors.size = g.size)
    (hdense : colors.IsDense) : g.IsStableBelow (g.refiner.refine colors) colors where
  toIsBelow := refine_isBelow hsize
  dense := refine_isDense hsize
  equitable := (hg.isEquitable_refine_iff hsize).mpr (recolor_refine_of_isDense hsize hdense)
  coarsest := fun _ hother h => refines_refineWithin hg hother _ h

/-! ## Individualizing in turn -/

/-- The coloring that is reached when vertices are individualized in turn. -/
def reached (g : ColoredGraph) (vertices : List Nat) : Coloring :=
  vertices.foldl g.refiner.individualize g.refiner.initial

/-- The coloring that is refined last: the vertex colors without gaps or, after some
vertices, what was reached before the last of them with this one told apart. -/
def lastSplit (g : ColoredGraph) (vertices : List Nat) : Coloring :=
  match vertices.getLast? with
  | none => ranked compare g.size g.color
  | some v => split (g.reached vertices.dropLast) v

theorem reached_concat (g : ColoredGraph) (vertices : List Nat) (v : Nat) :
    g.reached (vertices ++ [v]) = g.refiner.individualize (g.reached vertices) v := by
  simp [reached]

theorem size_reached (g : ColoredGraph) (vertices : List Nat) :
    (g.reached vertices).size = g.size := by
  induction vertices using List.reverseRecOn with
  | nil => exact size_initial g
  | append_singleton vertices v ih =>
      rw [reached_concat]
      exact size_individualize (r := g.refiner) ih v

/-- Individualizing more vertices splits cells further. -/
theorem reached_append_isBelow (g : ColoredGraph) (before after : List Nat) :
    (g.reached (before ++ after)).IsBelow (g.reached before) := by
  induction after using List.reverseRecOn with
  | nil =>
      rw [List.append_nil]
      exact .refl _
  | append_singleton after v ih =>
      rw [← List.append_assoc, reached_concat]
      exact (individualize_isBelow (r := g.refiner) (size_reached g _) v).trans ih

/-- The vertex colors without gaps keep their order. -/
theorem ranked_color_isBelow (g : ColoredGraph) :
    (ranked compare g.size g.color).IsBelow g.colors where
  size_eq := size_ranked compare _ _
  lt := by
    intro i j hi hj hlt
    exact (ranked_lt_iff compare hi hj).mpr (Nat.compare_eq_lt.mpr hlt)

theorem WellFormed.isStableBelow_lastSplit (hg : g.WellFormed) (vertices : List Nat) :
    g.IsStableBelow (g.reached vertices) (g.lastSplit vertices) := by
  induction vertices using List.reverseRecOn with
  | nil =>
      rw [reached, List.foldl_nil, initial_eq]
      exact hg.isStableBelow_of_isDense (size_ranked compare _ _) (ranked_isDense compare _ _)
  | append_singleton vertices v _ =>
      have hsplit : g.lastSplit (vertices ++ [v]) = split (g.reached vertices) v := by
        simp [lastSplit]
      rw [hsplit, reached_concat, individualize_eq]
      apply hg.isStableBelow_of_isDense
      · rw [size_split, size_reached]
      · exact ranked_isDense comparePairs _ _

theorem individualizeAll_eq_map_inits (r : Refiner) (colors : Coloring) (vertices : List Nat) :
    r.individualizeAll colors vertices =
      vertices.inits.map fun before => before.foldl r.individualize colors := by
  induction vertices generalizing colors with
  | nil => rfl
  | cons v rest ih => simp [individualizeAll, ih, Function.comp_def]

/-- The colorings that are met when vertices are individualized in turn belong to the
beginnings of the list of vertices.  The one that is reached at the end uses exactly
the colors below its number of colors, it keeps the order of the vertex colors and of
all cells met before, and it is the coarsest equitable coloring below the coloring
that was refined last. -/
theorem reached_isStableBelow_lastSplit (hg : g.WellFormed) (vertices : List Nat) :
    g.refiner? = some g.refiner ∧
    g.refiner.individualizeAll g.refiner.initial vertices = vertices.inits.map g.reached ∧
    (∀ c, c < (g.reached vertices).colorCount ↔
      ∃ i < g.size, (g.reached vertices).getD i 0 = c) ∧
    (g.reached vertices).IsBelow g.colors ∧
    (∀ before, before <+: vertices → (g.reached vertices).IsBelow (g.reached before)) ∧
    g.IsStableBelow (g.reached vertices) (g.lastSplit vertices) := by
  have hstable := hg.isStableBelow_lastSplit vertices
  refine ⟨refiner?_eq hg, individualizeAll_eq_map_inits _ _ _, fun c => ?_, ?_, ?_, hstable⟩
  · rw [← size_reached g vertices]
    constructor
    · exact hstable.dense.exists_of_lt
    · rintro ⟨i, hi, rfl⟩
      exact getD_lt_colorCount hi
  · have hfirst : (g.reached []).IsBelow (g.lastSplit []) :=
      (hg.isStableBelow_lastSplit []).toIsBelow
    have hall := reached_append_isBelow g [] vertices
    exact hall.trans (hfirst.trans (ranked_color_isBelow g))
  · rintro before ⟨after, rfl⟩
    exact reached_append_isBelow g before after

/-- On a directed ring whose edges have two colors in turn, one vertex that is told
apart tells all of them apart. -/
theorem reached_isStableBelow_lastSplit_ring :
    let g := (ofColors true [5, 5, 5, 5]).addEdges
      [((0, 1), 0), ((1, 2), 1), ((2, 3), 0), ((3, 0), 1)]
    g.WellFormed ∧ g.reached [] = #[0, 1, 0, 1] ∧ g.reached [2] = #[1, 2, 0, 3] ∧
      g.lastSplit [2] = #[1, 2, 0, 2] ∧ g.IsEquitable #[0, 1, 0, 1] ∧
      g.IsStableBelow #[1, 2, 0, 3] #[1, 2, 0, 2] := by
  intro g
  have hg : g.WellFormed := (wellFormed_ofColors true [5, 5, 5, 5]).addEdges (by decide)
  have hinitial : g.reached [] = #[0, 1, 0, 1] := by decide +kernel
  have hreached : g.reached [2] = #[1, 2, 0, 3] := by decide +kernel
  have hsplit : g.lastSplit [2] = #[1, 2, 0, 2] := by decide +kernel
  obtain ⟨-, -, -, -, -, hstable⟩ := reached_isStableBelow_lastSplit hg [2]
  obtain ⟨-, -, -, -, -, hstable'⟩ := reached_isStableBelow_lastSplit hg []
  rw [hreached, hsplit] at hstable
  rw [hinitial] at hstable'
  exact ⟨hg, hinitial, hreached, hsplit, hstable'.equitable, hstable⟩

/-! ## Colorings with gaps -/

/-- A coloring that gives each vertex a number is refined in order and without gaps,
and every equitable coloring that refines it refines the answer, too.  The answer is
equitable itself unless the greatest color is as great after one round as before,
while a second round would add a color.  This does not happen to colorings without
gaps. -/
theorem refine?_isEquitable_iff (hg : g.WellFormed) {given : List Nat}
    (hlength : given.length = g.size) :
    let start : Coloring := given.toArray
    let once := g.refiner.recolor start
    let twice := g.refiner.recolor once
    ∃ refined, g.refine? given = some refined ∧ refined.IsBelow start ∧ refined.IsDense ∧
      (∀ other, g.IsEquitable other → other.Refines start → other.Refines refined) ∧
      (g.IsEquitable refined ↔
        ¬(once.colorCount = start.colorCount ∧ twice.colorCount ≠ once.colorCount)) ∧
      (start.IsDense → g.IsEquitable refined) := by
  intro start once twice
  have hsize : start.size = g.size := hlength
  have hanswer : g.refine? given = some (g.refiner.refine start) := by
    simp [refine?, refiner?_eq hg, hlength, guard, start]
  refine ⟨_, hanswer, refine_isBelow hsize, refine_isDense hsize,
    fun _ hother h => refines_refineWithin hg hother _ h, ?_,
    fun hdense => (hg.isStableBelow_of_isDense hsize hdense).equitable⟩
  rw [hg.isEquitable_refine_iff hsize]
  by_cases hsame : once.colorCount = start.colorCount
  · have hstop : g.refiner.refine start = once := refine_eq_recolor hsame
    rw [hstop, and_iff_right hsame, not_not]
    constructor
    · exact congrArg colorCount
    · intro hcount
      exact recolor_eq_of_colorCount_le (size_recolor _ _) (recolor_isDense _ _) hcount.le
  · simp [hsame, recolor_refine hsame]

/-- A path of five vertices of color 9, which is far above the number of colors. -/
theorem refine?_isEquitable_iff_path :
    let g := (ofColors false [0, 0, 0, 0, 0]).addEdges
      [((0, 1), 0), ((1, 2), 0), ((2, 3), 0), ((3, 4), 0)]
    g.WellFormed ∧ [9, 9, 9, 9, 9].length = g.size ∧
      g.refine? [9, 9, 9, 9, 9] = some #[0, 1, 2, 1, 0] ∧
      g.IsStableBelow #[0, 1, 2, 1, 0] #[9, 9, 9, 9, 9] := by
  intro g
  have hg : g.WellFormed := (wellFormed_ofColors false [0, 0, 0, 0, 0]).addEdges (by decide)
  have hlength : [9, 9, 9, 9, 9].length = g.size := by simp [g]
  have hanswer : g.refine? [9, 9, 9, 9, 9] = some #[0, 1, 2, 1, 0] := by cbv
  obtain ⟨refined, hrefined, hbelow, hdense, hcoarsest, hiff, -⟩ :=
    refine?_isEquitable_iff hg hlength
  obtain rfl : #[0, 1, 2, 1, 0] = refined := Option.some.inj (hanswer.symm.trans hrefined)
  have hten : colorCount #[9, 9, 9, 9, 9] = 10 := by decide
  have htwo : (g.refiner.recolor #[9, 9, 9, 9, 9]).colorCount = 2 := by cbv
  have hcount : (g.refiner.recolor #[9, 9, 9, 9, 9]).colorCount ≠
      colorCount #[9, 9, 9, 9, 9] := by omega
  have hequitable := hiff.mpr fun h => hcount h.1
  exact ⟨hg, hlength, hanswer, hbelow, hdense, hequitable, hcoarsest⟩

/-- If all vertices of the path have color 1, then one round only tells the ends apart
from the rest, where the middle has other neighbours than the vertices beside it. -/
theorem refine?_not_isEquitable :
    let g := (ofColors false [0, 0, 0, 0, 0]).addEdges
      [((0, 1), 0), ((1, 2), 0), ((2, 3), 0), ((3, 4), 0)]
    g.WellFormed ∧ [1, 1, 1, 1, 1].length = g.size ∧
      g.refine? [1, 1, 1, 1, 1] = some #[0, 1, 1, 1, 0] ∧ ¬g.IsEquitable #[0, 1, 1, 1, 0] := by
  intro g
  have hg : g.WellFormed := (wellFormed_ofColors false [0, 0, 0, 0, 0]).addEdges (by decide)
  refine ⟨hg, by simp [g], by cbv, fun hequitable => ?_⟩
  have hsame := hequitable.sameAround 1 2 (by simp [g]) (by simp [g]) rfl
  exact absurd hsame.outgoing (by decide +kernel)

end ColoredGraph
end ProcessorSymmetry

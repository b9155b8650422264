import ProcessorSymmetry.Proofs.ColoredGraph.Search
import ProcessorSymmetry.Proofs.ColoredGraph.Stable

/-!
# Termination of refinement and of the first path

Rounds of recoloring go on until the number of colors stays the same, and vertices are
individualized until a leaf is reached.  Neither loop has a bound of its own.  A round
leaves no color out, so that from the second round on each one but the last adds a
color; the first round may lower the number of colors of a coloring with gaps.  Each
individualization adds a color as well, and there are no more colors than vertices.
-/

namespace ProcessorSymmetry

open Coloring

/-- A coloring with fewer colors goes in front of colorings with more and more colors. -/
theorem pairwise_colorCount_cons {colors next : Coloring} {later : List Coloring}
    (hlt : colors.colorCount < next.colorCount)
    (hlater : (next :: later).Pairwise fun a b => a.colorCount < b.colorCount) :
    (colors :: next :: later).Pairwise fun a b => a.colorCount < b.colorCount := by
  refine List.pairwise_cons.mpr ⟨?_, hlater⟩
  intro after hafter
  rcases List.mem_cons.mp hafter with rfl | hafter
  · exact hlt
  · exact hlt.trans ((List.pairwise_cons.mp hlater).1 after hafter)

namespace Refiner

variable {r : Refiner} {colors : Coloring} {rounds others deeper : List Coloring}

/-! ## Rounds of recoloring -/

/-- The colorings after the rounds of a refinement, which go on until a round leaves the
number of colors as it is. -/
inductive Rounds (r : Refiner) : Coloring → List Coloring → Prop
  | last {colors : Coloring} (same : (r.recolor colors).colorCount = colors.colorCount) :
      Rounds r colors [r.recolor colors]
  | next {colors : Coloring} {later : List Coloring}
      (other : (r.recolor colors).colorCount ≠ colors.colorCount)
      (rest : Rounds r (r.recolor colors) later) : Rounds r colors (r.recolor colors :: later)

namespace Rounds

theorem ne_nil (h : r.Rounds colors rounds) : rounds ≠ [] := by
  cases h with
  | last _ => exact List.cons_ne_nil _ _
  | next _ _ => exact List.cons_ne_nil _ _

theorem unique (h : r.Rounds colors rounds) (h' : r.Rounds colors others) : others = rounds := by
  induction h generalizing others with
  | last same =>
      cases h' with
      | last _ => rfl
      | next other _ => exact absurd same other
  | next other _ ih =>
      cases h' with
      | last same => exact absurd same other
      | next _ rest => exact congrArg (List.cons _) (ih rest)

/-- From a coloring without gaps on, every round but the last adds a color. -/
theorem pairwise_cons (h : r.Rounds colors rounds) (hsize : colors.size = r.graph.size)
    (hdense : colors.IsDense) :
    (colors :: rounds.dropLast).Pairwise fun a b => a.colorCount < b.colorCount := by
  induction h with
  | last _ => exact List.pairwise_singleton _ _
  | @next colors later other rest ih =>
      have hlater := ih (size_recolor r colors) (recolor_isDense r colors)
      have hle := (recolor_isBelow (r := r) hsize).colorCount_le hdense
      have hlt : colors.colorCount < (r.recolor colors).colorCount :=
        lt_of_le_of_ne hle other.symm
      rw [List.dropLast_cons_of_ne_nil rest.ne_nil]
      exact pairwise_colorCount_cons hlt hlater

/-- From any coloring on, every round between the first and the last adds a color. -/
theorem pairwise (h : r.Rounds colors rounds) :
    rounds.dropLast.Pairwise fun a b => a.colorCount < b.colorCount := by
  cases h with
  | last _ => exact .nil
  | next _ rest =>
      rw [List.dropLast_cons_of_ne_nil rest.ne_nil]
      exact rest.pairwise_cons (size_recolor r colors) (recolor_isDense r colors)

theorem colorCount_add_length_le (h : r.Rounds colors rounds)
    (hsize : colors.size = r.graph.size) (hdense : colors.IsDense) :
    colors.colorCount + rounds.length ≤ r.graph.size + 1 := by
  induction h with
  | @last colors _ =>
      have hle := hdense.colorCount_le_size
      simp only [List.length_singleton]
      omega
  | @next colors later other _ ih =>
      have hlater := ih (size_recolor r colors) (recolor_isDense r colors)
      have hle := (recolor_isBelow (r := r) hsize).colorCount_le hdense
      simp only [List.length_cons]
      omega

/-- One round makes any coloring dense, and from there at most one round for each vertex
and a last one are left. -/
theorem length_le (h : r.Rounds colors rounds) : rounds.length ≤ r.graph.size + 2 := by
  cases h with
  | last _ => simp
  | next _ rest =>
      have hrest := rest.colorCount_add_length_le (size_recolor r colors)
        (recolor_isDense r colors)
      simp only [List.length_cons]
      omega

end Rounds

/-- A bound that leaves room for all vertices to get colors of their own is not met. -/
theorem exists_rounds_refineWithin (hsize : colors.size = r.graph.size)
    (hdense : colors.IsDense) {bound : Nat}
    (hbound : r.graph.size ≤ colors.colorCount + bound) :
    ∃ rounds, r.Rounds colors rounds ∧ rounds.getLast? = some (r.refineWithin bound colors) := by
  induction bound generalizing colors with
  | zero =>
      have hle := (recolor_isBelow (r := r) hsize).colorCount_le hdense
      have hfull : (r.recolor colors).colorCount ≤ r.graph.size :=
        (recolor_isDense r colors).colorCount_le_size.trans_eq (size_recolor r colors)
      exact ⟨_, .last (by omega), rfl⟩
  | succ bound ih =>
      rw [refineWithin]
      split
      · rename_i hsame
        exact ⟨_, .last hsame, rfl⟩
      · rename_i hother
        have hle := (recolor_isBelow (r := r) hsize).colorCount_le hdense
        obtain ⟨later, hlater, hlast⟩ :=
          ih (size_recolor r colors) (recolor_isDense r colors) (by omega)
        refine ⟨_, .next hother hlater, ?_⟩
        rw [List.getLast?_cons_of_ne_nil hlater.ne_nil]
        exact hlast

/-- The rounds of any coloring come to an end, and the last one gives the refined coloring. -/
theorem exists_rounds_refine (r : Refiner) (colors : Coloring) :
    ∃ rounds, r.Rounds colors rounds ∧ rounds.getLast? = some (r.refine colors) := by
  rw [refine, refineWithin]
  split
  · rename_i hsame
    exact ⟨_, .last hsame, rfl⟩
  · rename_i hother
    have hbound : r.graph.size ≤ (r.recolor colors).colorCount + r.graph.size :=
      Nat.le_add_left _ _
    obtain ⟨later, hlater, hlast⟩ :=
      exists_rounds_refineWithin (size_recolor r colors) (recolor_isDense r colors) hbound
    refine ⟨_, .next hother hlater, ?_⟩
    rw [List.getLast?_cons_of_ne_nil hlater.ne_nil]
    exact hlast

/-! ## The first path -/

namespace IsPath

theorem unique (h : r.IsPath (colors :: deeper)) (h' : r.IsPath (colors :: others)) :
    others = deeper := by
  generalize hwhole : colors :: deeper = path at h
  induction h generalizing colors deeper others with
  | leaf none =>
      obtain ⟨rfl, rfl⟩ := List.cons.inj hwhole
      cases h' with
      | leaf _ => rfl
      | node some _ => exact absurd some (by simp [none])
  | node some _ ih =>
      obtain ⟨rfl, rfl⟩ := List.cons.inj hwhole
      cases h' with
      | leaf none => exact absurd some (by simp [none])
      | node some' next' =>
          obtain ⟨rfl, -⟩ := List.cons.inj (Option.some.inj (some.symm.trans some'))
          exact congrArg (List.cons _) (ih next' rfl)

/-- Every individualization along a path adds a color. -/
theorem pairwise (h : r.IsPath (colors :: deeper)) (hcolors : r.IsNode colors) :
    (colors :: deeper).Pairwise fun a b => a.colorCount < b.colorCount := by
  generalize hwhole : colors :: deeper = path at h
  induction h generalizing colors deeper with
  | leaf _ => exact List.pairwise_singleton _ _
  | @node start v rest deeper some _ ih =>
      obtain ⟨rfl, -⟩ := List.cons.inj hwhole
      have hdeeper := ih (hcolors.individualize v) rfl
      have hlt := colorCount_lt_individualize (r := r) hcolors.size_eq hcolors.dense some
        List.mem_cons_self
      exact pairwise_colorCount_cons hlt hdeeper

theorem colorCount_add_length_le (h : r.IsPath (colors :: deeper)) (hcolors : r.IsNode colors) :
    colors.colorCount + deeper.length ≤ r.graph.size := by
  generalize hwhole : colors :: deeper = path at h
  induction h generalizing colors deeper with
  | leaf _ =>
      obtain ⟨rfl, rfl⟩ := List.cons.inj hwhole
      exact hcolors.dense.colorCount_le_size.trans_eq hcolors.size_eq
  | @node start v rest deeper some _ ih =>
      obtain ⟨rfl, rfl⟩ := List.cons.inj hwhole
      have hdeeper := ih (hcolors.individualize v) rfl
      have hlt := colorCount_lt_individualize (r := r) hcolors.size_eq hcolors.dense some
        List.mem_cons_self
      simp only [List.length_cons]
      omega

end IsPath
end Refiner

namespace ColoredGraph

open Refiner

variable {g : ColoredGraph}

/-- Refining a coloring with a number for each vertex ends after at most two rounds more
than there are vertices, and each round between the first and the last adds a color.
The first path of the search ends as well: each individualization adds a color, so that
there are no more of them than colors missing at the start. -/
theorem rounds_and_first_path_end (hg : g.WellFormed) :
    (∀ given : List Nat, g.size ≤ given.length →
      ∃ rounds, g.refiner.Rounds given.toArray rounds ∧
        (∀ others, g.refiner.Rounds given.toArray others → others = rounds) ∧
        g.refine? given = rounds.getLast? ∧ rounds.length ≤ g.size + 2 ∧
        rounds.dropLast.Pairwise fun a b => a.colorCount < b.colorCount) ∧
    ∃ deeper, g.refiner.IsPath (g.refiner.initial :: deeper) ∧
      (∀ others, g.refiner.IsPath (g.refiner.initial :: others) → others = deeper) ∧
      g.generators .search = g.generatorsAlong g.refiner (g.refiner.initial :: deeper) ∧
      g.refiner.initial.colorCount + deeper.length ≤ g.size ∧
      (g.refiner.initial :: deeper).Pairwise fun a b => a.colorCount < b.colorCount := by
  constructor
  · intro given hlength
    obtain ⟨rounds, hrounds, hlast⟩ := exists_rounds_refine g.refiner given.toArray
    have hanswer : g.refine? given = some (g.refiner.refine given.toArray) := by
      simp [refine?, refiner?_eq hg, hlength, guard]
    exact ⟨rounds, hrounds, fun _ => hrounds.unique, hanswer.trans hlast.symm,
      hrounds.length_le, hrounds.pairwise⟩
  · have hnode := isNode_initial g
    obtain ⟨deeper, hpath, hsearch⟩ := exists_isPath_generatorsBySearch g
    exact ⟨deeper, hpath, fun _ => hpath.unique, hsearch,
      hpath.colorCount_add_length_le hnode, hpath.pairwise hnode⟩

/-- A path of five vertices of color 9.  The first round lowers the number of colors from
ten to two, and to individualize one end tells all vertices apart. -/
theorem rounds_and_first_path_end_gaps :
    let g := (ofColors false [0, 0, 0, 0, 0]).addEdges
      [((0, 1), 0), ((1, 2), 0), ((2, 3), 0), ((3, 4), 0)]
    g.WellFormed ∧ g.size ≤ [9, 9, 9, 9, 9].length ∧
      colorCount #[9, 9, 9, 9, 9] = 10 ∧
      g.refiner.Rounds #[9, 9, 9, 9, 9]
        [#[0, 1, 1, 1, 0], #[0, 1, 2, 1, 0], #[0, 1, 2, 1, 0]] ∧
      g.refine? [9, 9, 9, 9, 9] = some #[0, 1, 2, 1, 0] ∧
      g.refiner.IsPath [#[0, 1, 2, 1, 0], #[0, 2, 4, 3, 1]] ∧
      g.generators .search =
        g.generatorsAlong g.refiner [#[0, 1, 2, 1, 0], #[0, 2, 4, 3, 1]] := by
  intro g
  have hg : g.WellFormed := (wellFormed_ofColors false [0, 0, 0, 0, 0]).addEdges (by decide)
  have hlength : g.size ≤ [9, 9, 9, 9, 9].length := by simp [g]
  have hfirst : g.refiner.recolor #[9, 9, 9, 9, 9] = #[0, 1, 1, 1, 0] := by cbv
  have hsecond : g.refiner.recolor #[0, 1, 1, 1, 0] = #[0, 1, 2, 1, 0] := by cbv
  have hthird : g.refiner.recolor #[0, 1, 2, 1, 0] = #[0, 1, 2, 1, 0] := by cbv
  have hend : g.refiner.Rounds #[0, 1, 2, 1, 0] [#[0, 1, 2, 1, 0]] := by
    have hlast := Rounds.last (congrArg colorCount hthird)
    rwa [hthird] at hlast
  have hmiddle : g.refiner.Rounds #[0, 1, 1, 1, 0] [#[0, 1, 2, 1, 0], #[0, 1, 2, 1, 0]] := by
    rw [← hsecond]
    refine .next ?_ (by rwa [hsecond])
    rw [hsecond]
    decide
  have hrounds : g.refiner.Rounds #[9, 9, 9, 9, 9]
      [#[0, 1, 1, 1, 0], #[0, 1, 2, 1, 0], #[0, 1, 2, 1, 0]] := by
    rw [← hfirst]
    refine .next ?_ (by rwa [hfirst])
    rw [hfirst]
    decide
  have hinitial : g.refiner.initial = #[0, 1, 2, 1, 0] := by cbv
  have hleaf : g.refiner.individualize #[0, 1, 2, 1, 0] 0 = #[0, 2, 4, 3, 1] := by cbv
  have hpath : g.refiner.IsPath [#[0, 1, 2, 1, 0], #[0, 2, 4, 3, 1]] := by
    rw [← hleaf]
    have htarget : targetCell? #[0, 1, 2, 1, 0] = some [0, 4] := by decide
    exact .node htarget (.leaf (by rw [hleaf]; decide))
  obtain ⟨hrefine, deeper, -, hunique, hsearch, -, -⟩ := rounds_and_first_path_end hg
  obtain ⟨rounds, -, honly, hanswer, -, -⟩ := hrefine [9, 9, 9, 9, 9] hlength
  obtain rfl := honly _ hrounds
  obtain rfl := hunique _ (hinitial ▸ hpath)
  rw [hinitial] at hsearch
  exact ⟨hg, hlength, by decide, hrounds, hanswer, hpath, hsearch⟩

end ColoredGraph
end ProcessorSymmetry

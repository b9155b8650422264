import Mathlib.Data.Option.Basic
import ProcessorSymmetry.Proofs.ColoredGraph.Building
import ProcessorSymmetry.Proofs.ColoredGraph.Refinement

/-!
# Refinement of permuted graphs

Permuting a graph gives its vertices other names and changes nothing else.  Hence
refining and individualizing in the permuted graph gives the same colorings under
the other names, with cells of the same sizes and the same target cell.
-/

namespace ProcessorSymmetry

/-! ## Permuted colorings -/

namespace Coloring

variable {n : Nat} {p : Perm n} {colors others : Coloring}

/-- The coloring in which `p i` has the color of `i`. -/
def carried (p : Perm n) (colors : Coloring) : Coloring :=
  ((List.range n).map fun i => colors.getD (p⁻¹ i) 0).toArray

theorem getD_carried {i : Nat} (hi : i < n) :
    (carried p colors).getD i 0 = colors.getD (p⁻¹ i) 0 := by
  simp [carried, Array.getD_eq_getD_getElem?, hi]

theorem carries_carried (h : colors.size = n) : Carries p colors (carried p colors) where
  size_eq := h
  image_size_eq := by simp [carried]
  getD_eq i hi := by rw [getD_carried (p.app_lt hi), Perm.inv_app_app]

namespace Carries

theorem eq_carried (h : Carries p colors others) : others = carried p colors := by
  apply ext_getD
  · simp [carried, h.image_size_eq]
  · intro i hi
    have hin : i < n := by simpa [carried] using hi
    rw [getD_carried hin, ← h.getD_eq _ (p⁻¹.app_lt hin), Perm.app_inv_app]

/-- Either there is no target cell in both colorings, or the one is renamed to the other. -/
theorem targetCell?_rel (h : Carries p colors others) :
    Option.Rel (fun target image => image.Perm (target.map p))
      colors.targetCell? others.targetCell? := by
  cases htarget : colors.targetCell? with
  | none =>
      rw [h.targetCell?_eq_none htarget]
      exact .none
  | some target =>
      obtain ⟨image, himage, hmem⟩ := h.targetCell?_eq_some htarget
      obtain ⟨c, rfl, -⟩ := targetCell?_eq_some_iff.mp htarget
      obtain ⟨d, rfl, -⟩ := targetCell?_eq_some_iff.mp himage
      rw [himage]
      refine .some ?_
      rw [List.perm_ext_iff_of_nodup (nodup_cell _ _)
        ((nodup_cell _ _).map fun _ _ => p.app_injective)]
      intro x
      rw [← p.app_inv_app x, hmem, List.mem_map_of_injective fun _ _ => p.app_injective]

end Carries
end Coloring

/-! ## Permuted graphs -/

namespace ColoredGraph

variable {n : Nat} {p : Perm n} {g h : ColoredGraph} {edges : List ((Nat × Nat) × Nat)}

/-- The graph with the edges of a list under the names of the vertices given by `p`. -/
def withRenamed (p : Perm n) (h : ColoredGraph) (edges : List ((Nat × Nat) × Nat)) :
    ColoredGraph :=
  edges.foldl (fun h edge => h.setEdge (p edge.1.1) (p edge.1.2) edge.2) h

/-- The vertices of the permuted graph. -/
def renamedVertices (g : ColoredGraph) (p : Perm n) : ColoredGraph :=
  ofColors g.directed ((List.range g.size).map fun i => g.color (p⁻¹ i))

theorem permuted_eq (g : ColoredGraph) (p : Perm n) :
    g.permuted p = withRenamed p (g.renamedVertices p) g.edges :=
  rfl

theorem withRenamed_cons (edge : (Nat × Nat) × Nat) :
    withRenamed p h (edge :: edges) =
      withRenamed p (h.setEdge (p edge.1.1) (p edge.1.2) edge.2) edges :=
  rfl

theorem size_withRenamed (h : ColoredGraph) : (withRenamed p h edges).size = h.size := by
  induction edges generalizing h with
  | nil => rfl
  | cons edge edges ih => exact ih _

theorem directed_withRenamed (h : ColoredGraph) :
    (withRenamed p h edges).directed = h.directed := by
  induction edges generalizing h with
  | nil => rfl
  | cons edge edges ih => exact ih _

theorem color_withRenamed (h : ColoredGraph) (i : Nat) :
    (withRenamed p h edges).color i = h.color i := by
  induction edges generalizing h with
  | nil => rfl
  | cons edge edges ih => exact ih _

theorem WellFormed.withRenamed (hh : h.WellFormed) (hsize : h.size = n)
    (hedges : ∀ edge ∈ edges, edge.1.2 < n) : (withRenamed p h edges).WellFormed := by
  induction edges generalizing h with
  | nil => exact hh
  | cons edge edges ih =>
      obtain ⟨hfirst, hrest⟩ := List.forall_mem_cons.mp hedges
      exact ih (hh.setEdge (hsize.symm ▸ p.app_lt hfirst)) hsize hrest

/-- The last edge of the list between two vertices is found between their new names. -/
theorem edge?_withRenamed (hsize : h.targets.size = n)
    (hedges : ∀ edge ∈ edges, edge.1.1 < n) (a b : Nat) :
    (withRenamed p h edges).edge? (p a) (p b) =
      (edges.reverse.lookup (a, b)).or (h.edge? (p a) (p b)) := by
  induction edges generalizing h with
  | nil => rfl
  | cons edge edges ih =>
      obtain ⟨hfirst, hrest⟩ := List.forall_mem_cons.mp hedges
      obtain ⟨⟨i, j⟩, c⟩ := edge
      have hstep : (h.setEdge (p i) (p j) c).edge? (p a) (p b) =
          ([((i, j), c)].lookup (a, b)).or (h.edge? (p a) (p b)) := by
        rw [edge?_setEdge (hsize.symm ▸ p.app_lt hfirst), List.lookup_cons]
        by_cases hends : (a, b) = (i, j)
        · obtain ⟨rfl, rfl⟩ := Prod.mk.inj hends
          simp
        · have hnames : ¬(p a = p i ∧ p b = p j) := fun heq =>
            hends (Prod.ext (p.app_injective heq.1) (p.app_injective heq.2))
          rw [beq_false_of_ne hends, if_neg hnames]
          rfl
      have hsize' : (h.setEdge (p i) (p j) c).targets.size = n := by
        rw [setEdge, Array.size_modify, hsize]
      rw [withRenamed_cons, ih hsize' hrest, hstep, List.reverse_cons, List.lookup_append,
        Option.or_assoc]

theorem color_renamedVertices (g : ColoredGraph) (p : Perm g.size) (i : Nat) :
    (g.renamedVertices p).color (p i) = g.color i := by
  rw [renamedVertices, color_ofColors, List.getD_eq_getElem?_getD]
  by_cases hi : i < g.size
  · simp [p.app_lt hi]
  · have hcolor : g.color i = 0 := by
      simp [color, Array.getD_eq_getD_getElem?, show g.colors.size ≤ i from Nat.not_lt.mp hi]
    simp [p.app_lt_iff, hi, hcolor]

/-- A permutation of the vertices has room for the ends of all edges if these are vertices. -/
theorem permuted?_eq_ite (g : ColoredGraph) (p : Perm g.size) :
    g.permuted? ⟨g.size, p⟩ = if g.isClosed = true then some (g.permuted p) else none := by
  have himages : ((List.range g.size).all fun i => p i < g.size) = true := by
    rw [List.all_eq_true]
    intro i hi
    exact decide_eq_true (p.app_lt (List.mem_range.mp hi))
  rw [isClosed]
  generalize hends : g.edges.all _ = closed
  cases closed with
  | true => simp [permuted?, himages, hends, guard]
  | false => simp [permuted?, himages, hends, guard]

namespace WellFormed

/-- The permuted graph is the graph with other names of the vertices. -/
theorem relabels_permuted (hg : g.WellFormed) (p : Perm g.size) :
    g.Relabels p (g.permuted p) where
  size_eq := rfl
  image_size_eq := by
    rw [permuted_eq, size_withRenamed]
    simp [renamedVertices]
  directed_eq := by
    rw [permuted_eq, directed_withRenamed]
    rfl
  color_eq i := by rw [permuted_eq, color_withRenamed, color_renamedVertices]
  edge?_eq := by
    intro a b
    have hends : ∀ edge ∈ g.edges, edge.1.1 < g.size := fun _ hedge =>
      (hg.lt_of_edge? (hg.mem_edges_iff.mp hedge)).1
    have hnone : (g.renamedVertices p).edge? (p a) (p b) = none := edge?_ofColors _ _ _ _
    have hsize : (g.renamedVertices p).targets.size = g.size := by
      simp [renamedVertices, ofColors]
    rw [permuted_eq, edge?_withRenamed hsize hends, hnone, Option.or_none]
    apply Option.ext
    intro c
    rw [← hg.mem_edges_iff, ← List.mem_reverse]
    exact lookup_eq_some_iff_mem (by
      rw [List.map_reverse, List.nodup_reverse]
      exact hg.nodup_ends)

theorem permuted (hg : g.WellFormed) (p : Perm g.size) : (g.permuted p).WellFormed := by
  rw [permuted_eq]
  apply (wellFormed_ofColors _ _).withRenamed
  · simp
  · exact fun _ hedge => (hg.lt_of_edge? (hg.mem_edges_iff.mp hedge)).2

theorem permuted?_eq (hg : g.WellFormed) (p : Perm g.size) :
    g.permuted? ⟨g.size, p⟩ = some (g.permuted p) := by
  rw [permuted?_eq_ite, if_pos hg.isClosed]

end WellFormed

/-! ## Refinement -/

open Coloring

variable {colors others : Coloring}

/-- Individualizing renamed vertices in turn, from a renamed coloring on, meets the
renamed colorings. -/
theorem individualizeAll_map (hg : g.WellFormed) (hh : h.WellFormed) (hp : g.Relabels p h)
    (hc : Carries p colors others) (vertices : List Nat) :
    h.refiner.individualizeAll others (vertices.map p) =
      (g.refiner.individualizeAll colors vertices).map (carried p) := by
  induction vertices generalizing colors others with
  | nil => exact congrArg (fun c => [c]) hc.eq_carried
  | cons v rest ih =>
      have hstep := Refiner.carries_individualize hg hh hp hc v
      rw [List.map_cons, Refiner.individualizeAll, Refiner.individualizeAll, ih hstep,
        List.map_cons, ← hc.eq_carried]

/-- Refinement in the permuted graph, from a renamed coloring on and with renamed
vertices, gives the renamed colorings.  Renaming a coloring keeps the sizes of its
cells and renames its target cell. -/
theorem refinement_permuted (hg : g.WellFormed) (p : Perm g.size) :
    let h := g.permuted p
    g.permuted? ⟨g.size, p⟩ = some h ∧ g.Relabels p h ∧
    g.refiner? = some g.refiner ∧ h.refiner? = some h.refiner ∧
    h.refiner.initial = carried p g.refiner.initial ∧
    (∀ colors : Coloring, colors.size = g.size →
      Carries p colors (carried p colors) ∧
      h.refiner.refine (carried p colors) = carried p (g.refiner.refine colors) ∧
      (∀ v, h.refiner.individualize (carried p colors) (p v) =
        carried p (g.refiner.individualize colors v)) ∧
      (carried p colors).cellSizes = colors.cellSizes ∧
      Option.Rel (fun target image => image.Perm (target.map p))
        colors.targetCell? (carried p colors).targetCell?) ∧
    ∀ vertices, h.refiner.individualizeAll h.refiner.initial (vertices.map p) =
      (g.refiner.individualizeAll g.refiner.initial vertices).map (carried p) := by
  intro h
  have hh : h.WellFormed := hg.permuted p
  have hp : g.Relabels p h := hg.relabels_permuted p
  have hinitial := Refiner.carries_initial hg hh hp
  refine ⟨hg.permuted?_eq p, hp, Refiner.refiner?_eq hg, Refiner.refiner?_eq hh,
    hinitial.eq_carried, ?_, individualizeAll_map hg hh hp hinitial⟩
  intro colors hsize
  have hc : Carries p colors (carried p colors) := carries_carried hsize
  refine ⟨hc, ?_, ?_, hc.cellSizes_eq, hc.targetCell?_rel⟩
  · exact (Refiner.carries_refine hg hh hp hc).eq_carried
  · intro v
    exact (Refiner.carries_individualize hg hh hp hc v).eq_carried

/-- On a directed ring whose edges have two colors in turn, two neighbours change their
names. -/
theorem refinement_permuted_swap :
    let g := (ofColors true [5, 5, 5, 5]).addEdges
      [((0, 1), 0), ((1, 2), 1), ((2, 3), 0), ((3, 0), 1)]
    let p := Perm.swap g.size 0 3
    let h := g.permuted p
    g.WellFormed ∧ g.refiner.initial = #[0, 1, 0, 1] ∧ h.refiner.initial = #[1, 1, 0, 0] ∧
      g.refiner.individualize #[0, 1, 0, 1] 0 = #[0, 3, 1, 2] ∧
      h.refiner.individualize #[1, 1, 0, 0] 3 = #[2, 3, 1, 0] := by
  intro g p h
  have hg : g.WellFormed := (wellFormed_ofColors true [5, 5, 5, 5]).addEdges (by decide)
  have hstart : g.refiner.initial = #[0, 1, 0, 1] := by decide +kernel
  have hnext : g.refiner.individualize #[0, 1, 0, 1] 0 = #[0, 3, 1, 2] := by decide +kernel
  have hstart' : carried p #[0, 1, 0, 1] = #[1, 1, 0, 0] := by decide +kernel
  have hnext' : carried p #[0, 3, 1, 2] = #[2, 3, 1, 0] := by decide +kernel
  obtain ⟨-, -, -, -, hinitial, hsteps, -⟩ := refinement_permuted hg p
  obtain ⟨-, -, hindividualize, -, -⟩ := hsteps #[0, 1, 0, 1] rfl
  have hsecond := hindividualize 0
  rw [hstart, hstart'] at hinitial
  rw [hstart', hnext, hnext'] at hsecond
  exact ⟨hg, hstart, hinitial, hnext, hsecond⟩

end ColoredGraph
end ProcessorSymmetry

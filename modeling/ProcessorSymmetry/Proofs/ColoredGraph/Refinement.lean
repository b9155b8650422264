import ProcessorSymmetry.Proofs.ColoredGraph.Relabelling

/-!
# Stable colorings

Recoloring, refining and individualizing split cells in order, leave no color
out, and commute with relabelling.  An individualized vertex comes first in what
was its cell, so that every individualization of a target cell adds a color.
-/

namespace ProcessorSymmetry

open Coloring

instance : Std.TransCmp Signature.compare :=
  have := transCmp_comap (List.compareLex comparePairs) Signature.outgoing
  have := transCmp_comap (List.compareLex comparePairs) Signature.incoming
  inferInstanceAs (Std.TransCmp (compareLex (compareOn Signature.color)
    (compareLex (fun a b => a.outgoing.compareLex comparePairs b.outgoing)
      fun a b => a.incoming.compareLex comparePairs b.incoming)))

instance : Std.LawfulEqCmp Signature.compare where
  compare_self := Std.ReflCmp.compare_self
  eq_of_compare {a b} h := by
    cases a
    cases b
    simp only [Signature.compare, compareLex, compareOn, Ordering.then_eq_eq,
      Nat.compare_eq_eq] at h
    obtain ⟨hcolor, houtgoing, hincoming⟩ := h
    rw [hcolor, Std.LawfulEqCmp.eq_of_compare houtgoing,
      Std.LawfulEqCmp.eq_of_compare hincoming]

namespace Refiner

variable {n : Nat} {g h : ColoredGraph} {p : Perm n} {r : Refiner} {colors others : Coloring}
  {i j v w : Nat}

/-! ## Relabelling -/

/-- Lists of neighbours that correspond under a permutation look alike. -/
theorem surroundings_eq (hc : Carries p colors others) {edges images : List (Nat × Nat)}
    (hedges : edges.Nodup) (himages : images.Nodup) (hlt : ∀ e ∈ edges, e.1 < n)
    (hmem : ∀ j c, (p j, c) ∈ images ↔ (j, c) ∈ edges) :
    surroundings others images = surroundings colors edges := by
  have hperm : images.Perm (edges.map fun edge => (p edge.1, edge.2)) := by
    have hnodup : (edges.map fun edge => (p edge.1, edge.2)).Nodup := by
      apply hedges.map
      intro edge edge' heq
      obtain ⟨hend, hcolor⟩ := Prod.mk.inj heq
      exact Prod.ext (p.app_injective hend) hcolor
    rw [List.perm_ext_iff_of_nodup himages hnodup]
    rintro ⟨j, c⟩
    rw [← p.app_inv_app j, hmem, List.mem_map]
    constructor
    · intro hj
      exact ⟨_, hj, rfl⟩
    · rintro ⟨edge, hedge, heq⟩
      obtain ⟨hend, hcolor⟩ := Prod.mk.inj heq
      have hsame : edge = (p⁻¹ j, c) := Prod.ext (p.app_injective hend) hcolor
      rwa [← hsame]
  rw [surroundings, surroundings, sortBy_eq_of_perm comparePairs (hperm.map _), List.map_map]
  congr 1
  apply List.map_congr_left
  rintro ⟨j, c⟩ hj
  exact Prod.ext (hc.getD_eq j (hlt _ hj)) rfl

theorem signature_eq (hg : g.WellFormed) (hh : h.WellFormed)
    (hp : ColoredGraph.Relabels p g h) (hc : Carries p colors others) (hi : i < n) :
    h.refiner.signature others (p i) = g.refiner.signature colors i := by
  have houtgoing : surroundings others (h.edgesFrom (p i)) =
      surroundings colors (g.edgesFrom i) := by
    apply surroundings_eq hc (hg.nodup_edgesFrom i) (hh.nodup_edgesFrom (p i))
    · intro e he
      exact hp.size_eq ▸ hg.closed i e he
    · intro j c
      rw [hh.mem_edgesFrom_iff, hg.mem_edgesFrom_iff, hp.edge?_eq]
  have hincoming : surroundings others (h.refiner.sources.getD (p i) []) =
      surroundings colors (g.refiner.sources.getD i []) := by
    rw [ColoredGraph.refiner, ColoredGraph.refiner, hp.directed_eq]
    split
    · apply surroundings_eq hc (hg.nodup_incoming i) (hh.nodup_incoming (p i))
      · rintro ⟨j, c⟩ he
        exact hp.size_eq ▸ (hg.lt_of_edge? (hg.mem_incoming_iff.mp he)).1
      · intro j c
        rw [hh.mem_incoming_iff, hg.mem_incoming_iff, hp.edge?_eq]
    · rfl
  rw [signature, signature, hincoming, hc.getD_eq i hi]
  congr 1

theorem recolor_eq_ranked (r : Refiner) (colors : Coloring) :
    r.recolor colors = ranked Signature.compare r.graph.size (r.signature colors) :=
  rfl

theorem carries_recolor (hg : g.WellFormed) (hh : h.WellFormed)
    (hp : ColoredGraph.Relabels p g h) (hc : Carries p colors others) :
    Carries p (g.refiner.recolor colors) (h.refiner.recolor others) := by
  have hgraph : g.refiner.graph.size = n := hp.size_eq
  have hgraph' : h.refiner.graph.size = n := hp.image_size_eq
  rw [recolor_eq_ranked, recolor_eq_ranked, hgraph, hgraph']
  apply carries_ranked
  intro i hi
  exact signature_eq hg hh hp hc hi

theorem carries_refineWithin (hg : g.WellFormed) (hh : h.WellFormed)
    (hp : ColoredGraph.Relabels p g h) (bound : Nat) (hc : Carries p colors others) :
    Carries p (g.refiner.refineWithin bound colors) (h.refiner.refineWithin bound others) := by
  induction bound generalizing colors others with
  | zero => exact carries_recolor hg hh hp hc
  | succ bound ih =>
      have hrecolor := carries_recolor hg hh hp hc
      rw [refineWithin, refineWithin, hrecolor.colorCount_eq, hc.colorCount_eq]
      split
      · exact hrecolor
      · exact ih hrecolor

theorem carries_refine (hg : g.WellFormed) (hh : h.WellFormed)
    (hp : ColoredGraph.Relabels p g h) (hc : Carries p colors others) :
    Carries p (g.refiner.refine colors) (h.refiner.refine others) := by
  have hsize : h.refiner.graph.size = g.refiner.graph.size :=
    hp.image_size_eq.trans hp.size_eq.symm
  rw [refine, refine, hsize]
  exact carries_refineWithin hg hh hp _ hc

theorem initial_eq (g : ColoredGraph) :
    g.refiner.initial = g.refiner.refine (ranked compare g.size g.color) := by
  have hcolors : g.colors.toList = (List.range g.size).map g.color := toList_eq_map g.colors
  rw [initial, ranked, ← hcolors]
  rfl

theorem carries_initial (hg : g.WellFormed) (hh : h.WellFormed)
    (hp : ColoredGraph.Relabels p g h) :
    Carries p g.refiner.initial h.refiner.initial := by
  rw [initial_eq, initial_eq, hp.size_eq, hp.image_size_eq]
  exact carries_refine hg hh hp (carries_ranked compare fun i _ => hp.color_eq i)

theorem refiner?_eq (hg : g.WellFormed) : g.refiner? = some g.refiner :=
  if_pos hg.isClosed

/-- The vertices with one of them told apart from the rest of its cell. -/
def split (colors : Coloring) (v : Nat) : Coloring :=
  ranked comparePairs colors.size fun i => (colors.getD i 0, if i = v then 0 else 1)

theorem individualize_eq (r : Refiner) (colors : Coloring) (v : Nat) :
    r.individualize colors v = r.refine (split colors v) := by
  have hkeys : (colors.toList.zipIdx.map fun entry => (entry.1, if entry.2 = v then 0 else 1)) =
      (List.range colors.size).map fun i => (colors.getD i 0, if i = v then 0 else 1) := by
    apply List.ext_getElem
    · simp
    · intro i hi hi'
      have hsize : i < colors.size := by simpa using hi'
      simp [Array.getD_eq_getD_getElem?, hsize]
  rw [split, ranked, ← hkeys]
  rfl

theorem carries_split (hc : Carries p colors others) (v : Nat) :
    Carries p (split colors v) (split others (p v)) := by
  rw [split, split, hc.size_eq, hc.image_size_eq]
  apply carries_ranked
  intro i hi
  rw [hc.getD_eq i hi]
  congr 1
  by_cases hiv : i = v
  · rw [if_pos hiv, if_pos (congrArg p hiv)]
  · rw [if_neg hiv, if_neg fun heq => hiv (p.app_injective heq)]

theorem carries_individualize (hg : g.WellFormed) (hh : h.WellFormed)
    (hp : ColoredGraph.Relabels p g h) (hc : Carries p colors others) (v : Nat) :
    Carries p (g.refiner.individualize colors v) (h.refiner.individualize others (p v)) := by
  rw [individualize_eq, individualize_eq]
  exact carries_refine hg hh hp (carries_split hc v)

/-! ## Splitting cells -/

theorem recolor_isDense (r : Refiner) (colors : Coloring) : (r.recolor colors).IsDense :=
  ranked_isDense Signature.compare _ _

theorem size_recolor (r : Refiner) (colors : Coloring) :
    (r.recolor colors).size = r.graph.size :=
  size_ranked Signature.compare _ _

theorem recolor_isBelow (hsize : colors.size = r.graph.size) :
    (r.recolor colors).IsBelow colors where
  size_eq := (size_recolor r colors).trans hsize.symm
  lt := by
    intro i j hi hj hlt
    rw [hsize] at hi hj
    rw [recolor_eq_ranked, ranked_lt_iff Signature.compare hi hj, Signature.compare, compareLex]
    have hcolor : compareOn Signature.color (r.signature colors i) (r.signature colors j) = .lt :=
      Nat.compare_eq_lt.mpr hlt
    rw [hcolor, Ordering.lt_then]

/-- Refining splits cells in order and leaves no color out. -/
theorem refineWithin_spec (r : Refiner) (bound : Nat) (hsize : colors.size = r.graph.size) :
    (r.refineWithin bound colors).IsBelow colors ∧ (r.refineWithin bound colors).IsDense := by
  induction bound generalizing colors with
  | zero => exact ⟨recolor_isBelow hsize, recolor_isDense r colors⟩
  | succ bound ih =>
      rw [refineWithin]
      split
      · exact ⟨recolor_isBelow hsize, recolor_isDense r colors⟩
      · obtain ⟨hbelow, hdense⟩ := ih (size_recolor r colors)
        exact ⟨hbelow.trans (recolor_isBelow hsize), hdense⟩

theorem refine_isBelow (hsize : colors.size = r.graph.size) :
    (r.refine colors).IsBelow colors :=
  (refineWithin_spec r _ hsize).1

theorem refine_isDense (hsize : colors.size = r.graph.size) : (r.refine colors).IsDense :=
  (refineWithin_spec r _ hsize).2

theorem size_initial (g : ColoredGraph) : g.refiner.initial.size = g.size := by
  have hsize : (ranked compare g.size g.color).size = g.refiner.graph.size :=
    size_ranked compare _ _
  rw [initial_eq]
  exact (refine_isBelow hsize).size_eq.trans hsize

theorem initial_isDense (g : ColoredGraph) : g.refiner.initial.IsDense := by
  rw [initial_eq]
  exact refine_isDense (size_ranked compare _ _)

@[simp] theorem size_split (colors : Coloring) (v : Nat) : (split colors v).size = colors.size :=
  size_ranked comparePairs _ _

theorem split_isBelow (colors : Coloring) (v : Nat) : (split colors v).IsBelow colors where
  size_eq := size_split colors v
  lt := by
    intro i j hi hj hlt
    rw [split, ranked_lt_iff comparePairs hi hj, comparePairs, compareLex]
    have hcolor : compareOn Prod.fst (colors.getD i 0, if i = v then 0 else 1)
        (colors.getD j 0, if j = v then 0 else 1) = .lt := Nat.compare_eq_lt.mpr hlt
    rw [hcolor, Ordering.lt_then]

/-- The vertex that is told apart comes before the rest of its cell. -/
theorem split_lt (hv : v < colors.size) (hj : j < colors.size) (hjv : j ≠ v)
    (hcolor : colors.getD j 0 = colors.getD v 0) :
    (split colors v).getD v 0 < (split colors v).getD j 0 := by
  have hfirst : compare 0 1 = .lt := Nat.compare_eq_lt.mpr Nat.zero_lt_one
  rw [split, ranked_lt_iff comparePairs hv hj, if_pos rfl, if_neg hjv, hcolor]
  simp [comparePairs, compareLex, compareOn, hfirst]

theorem individualize_isBelow_split (hsize : colors.size = r.graph.size) (v : Nat) :
    (r.individualize colors v).IsBelow (split colors v) := by
  rw [individualize_eq]
  exact refine_isBelow ((size_split colors v).trans hsize)

theorem individualize_isBelow (hsize : colors.size = r.graph.size) (v : Nat) :
    (r.individualize colors v).IsBelow colors :=
  (individualize_isBelow_split hsize v).trans (split_isBelow colors v)

theorem individualize_isDense (hsize : colors.size = r.graph.size) (v : Nat) :
    (r.individualize colors v).IsDense := by
  rw [individualize_eq]
  exact refine_isDense ((size_split colors v).trans hsize)

theorem size_individualize (hsize : colors.size = r.graph.size) (v : Nat) :
    (r.individualize colors v).size = r.graph.size :=
  (individualize_isBelow hsize v).size_eq.trans hsize

theorem individualize_lt (hsize : colors.size = r.graph.size) (hv : v < colors.size)
    (hj : j < colors.size) (hjv : j ≠ v) (hcolor : colors.getD j 0 = colors.getD v 0) :
    (r.individualize colors v).getD v 0 < (r.individualize colors v).getD j 0 := by
  apply (individualize_isBelow_split hsize v).lt
  · rwa [size_split]
  · rwa [size_split]
  · exact split_lt hv hj hjv hcolor

/-- Individualizing a vertex of the target cell adds a color. -/
theorem colorCount_lt_individualize (hsize : colors.size = r.graph.size)
    (hdense : colors.IsDense) {target : List Nat} (htarget : colors.targetCell? = some target)
    (hv : v ∈ target) : colors.colorCount < (r.individualize colors v).colorCount := by
  obtain ⟨c, rfl, x, y, rest, hcell⟩ := Coloring.targetCell?_eq_some htarget
  obtain ⟨hvlt, hvc⟩ := mem_cell.mp hv
  have hother : ∃ j ∈ colors.cell c, j ≠ v := by
    have hnodup := colors.nodup_cell c
    rw [hcell] at hnodup ⊢
    by_cases hxv : x = v
    · refine ⟨y, by simp, ?_⟩
      rintro rfl
      simp [hxv] at hnodup
    · exact ⟨x, by simp, hxv⟩
  obtain ⟨j, hj, hjv⟩ := hother
  obtain ⟨hjlt, hjc⟩ := mem_cell.mp hj
  exact (individualize_isBelow hsize v).colorCount_lt hdense hvlt hjlt (hvc.trans hjc.symm)
    (individualize_lt hsize hvlt hjlt hjv (hjc.trans hvc.symm))

end Refiner
end ProcessorSymmetry

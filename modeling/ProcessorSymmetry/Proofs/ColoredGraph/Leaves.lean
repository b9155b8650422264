import ProcessorSymmetry.ColoredGraph.Automorphisms
import ProcessorSymmetry.Proofs.ColoredGraph.Refinement

/-!
# Leaves of the search

A leaf is a discrete coloring without gaps.  Two leaves determine a permutation,
and that permutation already says what happens at the nodes above: it keeps the
colors of a common node, and it takes the vertex that was individualized on the
one side to the vertex that was individualized on the other side.
-/

namespace ProcessorSymmetry

namespace Coloring

variable {n : Nat} {p : Perm n} {leaf final fine colors others : Coloring} {v w : Nat}

/-- A coloring below `colors` in which the vertices are numbered. -/
structure IsLeafOf (leaf colors : Coloring) : Prop extends IsBelow leaf colors where
  dense : leaf.IsDense
  discrete : leaf.IsDiscrete

theorem IsLeafOf.trans (h : leaf.IsLeafOf fine) (h' : fine.IsBelow colors) :
    leaf.IsLeafOf colors :=
  ⟨h.toIsBelow.trans h', h.dense, h.discrete⟩

theorem IsDiscrete.nodup_toList (h : colors.IsDiscrete) : colors.toList.Nodup := by
  rw [toList_eq_map]
  apply List.Nodup.map_on _ List.nodup_range
  intro i hi j hj hij
  exact h i j (List.mem_range.mp hi) (List.mem_range.mp hj) hij

theorem IsDiscrete.toList_subperm (h : colors.IsDiscrete) :
    colors.toList.Subperm (List.range colors.colorCount) := by
  apply List.subperm_of_subset h.nodup_toList
  intro c hc
  rw [toList_eq_map] at hc
  obtain ⟨i, hi, rfl⟩ := List.mem_map.mp hc
  exact List.mem_range.mpr (getD_lt_colorCount (List.mem_range.mp hi))

/-- In a discrete coloring there are as many colors as vertices. -/
theorem IsDiscrete.size_le_colorCount (h : colors.IsDiscrete) :
    colors.size ≤ colors.colorCount := by
  simpa using h.toList_subperm.length_le

/-- A leaf numbers its vertices. -/
theorem IsDense.toList_perm_range (hdense : colors.IsDense) (hdiscrete : colors.IsDiscrete) :
    colors.toList.Perm (List.range colors.size) := by
  have hcount : colors.colorCount = colors.size :=
    Nat.le_antisymm hdense.colorCount_le_size hdiscrete.size_le_colorCount
  have hsub := hdiscrete.toList_subperm
  rw [hcount] at hsub
  exact hsub.perm_of_length_le (by simp)

/-- Corresponding leaves below one node come from a permutation that keeps the
colors of the node. -/
theorem Carries.carries_of_leaves (hp : Carries p final leaf) (hfinal : final.IsLeafOf colors)
    (hleaf : leaf.IsLeafOf colors) : Carries p colors colors := by
  have hsize : colors.size = n := hfinal.size_eq.symm.trans hp.size_eq
  refine ⟨hsize, hsize, ?_⟩
  intro i hi
  have hpi : p i < colors.size := hsize ▸ p.app_lt hi
  have hlt : ∀ c, colors.getD (p i) 0 < c ↔ colors.getD i 0 < c := by
    intro c
    rw [← hleaf.lt_countBelow_iff hleaf.dense hleaf.discrete hpi, hp.getD_eq i hi,
      hfinal.lt_countBelow_iff hfinal.dense hfinal.discrete (hsize ▸ hi)]
  apply Nat.le_antisymm
  · exact Nat.le_of_lt_succ ((hlt _).mpr (Nat.lt_succ_self _))
  · exact Nat.le_of_lt_succ ((hlt _).mp (Nat.lt_succ_self _))

/-- A vertex that comes first in its cell is sent to the vertex that comes first
there on the other side. -/
theorem Carries.app_eq_of_leaves (hp : Carries p final leaf) (hfinal : final.IsLeafOf colors)
    (hleaf : leaf.IsLeafOf colors) (hv : v < n) (hw : w < n)
    (hvw : colors.getD v 0 = colors.getD w 0)
    (hfirst : ∀ j < n, j ≠ v → colors.getD j 0 = colors.getD v 0 →
      final.getD v 0 < final.getD j 0)
    (hfirst' : ∀ j < n, j ≠ w → colors.getD j 0 = colors.getD w 0 →
      leaf.getD w 0 < leaf.getD j 0) : p v = w := by
  have hsize : colors.size = n := hfinal.size_eq.symm.trans hp.size_eq
  apply hleaf.discrete
  · exact hp.image_size_eq ▸ p.app_lt hv
  · exact hp.image_size_eq ▸ hw
  · rw [hp.getD_eq v hv, hfinal.getD_eq_countBelow hfinal.dense hfinal.discrete (hsize ▸ hv)
      (hsize ▸ hfirst), hvw, hleaf.getD_eq_countBelow hleaf.dense hleaf.discrete (hsize ▸ hw)
      (hsize ▸ hfirst')]

/-- A permutation that keeps a discrete coloring is the identity. -/
theorem Carries.eq_one (hp : Carries p colors colors) (h : colors.IsDiscrete) : p = 1 := by
  apply Perm.ext
  intro i hi
  rw [Perm.one_app]
  apply h
  · exact hp.size_eq ▸ p.app_lt hi
  · exact hp.size_eq ▸ hi
  · exact hp.getD_eq i hi

end Coloring

namespace ColoredGraph

open Coloring

variable {g : ColoredGraph} {reference colors : Coloring}

theorem permOfImages?_eq_some_iff {images : List Nat} {p : Perm g.size} :
    g.permOfImages? images = some p ↔ p.toList = images := by
  rw [permOfImages?, Option.bind_eq_some_iff]
  constructor
  · rintro ⟨q, hq, hp⟩
    have hok : Perm.ofImages images = .ok q := by
      cases hmade : Perm.ofImages images with
      | error cause =>
          rw [hmade] at hq
          cases hq
      | ok made =>
          rw [hmade] at hq
          rw [Option.some.inj hq]
    obtain ⟨-, heq⟩ := Perm.ofDegree?_eq_some_iff.mp hp
    rw [← heq, Perm.ofImages_eq_ok_iff.mp hok]
  · rintro rfl
    have hlength : g.size = p.toList.length := p.length_toList.symm
    have hcast : (hlength ▸ p : Perm p.toList.length).toList = p.toList := by
      generalize p.toList.length = m at hlength
      subst hlength
      rfl
    refine ⟨hlength ▸ p, ?_, Perm.ofDegree?_eq_some_iff.mpr ⟨hlength.symm, hcast⟩⟩
    rw [Perm.ofImages_eq_ok_iff.mpr hcast]
    rfl

/-! ## From leaf to leaf -/

/-- In a leaf the vertex of a color is found again. -/
theorem verticesByColor_getD (hdense : colors.IsDense) (hdiscrete : colors.IsDiscrete) {i : Nat}
    (hi : i < colors.size) : (verticesByColor colors).getD (colors.getD i 0) 0 = i := by
  have hnodup : (colors.toList.zipIdx.map Prod.fst).Nodup := by
    rw [List.zipIdx_map_fst]
    exact hdiscrete.nodup_toList
  have hmem : (colors.getD i 0, i) ∈ colors.toList.zipIdx := by
    rw [List.mk_mem_zipIdx_iff_getElem?, toList_eq_map]
    simp [hi]
  have hcolor : colors.getD i 0 < (Array.replicate colors.size 0 : Array Nat).size := by
    rw [Array.size_replicate]
    exact Nat.lt_of_lt_of_le (getD_lt_colorCount hi) hdense.colorCount_le_size
  rw [verticesByColor, Array.getD_eq_getD_getElem?, getElem?_foldl_setIfInBounds _ _ hnodup,
    (lookup_eq_some_iff_mem hnodup).mpr hmem, Array.getElem?_eq_getElem hcolor, Option.map_some,
    Option.getD_some, Option.getD_some]

/-- The map from one leaf to another one is the permutation that carries the
first to the second. -/
theorem leafMap?_eq_some_iff {p : Perm g.size} (hreference : reference.IsDense)
    (hsize : reference.size = g.size) (hdense : colors.IsDense) (hdiscrete : colors.IsDiscrete)
    (hsize' : colors.size = g.size) :
    g.leafMap? reference colors = some p ↔ Carries p reference colors := by
  rw [leafMap?, permOfImages?_eq_some_iff, toList_eq_map reference, List.map_map, hsize,
    Perm.toList, List.map_inj_left]
  constructor
  · intro h
    refine ⟨hsize, hsize', ?_⟩
    intro i hi
    have hi' : i < reference.size := hsize.symm ▸ hi
    have hcolor : reference.getD i 0 < colors.colorCount :=
      calc
        reference.getD i 0 < reference.colorCount := getD_lt_colorCount hi'
        _ ≤ reference.size := hreference.colorCount_le_size
        _ = colors.size := hsize.trans hsize'.symm
        _ ≤ colors.colorCount := hdiscrete.size_le_colorCount
    obtain ⟨j, hj, hji⟩ := hdense.exists_of_lt hcolor
    have hvertex := verticesByColor_getD hdense hdiscrete hj
    rw [hji] at hvertex
    rw [h i (List.mem_range.mpr hi), Function.comp_apply, hvertex, hji]
  · intro h i hi
    rw [List.mem_range] at hi
    have hpi : p i < colors.size := hsize'.symm ▸ p.app_lt hi
    rw [Function.comp_apply, ← h.getD_eq i hi, verticesByColor_getD hdense hdiscrete hpi]

end ColoredGraph
end ProcessorSymmetry

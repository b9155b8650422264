import ProcessorSymmetry.Proofs.ColoredGraph.Coloring
import ProcessorSymmetry.Proofs.ColoredGraph.Edges
import ProcessorSymmetry.Proofs.Perm.Images

/-!
# Refinement and relabelling

Refining colors looks at a graph up to the names of its vertices only.  If the
vertices of a graph are renamed and a coloring is carried along, then so are its
cells, its refinements, and what individualizing a vertex makes of it.
-/

namespace ProcessorSymmetry

namespace Coloring

variable {n : Nat} {p : Perm n} {colors others : Coloring}

/-- The vertex `p i` has the color in `others` that `i` has in `colors`. -/
structure Carries (p : Perm n) (colors others : Coloring) : Prop where
  size_eq : colors.size = n
  image_size_eq : others.size = n
  getD_eq : ∀ i < n, others.getD (p i) 0 = colors.getD i 0

namespace Carries

theorem inv (hp : Carries p colors others) : Carries p⁻¹ others colors where
  size_eq := hp.image_size_eq
  image_size_eq := hp.size_eq
  getD_eq i hi := by rw [← hp.getD_eq _ (p⁻¹.app_lt hi), Perm.app_inv_app]

theorem toList_perm (h : Carries p colors others) : others.toList.Perm colors.toList := by
  rw [toList_eq_map others, toList_eq_map colors, h.size_eq, h.image_size_eq]
  have hmap : (List.range n).map (colors.getD · 0) = p.toList.map (others.getD · 0) := by
    rw [Perm.toList, List.map_map]
    apply List.map_congr_left
    intro i hi
    exact (h.getD_eq i (List.mem_range.mp hi)).symm
  rw [hmap]
  exact p.toList_perm_range.symm.map _

theorem colorCount_eq (h : Carries p colors others) : others.colorCount = colors.colorCount := by
  have hle : ∀ {p : Perm n} {colors others : Coloring}, Carries p colors others →
      colors.colorCount ≤ others.colorCount := by
    intro p colors others h
    rw [colorCount_le_iff]
    intro i hi
    rw [h.size_eq] at hi
    rw [← h.getD_eq i hi]
    exact getD_lt_colorCount (h.image_size_eq ▸ p.app_lt hi)
  exact Nat.le_antisymm (hle h.inv) (hle h)

theorem length_cell_eq (h : Carries p colors others) (c : Nat) :
    (others.cell c).length = (colors.cell c).length := by
  rw [← count_toList, ← count_toList, h.toList_perm.count_eq]

theorem cellSizes_eq (h : Carries p colors others) : others.cellSizes = colors.cellSizes := by
  rw [Coloring.cellSizes_eq, Coloring.cellSizes_eq, h.colorCount_eq]
  exact List.map_congr_left fun c _ => h.length_cell_eq c

theorem mem_cell_iff (h : Carries p colors others) {i c : Nat} :
    p i ∈ others.cell c ↔ i ∈ colors.cell c := by
  rw [mem_cell, mem_cell, h.size_eq, h.image_size_eq, p.app_lt_iff]
  refine and_congr_right fun hi => ?_
  rw [h.getD_eq i hi]

/-- The target cell is carried to the target cell. -/
theorem targetCell?_eq_some (h : Carries p colors others) {target : List Nat}
    (htarget : colors.targetCell? = some target) :
    ∃ image, others.targetCell? = some image ∧ ∀ i, p i ∈ image ↔ i ∈ target := by
  obtain ⟨c, rfl, hmany, hfew⟩ := targetCell?_eq_some_iff.mp htarget
  refine ⟨others.cell c, targetCell?_eq_some_iff.mpr ⟨c, rfl, ?_, ?_⟩, ?_⟩
  · rwa [h.length_cell_eq]
  · intro d hd
    rw [h.length_cell_eq]
    exact hfew d hd
  · intro i
    exact h.mem_cell_iff

theorem targetCell?_eq_none (h : Carries p colors others)
    (hnone : colors.targetCell? = none) : others.targetCell? = none := by
  cases htarget : others.targetCell? with
  | none => rfl
  | some image =>
      obtain ⟨target, htarget', -⟩ := h.inv.targetCell?_eq_some htarget
      rw [hnone] at htarget'
      cases htarget'

end Carries

/-! ## Ranked keys -/

variable {α : Type} (cmp : α → α → Ordering) [Std.TransCmp cmp] [Std.LawfulEqCmp cmp]

/-- Vertices colored by the ranks of their keys. -/
def ranked (n : Nat) (key : Nat → α) : Coloring :=
  (denseRanks cmp ((List.range n).map key)).toArray

variable {key : Nat → α}

theorem mem_keys {i : Nat} (hi : i < n) : key i ∈ (List.range n).map key :=
  List.mem_map_of_mem (List.mem_range.mpr hi)

omit [Std.TransCmp cmp] [Std.LawfulEqCmp cmp] in
@[simp] theorem size_ranked (n : Nat) (key : Nat → α) : (ranked cmp n key).size = n := by
  simp [ranked, denseRanks]

omit [Std.TransCmp cmp] [Std.LawfulEqCmp cmp] in
theorem getD_ranked {i : Nat} (hi : i < n) :
    (ranked cmp n key).getD i 0 = rank cmp ((List.range n).map key) (key i) := by
  simp [ranked, denseRanks_eq, Array.getD_eq_getD_getElem?, hi]

theorem ranked_lt_iff {i j : Nat} (hi : i < n) (hj : j < n) :
    (ranked cmp n key).getD i 0 < (ranked cmp n key).getD j 0 ↔
      cmp (key i) (key j) = .lt := by
  rw [getD_ranked cmp hi, getD_ranked cmp hj, rank_lt_rank_iff cmp (mem_keys hi) (mem_keys hj)]

theorem ranked_eq_iff {i j : Nat} (hi : i < n) (hj : j < n) :
    (ranked cmp n key).getD i 0 = (ranked cmp n key).getD j 0 ↔ key i = key j := by
  rw [getD_ranked cmp hi, getD_ranked cmp hj, rank_inj cmp (mem_keys hi) (mem_keys hj)]

theorem ranked_isDense (n : Nat) (key : Nat → α) : (ranked cmp n key).IsDense := by
  intro i hi c hc
  rw [size_ranked] at hi
  rw [getD_ranked cmp hi] at hc
  obtain ⟨b, hb, hrank⟩ := exists_rank_eq cmp (mem_keys hi) hc
  obtain ⟨j, hj, rfl⟩ := List.mem_map.mp hb
  rw [List.mem_range] at hj
  exact ⟨j, by rwa [size_ranked], by rw [getD_ranked cmp hj, hrank]⟩

/-- Ranks are carried along with the keys. -/
theorem carries_ranked {image : Nat → α} (h : ∀ i < n, image (p i) = key i) :
    Carries p (ranked cmp n key) (ranked cmp n image) where
  size_eq := size_ranked cmp n key
  image_size_eq := size_ranked cmp n image
  getD_eq := by
    intro i hi
    rw [getD_ranked cmp (p.app_lt hi), getD_ranked cmp hi, h i hi]
    apply rank_congr
    intro a
    rw [List.mem_map, List.mem_map]
    constructor
    · rintro ⟨j, hj, rfl⟩
      have hj' := p⁻¹.app_lt (List.mem_range.mp hj)
      exact ⟨p⁻¹ j, List.mem_range.mpr hj', by rw [← h _ hj', Perm.app_inv_app]⟩
    · rintro ⟨j, hj, rfl⟩
      rw [List.mem_range] at hj
      exact ⟨p j, List.mem_range.mpr (p.app_lt hj), h j hj⟩

end Coloring
end ProcessorSymmetry

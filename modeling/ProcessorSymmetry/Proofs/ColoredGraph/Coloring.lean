import Mathlib.Data.Finset.Card
import Mathlib.Data.List.Perm.Subperm
import ProcessorSymmetry.ColoredGraph.Refinement
import ProcessorSymmetry.Proofs.Ranks

/-!
# Colorings and their cells

The vertices of one color form a cell.  A coloring is dense if no color is left
out, and it is discrete if every vertex has a color of its own.  One coloring is
below another one if it splits cells without changing their order; this is what
individualizing and refining do.
-/

namespace ProcessorSymmetry
namespace Coloring

variable {colors fine middle coarse : Coloring} {i j v : Nat}

/-! ## Counting colors -/

theorem foldl_max_le_iff (entries : List Nat) (start k : Nat) :
    entries.foldl (fun count c => max count (c + 1)) start ≤ k ↔
      start ≤ k ∧ ∀ c ∈ entries, c < k := by
  induction entries generalizing start with
  | nil => simp
  | cons c rest ih =>
      rw [List.foldl_cons, ih, Nat.max_le, List.forall_mem_cons, and_assoc]
      rfl

theorem colorCount_le_iff {k : Nat} :
    colors.colorCount ≤ k ↔ ∀ i < colors.size, colors.getD i 0 < k := by
  rw [colorCount, ← Array.foldl_toList, foldl_max_le_iff]
  constructor
  · rintro ⟨-, h⟩ i hi
    rw [Array.getD_eq_getD_getElem?, Array.getElem?_eq_getElem hi, Option.getD_some]
    exact h _ (by simp)
  · intro h
    refine ⟨Nat.zero_le k, ?_⟩
    intro c hc
    obtain ⟨i, hi, rfl⟩ := List.getElem_of_mem hc
    rw [Array.length_toList] at hi
    simpa [Array.getD_eq_getD_getElem?, hi] using h i hi

theorem getD_lt_colorCount (hi : i < colors.size) :
    colors.getD i 0 < colors.colorCount :=
  colorCount_le_iff.mp (Nat.le_refl _) i hi

theorem toList_eq_map (colors : Coloring) :
    colors.toList = (List.range colors.size).map (colors.getD · 0) := by
  apply List.ext_getElem
  · simp
  · intro i hi hi'
    rw [Array.length_toList] at hi
    simp [Array.getD_eq_getD_getElem?, hi]

theorem ext_getD {others : Coloring} (hsize : colors.size = others.size)
    (h : ∀ i < others.size, colors.getD i 0 = others.getD i 0) : colors = others := by
  apply Array.ext hsize
  intro i hi hi'
  simpa [Array.getD_eq_getD_getElem?, hi, hi'] using h i hi'

/-! ## Cells -/

/-- The vertices of a color. -/
def cell (colors : Coloring) (c : Nat) : List Nat :=
  (List.range colors.size).filter fun i => colors.getD i 0 == c

theorem mem_cell {c : Nat} : i ∈ colors.cell c ↔ i < colors.size ∧ colors.getD i 0 = c := by
  simp [cell]

theorem count_toList (colors : Coloring) (c : Nat) :
    colors.toList.count c = (colors.cell c).length := by
  rw [toList_eq_map, List.count, List.countP_map, List.countP_eq_length_filter]
  rfl

theorem foldl_modify_getElem? (entries : List Nat) (sizes : Array Nat) (k : Nat) :
    (entries.foldl (fun sizes c => sizes.modify c (· + 1)) sizes)[k]? =
      sizes[k]?.map (· + entries.count k) := by
  induction entries generalizing sizes with
  | nil => simp
  | cons c rest ih =>
      rw [List.foldl_cons, ih, Array.getElem?_modify, List.count_cons]
      by_cases hck : c = k
      · subst hck
        cases sizes[c]? with
        | none => simp
        | some size =>
            simp only [if_true, Option.map_some, beq_self_eq_true, Option.some.injEq]
            omega
      · simp [hck]

theorem cellSizes_eq (colors : Coloring) :
    colors.cellSizes =
      (List.range colors.colorCount).map fun c => (colors.cell c).length := by
  apply List.ext_getElem?
  intro k
  rw [cellSizes, Array.getElem?_toList, ← Array.foldl_toList, foldl_modify_getElem?,
    count_toList, List.getElem?_map]
  by_cases hk : k < colors.colorCount
  · simp [hk]
  · simp [hk]

/-- The lowest color that several vertices share. -/
theorem targetCell?_eq_some_iff {target : List Nat} :
    colors.targetCell? = some target ↔ ∃ c, target = colors.cell c ∧
      1 < (colors.cell c).length ∧ ∀ d < c, (colors.cell d).length ≤ 1 := by
  have hget : ∀ {c : Nat}, (colors.cell c).length ≠ 0 → c < colors.colorCount := by
    intro c hc
    obtain ⟨i, hi⟩ := List.exists_mem_of_length_pos (Nat.pos_of_ne_zero hc)
    obtain ⟨hlt, rfl⟩ := mem_cell.mp hi
    exact getD_lt_colorCount hlt
  rw [targetCell?, Option.map_eq_some_iff, cellSizes_eq]
  constructor
  · rintro ⟨c, hc, rfl⟩
    obtain ⟨hlt, hmany, hfew⟩ := List.findIdx?_eq_some_iff_getElem.mp hc
    refine ⟨c, rfl, by simpa using hmany, ?_⟩
    intro d hd
    simpa using hfew d hd
  · rintro ⟨c, rfl, hmany, hfew⟩
    refine ⟨c, List.findIdx?_eq_some_iff_getElem.mpr ?_, rfl⟩
    have hlt : c < colors.colorCount := hget (by omega)
    refine ⟨by simpa using hlt, by simpa using hmany, ?_⟩
    intro d hd
    simpa using hfew d hd

/-- The target cell has a first vertex and others with the same color. -/
theorem targetCell?_eq_some {target : List Nat} (h : colors.targetCell? = some target) :
    ∃ c, target = colors.cell c ∧ ∃ v w rest, target = v :: w :: rest := by
  obtain ⟨c, rfl, hmany, -⟩ := targetCell?_eq_some_iff.mp h
  refine ⟨c, rfl, ?_⟩
  cases hcell : colors.cell c with
  | nil => simp [hcell] at hmany
  | cons v others =>
      cases others with
      | nil => simp [hcell] at hmany
      | cons w rest => exact ⟨v, w, rest, rfl⟩

/-- Every vertex has a color of its own. -/
def IsDiscrete (colors : Coloring) : Prop :=
  ∀ i j, i < colors.size → j < colors.size → colors.getD i 0 = colors.getD j 0 → i = j

theorem nodup_cell (colors : Coloring) (c : Nat) : (colors.cell c).Nodup :=
  List.nodup_range.filter _

theorem targetCell?_eq_none_iff : colors.targetCell? = none ↔ colors.IsDiscrete := by
  constructor
  · intro hnone i j hi hj hij
    by_contra hne
    -- The lowest shared color would be the target.
    have hshared : ∃ c, 1 < (colors.cell c).length := by
      refine ⟨colors.getD j 0, ?_⟩
      have hsub : [i, j].Subperm (colors.cell (colors.getD j 0)) := by
        apply List.subperm_of_subset (by simpa using hne)
        intro k hk
        rw [List.mem_cons, List.mem_singleton] at hk
        rcases hk with rfl | rfl
        · exact mem_cell.mpr ⟨hi, hij⟩
        · exact mem_cell.mpr ⟨hj, rfl⟩
      exact hsub.length_le
    classical
    have htarget := targetCell?_eq_some_iff.mpr ⟨Nat.find hshared, rfl, Nat.find_spec hshared,
      fun d hd => Nat.not_lt.mp (Nat.find_min hshared hd)⟩
    rw [hnone] at htarget
    cases htarget
  · intro hdiscrete
    cases htarget : colors.targetCell? with
    | none => rfl
    | some target =>
        obtain ⟨c, rfl, v, w, rest, hcell⟩ := targetCell?_eq_some htarget
        obtain ⟨hv, hvc⟩ := mem_cell.mp (hcell ▸ List.mem_cons_self (a := v))
        obtain ⟨hw, hwc⟩ := mem_cell.mp
          (hcell ▸ List.mem_cons_of_mem v (List.mem_cons_self (a := w)))
        have hnodup := colors.nodup_cell c
        rw [hcell, hdiscrete v w hv hw (hvc.trans hwc.symm)] at hnodup
        simp at hnodup

/-! ## Dense colorings -/

/-- No color below a color that occurs is left out. -/
def IsDense (colors : Coloring) : Prop :=
  ∀ i < colors.size, ∀ c ≤ colors.getD i 0, ∃ j < colors.size, colors.getD j 0 = c

theorem IsDense.exists_of_lt (h : colors.IsDense) {c : Nat} (hc : c < colors.colorCount) :
    ∃ i < colors.size, colors.getD i 0 = c := by
  have hsome : ∃ i < colors.size, c ≤ colors.getD i 0 := by
    by_contra hnone
    have hle : colors.colorCount ≤ c :=
      colorCount_le_iff.mpr fun i hi => Nat.lt_of_not_le fun hci => hnone ⟨i, hi, hci⟩
    exact absurd hc (Nat.not_lt.mpr hle)
  obtain ⟨i, hi, hci⟩ := hsome
  exact h i hi c hci

theorem IsDense.colorCount_le_size (h : colors.IsDense) : colors.colorCount ≤ colors.size := by
  have hsub : (List.range colors.colorCount).Subperm colors.toList := by
    apply List.subperm_of_subset List.nodup_range
    intro c hc
    obtain ⟨i, hi, rfl⟩ := h.exists_of_lt (List.mem_range.mp hc)
    rw [toList_eq_map]
    exact List.mem_map_of_mem (List.mem_range.mpr hi)
  simpa using hsub.length_le

/-- How many vertices have a color below `c`. -/
def countBelow (colors : Coloring) (c : Nat) : Nat :=
  ((Finset.range colors.size).filter fun i => colors.getD i 0 < c).card

/-- In a discrete coloring without gaps a color counts the vertices before its own. -/
theorem IsDense.countBelow_getD (h : colors.IsDense) (hdiscrete : colors.IsDiscrete)
    (hi : i < colors.size) : colors.countBelow (colors.getD i 0) = colors.getD i 0 := by
  have himage : ((Finset.range colors.size).filter fun j =>
      colors.getD j 0 < colors.getD i 0).image (colors.getD · 0) =
        Finset.range (colors.getD i 0) := by
    ext c
    simp only [Finset.mem_image, Finset.mem_filter, Finset.mem_range]
    constructor
    · rintro ⟨j, ⟨-, hlt⟩, rfl⟩
      exact hlt
    · intro hc
      obtain ⟨j, hj, rfl⟩ := h i hi c (Nat.le_of_lt hc)
      exact ⟨j, ⟨hj, hc⟩, rfl⟩
  have hcard := congrArg Finset.card himage
  rw [Finset.card_range, Finset.card_image_of_injOn] at hcard
  · exact hcard
  · intro j hj k hk hjk
    rw [Finset.mem_coe, Finset.mem_filter, Finset.mem_range] at hj hk
    exact hdiscrete j k hj.1 hk.1 hjk

/-! ## Splitting cells in order -/

/-- Cells are split, and their order is kept. -/
structure IsBelow (fine coarse : Coloring) : Prop where
  size_eq : fine.size = coarse.size
  lt : ∀ i j, i < coarse.size → j < coarse.size →
    coarse.getD i 0 < coarse.getD j 0 → fine.getD i 0 < fine.getD j 0

namespace IsBelow

theorem refl (colors : Coloring) : colors.IsBelow colors :=
  ⟨rfl, fun _ _ _ _ h => h⟩

theorem trans (h : fine.IsBelow middle) (h' : middle.IsBelow coarse) :
    fine.IsBelow coarse := by
  refine ⟨h.size_eq.trans h'.size_eq, ?_⟩
  intro i j hi hj hlt
  rw [← h'.size_eq] at hi hj
  exact h.lt i j hi hj (h'.lt i j (h'.size_eq ▸ hi) (h'.size_eq ▸ hj) hlt)

theorem eq (h : fine.IsBelow coarse) (hi : i < coarse.size) (hj : j < coarse.size)
    (hij : fine.getD i 0 = fine.getD j 0) : coarse.getD i 0 = coarse.getD j 0 := by
  rcases Nat.lt_trichotomy (coarse.getD i 0) (coarse.getD j 0) with hlt | heq | hgt
  · exact absurd hij (Nat.ne_of_lt (h.lt i j hi hj hlt))
  · exact heq
  · exact absurd hij.symm (Nat.ne_of_lt (h.lt j i hj hi hgt))

/-- Colors never decrease when cells are split. -/
theorem getD_le (h : fine.IsBelow coarse) (hdense : coarse.IsDense) (hi : i < coarse.size) :
    coarse.getD i 0 ≤ fine.getD i 0 := by
  induction hc : coarse.getD i 0 generalizing i with
  | zero => exact Nat.zero_le _
  | succ c ih =>
      obtain ⟨j, hj, hjc⟩ := hdense i hi c (by omega)
      have hlt := h.lt j i hj hi (by omega)
      have hle := ih hj hjc
      omega

/-- Splitting a cell makes room for a new color. -/
theorem colorCount_lt (h : fine.IsBelow coarse) (hdense : coarse.IsDense)
    (hi : i < coarse.size) (hj : j < coarse.size)
    (hij : coarse.getD i 0 = coarse.getD j 0) (hlt : fine.getD i 0 < fine.getD j 0) :
    coarse.colorCount < fine.colorCount := by
  -- From the split cell on, all colors have moved up.
  have hup : ∀ k < coarse.size, coarse.getD j 0 < coarse.getD k 0 →
      coarse.getD k 0 < fine.getD k 0 := by
    intro k hk hjk
    induction hc : coarse.getD k 0 generalizing k with
    | zero => omega
    | succ c ih =>
        have hle := h.getD_le hdense hi
        by_cases hcj : coarse.getD j 0 = c
        · have := h.lt j k hj hk hjk
          omega
        · obtain ⟨m, hm, hmc⟩ := hdense k hk c (by omega)
          have hmove := ih m hm (by omega) hmc
          have := h.lt m k hm hk (by omega)
          omega
  have hpos : 0 < coarse.colorCount := Nat.lt_of_le_of_lt (Nat.zero_le _) (getD_lt_colorCount hj)
  obtain ⟨k, hk, hkc⟩ := hdense.exists_of_lt (Nat.sub_lt hpos Nat.one_pos)
  have hjcount := getD_lt_colorCount hj
  rcases Nat.lt_or_ge (coarse.getD j 0) (coarse.getD k 0) with hjk | hkj
  · have := hup k hk hjk
    have : fine.getD k 0 < fine.colorCount := getD_lt_colorCount (h.size_eq ▸ hk)
    omega
  · have := h.getD_le hdense hi
    have : fine.getD j 0 < fine.colorCount := getD_lt_colorCount (h.size_eq ▸ hj)
    omega

/-- A leaf tells the cells above it apart by counting vertices. -/
theorem lt_countBelow_iff (h : fine.IsBelow coarse) (hdense : fine.IsDense)
    (hdiscrete : fine.IsDiscrete) (hi : i < coarse.size) {c : Nat} :
    fine.getD i 0 < coarse.countBelow c ↔ coarse.getD i 0 < c := by
  have hfine := hdense.countBelow_getD hdiscrete (h.size_eq ▸ hi)
  constructor
  · intro hlt
    by_contra hge
    have hle : coarse.countBelow c ≤ fine.countBelow (fine.getD i 0) := by
      rw [countBelow, countBelow, h.size_eq]
      apply Finset.card_le_card
      intro j hj
      rw [Finset.mem_filter, Finset.mem_range] at hj ⊢
      exact ⟨hj.1, h.lt j i hj.1 hi (by omega)⟩
    omega
  · intro hlt
    rw [← hfine, countBelow, countBelow, h.size_eq]
    apply Finset.card_lt_card
    rw [Finset.ssubset_iff_of_subset]
    · refine ⟨i, Finset.mem_filter.mpr ⟨Finset.mem_range.mpr hi, hlt⟩, ?_⟩
      exact fun hmem => Nat.lt_irrefl _ (Finset.mem_filter.mp hmem).2
    · intro j hj
      rw [Finset.mem_filter, Finset.mem_range] at hj ⊢
      refine ⟨hj.1, ?_⟩
      by_contra hge
      have := h.lt i j hi hj.1 (by omega)
      omega

/-- The first vertex of a cell has as many vertices before it as there are below its cell. -/
theorem getD_eq_countBelow (h : fine.IsBelow coarse) (hdense : fine.IsDense)
    (hdiscrete : fine.IsDiscrete) (hv : v < coarse.size)
    (hfirst : ∀ j < coarse.size, j ≠ v → coarse.getD j 0 = coarse.getD v 0 →
      fine.getD v 0 < fine.getD j 0) :
    fine.getD v 0 = coarse.countBelow (coarse.getD v 0) := by
  rw [← hdense.countBelow_getD hdiscrete (h.size_eq ▸ hv), countBelow, countBelow, h.size_eq]
  congr 1
  ext j
  rw [Finset.mem_filter, Finset.mem_filter, Finset.mem_range]
  refine and_congr_right fun hj => ?_
  constructor
  · intro hlt
    by_contra hge
    by_cases hjv : j = v
    · rw [hjv] at hlt
      exact Nat.lt_irrefl _ hlt
    · rcases (Nat.not_lt.mp hge).lt_or_eq with hvj | hvj
      · have := h.lt v j hv hj hvj
        omega
      · have := hfirst j hj hjv hvj.symm
        omega
  · exact h.lt j v hj hv

end IsBelow
end Coloring
end ProcessorSymmetry

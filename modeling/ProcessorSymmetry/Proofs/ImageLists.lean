import ProcessorSymmetry.Group.Product
import ProcessorSymmetry.Proofs.ColoredGraph.Search
import ProcessorSymmetry.Proofs.ColoredGraph.Stable
import ProcessorSymmetry.Proofs.Group.SymmetricChain

/-!
# Image lists that need no check

Permutations of blocks, the cycles of the symmetric group, the maps between leaves of
the search and the candidates of the trial are written down image by image.  Each of
these lists is a bijection of its domain, so that nothing is lost by not checking it.
-/

namespace ProcessorSymmetry

open Perm

/-! ## Blocks and cycles -/

namespace Perm

variable {k n : Nat}

/-- Where the points of blocks of `size` points go when the blocks move and places are kept. -/
def blockImages (q : Perm k) (size : Nat) : List Nat :=
  (List.range (k * size)).map fun x => q (x / size) * size + x % size

theorem toList_blocks (q : Perm k) (size : Nat) : (q.blocks size).toList = q.blockImages size :=
  List.map_congr_left fun _ hx => q.blocks_app (List.mem_range.mp hx)

/-- Blocks without places have no points, so that there is nothing to divide by zero. -/
theorem block_of_lt {size x : Nat} (hx : x < k * size) : 0 < size ∧ x / size < k := by
  have hsize : 0 < size := Nat.pos_of_mul_pos_left (Nat.zero_lt_of_lt hx)
  exact ⟨hsize, (Nat.div_lt_iff_lt_mul hsize).mpr hx⟩

/-- The cycle that moves every point from `i` on up by one, and the last one to `i`. -/
def rotationImages (n i : Nat) : List Nat :=
  (List.range n).map fun x => if x < i then x else if x + 1 = n then i else x + 1

theorem toList_rotation (n i : Nat) : (rotation n i).toList = rotationImages n i :=
  List.map_congr_left fun _ hx => rotation_app (List.mem_range.mp hx)

end Perm

/-! ## Leaves -/

namespace ColoredGraph

open Coloring Refiner

variable {g : ColoredGraph} {reference colors : Coloring}

theorem size_verticesByColor (colors : Coloring) : (verticesByColor colors).size = colors.size := by
  rw [verticesByColor]
  refine List.foldlRecOn (motive := fun vertices : Array Nat => vertices.size = colors.size)
    _ _ Array.size_replicate ?_
  intro vertices hsize pair _
  rwa [Array.size_setIfInBounds]

/-- The vertices of one leaf in the order of their colors in another one. -/
def leafImages (reference colors : Coloring) : List Nat :=
  reference.toList.map fun c => (verticesByColor colors).getD c 0

/-- Colors of a leaf lead back to its vertices, and two leaves have the same colors. -/
theorem leafImages_perm_range (hreference : reference.toList.Perm (List.range colors.size))
    (hdense : colors.IsDense) (hdiscrete : colors.IsDiscrete) :
    (leafImages reference colors).Perm (List.range colors.size) := by
  have hsame : reference.toList.Perm colors.toList :=
    hreference.trans (hdense.toList_perm_range hdiscrete).symm
  have hback : colors.toList.map (fun c => (verticesByColor colors).getD c 0) =
      List.range colors.size := by
    rw [toList_eq_map, List.map_map]
    refine (List.map_congr_left fun i hi => ?_).trans (List.map_id _)
    exact verticesByColor_getD hdense hdiscrete (List.mem_range.mp hi)
  exact hback ▸ hsame.map _

theorem isNode_of_mem_firstPath {r : Refiner} (hcolors : r.IsNode colors) (bound : Nat) :
    ∀ reference ∈ firstPath r bound colors, r.IsNode reference := by
  induction bound generalizing colors with
  | zero => simpa [firstPath] using hcolors
  | succ bound ih =>
      rw [firstPath]
      split
      · rename_i v _ _
        exact List.forall_mem_cons.mpr ⟨hcolors, ih (hcolors.individualize v)⟩
      · simpa using hcolors

theorem isNode_reached (g : ColoredGraph) (vertices : List Nat) :
    g.refiner.IsNode (g.reached vertices) := by
  induction vertices using List.reverseRecOn with
  | nil => exact isNode_initial g
  | append_singleton vertices v ih =>
      rw [reached_concat]
      exact ih.individualize v

/-! ## Candidates of the trial -/

/-- Images are moved from the unused vertices to the end of the list one by one. -/
theorem perm_of_mem_completions {missing : Nat} {images unused completed : List Nat}
    (hlength : unused.length = missing) (h : completed ∈ g.completions images missing unused) :
    completed.Perm (images ++ unused) := by
  induction missing generalizing images unused with
  | zero =>
      obtain rfl := List.length_eq_zero_iff.mp hlength
      rw [completions, List.mem_singleton] at h
      rw [h, List.append_nil]
  | succ missing ih =>
      rw [completions, List.mem_flatMap] at h
      obtain ⟨x, hx, hcompleted⟩ := h
      have hunused : x ∈ unused := List.mem_of_mem_filter hx
      have hrest : (unused.erase x).length = missing := by
        rw [List.length_erase_of_mem hunused, hlength, Nat.add_sub_cancel]
      have hmoved : (x :: unused.erase x).Perm unused := (List.perm_cons_erase hunused).symm
      have hlist := ih hrest hcompleted
      rw [List.append_assoc, List.singleton_append] at hlist
      exact hlist.trans (hmoved.append_left images)

end ColoredGraph

/-! ## All lists -/

open Coloring ColoredGraph in
/-- Blocks of points that a permutation moves as wholes, the cycles of the symmetric group,
any leaf beside a leaf of the first path with cells of the same sizes, and the candidates of
the trial give bijections, and on the way no division by zero and no color out of range
is met.  The permutations that are made have these images. -/
theorem isBijection_blockImages_rotationImages_leafImages :
    (∀ H K : PermGroup, ∀ q ∈ K.generators,
      (∀ x < K.degree * H.degree, 0 < H.degree ∧ x / H.degree < K.degree) ∧
      IsBijection (K.degree * H.degree) (q.blockImages H.degree) ∧
      ∃ p ∈ (PermGroup.wreathProduct H K).generators, p.toList = q.blockImages H.degree) ∧
    (∀ n i, i < n - 1 →
      IsBijection n (rotationImages n i) ∧ (rotation n i).toList = rotationImages n i ∧
      (2 < n - i → rotation n i ∈ (Chain.symmetricLevel n i).generators) ∧
      Chain.symmetricLevel n i ∈ (Chain.symmetric n).levels) ∧
    ∀ g : ColoredGraph,
      (∀ reference ∈ firstPath g.refiner g.size g.refiner.initial, ∀ vertices : List Nat,
        let colors := g.reached vertices
        colors.cellSizes = reference.cellSizes → colors.targetCell? = none →
          (∀ c ∈ colors.toList, c < colors.size) ∧
          (∀ c ∈ reference.toList, c < (verticesByColor colors).size) ∧
          IsBijection g.size (leafImages reference colors) ∧
          ∃ p, g.leafMap? reference colors = some p ∧ p.toList = leafImages reference colors) ∧
      ∀ images ∈ g.completions [] g.size (List.range g.size),
        IsBijection g.size images ∧ ∃ p, g.permOfImages? images = some p ∧ p.toList = images := by
  refine ⟨?blocks, ?cycles, fun g => ⟨?leaves, ?candidates⟩⟩
  case blocks =>
    intro H K q hq
    refine ⟨fun x => block_of_lt, ?_, ?_⟩
    · rw [← toList_blocks]
      exact isBijection_toList _
    · exact ⟨q.blocks H.degree, List.mem_append_right _ (List.mem_map_of_mem hq),
        toList_blocks q H.degree⟩
  case cycles =>
    intro n i hi
    refine ⟨?_, toList_rotation n i, ?_, List.mem_map_of_mem (List.mem_range.mpr hi)⟩
    · rw [← toList_rotation]
      exact isBijection_toList _
    · intro hmany
      rw [Chain.symmetricLevel, if_pos hmany]
      exact List.mem_cons_of_mem _ List.mem_cons_self
  case leaves =>
    intro reference hreference vertices colors hcells hnone
    have hpath := isNode_of_mem_firstPath (Refiner.isNode_initial g) g.size reference hreference
    have hnode := isNode_reached g vertices
    have hleaf := hnode.dense.toList_perm_range (targetCell?_eq_none_iff.mp hnone)
    have hfirst := hpath.dense.toList_perm_range
      (targetCell?_eq_none_iff.mp ((Refiner.targetCell?_eq_none_congr hcells).mp hnone))
    rw [hpath.size_eq, ← hnode.size_eq] at hfirst
    have himages := leafImages_perm_range hfirst hnode.dense (targetCell?_eq_none_iff.mp hnone)
    rw [hnode.size_eq] at himages
    obtain ⟨p, hp⟩ := exists_toList_eq himages
    refine ⟨?_, ?_, isBijection_iff_perm_range.mpr himages, p, ?_, hp⟩
    · exact fun c hc => List.mem_range.mp (hleaf.mem_iff.mp hc)
    · rw [size_verticesByColor]
      exact fun c hc => List.mem_range.mp (hfirst.mem_iff.mp hc)
    · exact permOfImages?_eq_some_iff.mpr hp
  case candidates =>
    intro images himages
    have hperm : images.Perm (List.range g.size) :=
      perm_of_mem_completions List.length_range himages
    obtain ⟨p, hp⟩ := exists_toList_eq hperm
    exact ⟨isBijection_iff_perm_range.mpr hperm, p, permOfImages?_eq_some_iff.mpr hp, hp⟩

open Coloring ColoredGraph in
/-- Blocks of two points and of none, the cycle of four points from `1` on, and two leaves
of a ring of four vertices. -/
theorem isBijection_blockImages_rotationImages_leafImages_ring :
    let K := PermGroup.generatedBy [swap 3 0 2]
    let g := (ofColors false [0, 0, 0, 0]).addEdges
      [((0, 1), 0), ((1, 2), 0), ((2, 3), 0), ((3, 0), 0)]
    (IsBijection 6 [4, 5, 2, 3, 0, 1] ∧ (swap 3 0 2).blockImages 2 = [4, 5, 2, 3, 0, 1] ∧
      ∃ p ∈ (PermGroup.wreathProduct (.trivial 2) K).generators, p.toList = [4, 5, 2, 3, 0, 1]) ∧
    (IsBijection 0 [] ∧ (swap 3 0 2).blockImages 0 = []) ∧
    (IsBijection 4 [0, 2, 3, 1] ∧ rotationImages 4 1 = [0, 2, 3, 1] ∧
      (rotation 4 1).toList = [0, 2, 3, 1]) ∧
    firstPath g.refiner g.size g.refiner.initial =
      [#[0, 0, 0, 0], #[0, 1, 2, 1], #[0, 1, 3, 2]] ∧
    g.reached [1, 2] = #[2, 0, 1, 3] ∧ leafImages #[0, 1, 3, 2] #[2, 0, 1, 3] = [1, 2, 3, 0] ∧
    IsBijection 4 [1, 2, 3, 0] ∧
    ∃ p, g.leafMap? #[0, 1, 3, 2] #[2, 0, 1, 3] = some p ∧ p.toList = [1, 2, 3, 0] := by
  intro K g
  obtain ⟨hblocks, hcycles, hgraph⟩ := isBijection_blockImages_rotationImages_leafImages
  have hpairs : (swap 3 0 2).blockImages 2 = [4, 5, 2, 3, 0, 1] := by decide
  have hnone : (swap 3 0 2).blockImages 0 = [] := by decide
  have hcycle : rotationImages 4 1 = [0, 2, 3, 1] := by decide
  have hpath : firstPath g.refiner g.size g.refiner.initial =
      [#[0, 0, 0, 0], #[0, 1, 2, 1], #[0, 1, 3, 2]] := by cbv
  have hleaf : g.reached [1, 2] = #[2, 0, 1, 3] := by cbv
  have himages : leafImages #[0, 1, 3, 2] #[2, 0, 1, 3] = [1, 2, 3, 0] := by decide
  obtain ⟨-, hmoved, hmember⟩ := hblocks (.trivial 2) K (swap 3 0 2) List.mem_cons_self
  obtain ⟨-, hempty, -⟩ := hblocks (.trivial 0) K (swap 3 0 2) List.mem_cons_self
  obtain ⟨hrotated, hrotation, -⟩ := hcycles 4 1 (by decide)
  obtain ⟨-, -, hbijection, hmap⟩ := (hgraph g).1 #[0, 1, 3, 2] (by rw [hpath]; decide) [1, 2]
    (by rw [hleaf]; decide) (by rw [hleaf]; decide)
  rw [hleaf, himages] at hbijection hmap
  rw [hcycle] at hrotated hrotation
  exact ⟨⟨hpairs ▸ hmoved, hpairs, hpairs ▸ hmember⟩, ⟨hnone ▸ hempty, hnone⟩,
    ⟨hrotated, hcycle, hrotation⟩, hpath, hleaf, himages, hbijection, hmap⟩

end ProcessorSymmetry

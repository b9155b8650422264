import Mathlib.Data.Nat.ModEq
import ProcessorSymmetry.Proofs.ProcessorGraph.Grids
import ProcessorSymmetry.Proofs.ProcessorGraph.Joining

/-!
# Meshes and tori

A mesh is a grid whose rows and columns are lines, and a torus one whose rows and columns
are rings.  A ring of a single processor has no channel, and one of two processors has a
single one.  Rotating the rows and columns of a torus keeps all channels.
-/

namespace ProcessorSymmetry

/-! ## Lines and rings -/

/-- Neighbours on a line. -/
def Adjacent (i j : Nat) : Prop :=
  i + 1 = j ∨ j + 1 = i

/-- Different points of a ring of `n` points that follow each other. -/
def RingAdjacent (n i j : Nat) : Prop :=
  i ≠ j ∧ (i + 1 ≡ j [MOD n] ∨ j + 1 ≡ i [MOD n])

instance : DecidableRel Adjacent := fun i j =>
  inferInstanceAs (Decidable (i + 1 = j ∨ j + 1 = i))

instance (n : Nat) : DecidableRel (RingAdjacent n) := fun i j =>
  inferInstanceAs (Decidable (i ≠ j ∧ (i + 1 ≡ j [MOD n] ∨ j + 1 ≡ i [MOD n])))

/-- How many pairs of neighbours a ring has. -/
def ringCount : Nat → Nat
  | 0 => 0
  | 1 => 0
  | 2 => 1
  | n + 3 => n + 3

theorem add_one_modEq_iff {n i j : Nat} (hi : i < n) (hj : j < n) :
    i + 1 ≡ j [MOD n] ↔ i + 1 = j ∨ i + 1 = n ∧ j = 0 := by
  rw [Nat.ModEq, Nat.mod_eq_of_lt hj]
  by_cases hlast : i + 1 = n
  · rw [hlast, Nat.mod_self]
    omega
  · rw [Nat.mod_eq_of_lt (by omega)]
    omega

/-- The points of a ring are neighbours on the line, or its ends. -/
theorem ringAdjacent_iff {n i j : Nat} (hi : i < n) (hj : j < n) :
    RingAdjacent n i j ↔
      Adjacent i j ∨ i ≠ j ∧ (i = 0 ∧ j = n - 1 ∨ j = 0 ∧ i = n - 1) := by
  rw [RingAdjacent, Adjacent, add_one_modEq_iff hi hj, add_one_modEq_iff hj hi]
  omega

theorem relatedPairs_adjacent (n : Nat) :
    relatedPairs n Adjacent = (Finset.range (n - 1)).image fun i => (i, i + 1) := by
  ext ⟨i, j⟩
  rw [mem_relatedPairs, Finset.mem_image, Adjacent]
  simp only [Finset.mem_range, Prod.mk.injEq]
  constructor
  · rintro ⟨⟨hi, hj⟩, hle, hnext⟩
    exact ⟨i, by omega, rfl, by omega⟩
  · rintro ⟨k, hk, rfl, rfl⟩
    omega

theorem card_relatedPairs_adjacent (n : Nat) : (relatedPairs n Adjacent).card = n - 1 := by
  rw [relatedPairs_adjacent, Finset.card_image_of_injective, Finset.card_range]
  intro i j heq
  exact (Prod.mk.inj heq).1

/-- From three points on, a ring has one pair of neighbours more than the line. -/
theorem relatedPairs_ringAdjacent (n : Nat) :
    relatedPairs (n + 3) (RingAdjacent (n + 3)) =
      insert (0, n + 2) (relatedPairs (n + 3) Adjacent) := by
  ext ⟨i, j⟩
  rw [Finset.mem_insert, mem_relatedPairs, mem_relatedPairs, Prod.mk.injEq]
  by_cases hij : i < n + 3 ∧ j < n + 3
  · rw [ringAdjacent_iff hij.1 hij.2, Adjacent]
    omega
  · omega

theorem card_relatedPairs_ringAdjacent (n : Nat) :
    (relatedPairs n (RingAdjacent n)).card = ringCount n := by
  match n with
  | 0 => rfl
  | 1 => rfl
  | 2 => rfl
  | n + 3 =>
      rw [relatedPairs_ringAdjacent, Finset.card_insert_of_notMem, card_relatedPairs_adjacent]
      · rfl
      · rw [mem_relatedPairs, Adjacent]
        omega

theorem ringAdjacent_rotation_iff {n s i j : Nat} (hi : i < n) (hj : j < n) :
    RingAdjacent n ((Perm.rotation n 0 ^ s) i) ((Perm.rotation n 0 ^ s) j) ↔
      RingAdjacent n i j := by
  have hnext : ∀ x y, (x + s) % n + 1 ≡ (y + s) % n [MOD n] ↔ x + 1 ≡ y [MOD n] := by
    intro x y
    rw [Nat.ModEq, Nat.mod_add_mod, Nat.mod_mod, Nat.add_right_comm]
    exact Nat.ModEq.add_iff_right rfl
  rw [RingAdjacent, RingAdjacent, Perm.rotation_pow_app hi, Perm.rotation_pow_app hj, hnext, hnext,
    ← Perm.rotation_pow_app hi, ← Perm.rotation_pow_app hj]
  exact and_congr_left' (not_congr ⟨Perm.app_injective _, congrArg _⟩)

namespace ProcessorGraph

open Perm PermGroup

variable {g : ProcessorGraph} {width height : Nat} {kind label : String} {a b r r' c c' : Nat}

/-! ## Processors in rows -/

theorem addProcessors_eq_foldl (g : ProcessorGraph) (count : Nat) (label : String) :
    g.addProcessors count label = (List.replicate count label).foldl addProcessor g := by
  induction count with
  | zero => rfl
  | succ count ih =>
      rw [List.replicate_succ', List.foldl_concat, ← ih]
      rfl

/-- Processors of one label without channels. -/
theorem isGrid_addProcessors (width height : Nat) (kind label : String) :
    ((empty false).addProcessors (width * height) kind).IsGrid width height kind label
      (fun _ _ => False) (fun _ _ => False) where
  wellFormed := (wellFormed_empty false).addProcessors _ _
  undirected := by rw [addProcessors_eq_foldl, directed_foldl_addProcessor]; rfl
  processorCount_eq := by
    rw [processorCount_addProcessors, Nat.mul_comm height]
    exact Nat.zero_add _
  labelOf_eq := by
    intro i hi
    rw [processorCount_addProcessors] at hi
    have hi : i < width * height := by simpa [empty, processorCount] using hi
    have hlabel : (List.replicate (width * height) kind)[i]? = some kind := by simp [hi]
    have hnew := (wellFormed_empty false).labelOf_foldl_addProcessor hlabel
    rw [addProcessors_eq_foldl]
    simpa [empty, processorCount] using hnew
  hasChannel_iff := by
    intro r _ c _ r' _ c' _ other
    rw [addProcessors_eq_foldl, hasChannel_foldl_addProcessor, hasChannel_empty]
    simp

theorem exists_pair_iff (hundirected : g.directed = false) {pairs : List (Nat × Nat)} :
    (∃ pair ∈ pairs, g.ends pair.1 pair.2 = g.ends a b) ↔ (a, b) ∈ pairs ∨ (b, a) ∈ pairs := by
  simp only [Prod.exists, ends_eq_ends_iff, hundirected, true_and]
  constructor
  · rintro ⟨i, j, hpair, ⟨rfl, rfl⟩ | ⟨rfl, rfl⟩⟩
    · exact .inl hpair
    · exact .inr hpair
  · rintro (hpair | hpair)
    · exact ⟨a, b, hpair, .inl ⟨rfl, rfl⟩⟩
    · exact ⟨b, a, hpair, .inr ⟨rfl, rfl⟩⟩

/-- Connecting pairs in an undirected graph joins them in both directions. -/
theorem IsGrid.connect {across down across' down' : Nat → Nat → Prop}
    (hg : g.IsGrid width height kind label across down) {pairs : List (Nat × Nat)}
    (hpairs : ∀ pair ∈ pairs, pair.1 < height * width ∧ pair.2 < height * width)
    (hjoined : ∀ r < height, ∀ c < width, ∀ r' < height, ∀ c' < width,
      (r = r' ∧ across' c c' ∨ c = c' ∧ down' r r' ↔
        (r = r' ∧ across c c' ∨ c = c' ∧ down r r') ∨
          (r * width + c, r' * width + c') ∈ pairs ∨ (r' * width + c', r * width + c) ∈ pairs)) :
    (g.connect label pairs).2.IsGrid width height kind label across' down' := by
  rw [← hg.processorCount_eq] at hpairs
  have hformed := hg.wellFormed.connect label hpairs
  obtain ⟨k, h, hconnect, hjoins⟩ := hg.wellFormed.exists_connect label hpairs
  rw [hconnect] at hformed ⊢
  have hsame := hjoins.sameProcessors
  refine ⟨hformed, hsame.directed_eq.trans hg.undirected,
    hsame.processorCount_eq.trans hg.processorCount_eq, ?_, ?_⟩
  · intro i hi
    rw [hsame.labelOf_eq, hg.labelOf_eq i (hsame.processorCount_eq ▸ hi)]
  · intro r hr c hc r' hr' c' hc' other
    rw [hjoins.hasChannel_iff, hg.hasChannel_iff r hr c hc r' hr' c' hc',
      hjoined r hr c hc r' hr' c' hc', exists_pair_iff hg.undirected]
    grind

/-! ## Neighbours by rows and columns -/

theorem below_eq (width r c : Nat) : r * width + c + width = (r + 1) * width + c := by
  rw [Nat.succ_mul, Nat.add_right_comm]

/-- Neighbours are listed from left to right and from top to bottom. -/
theorem mem_meshPairs (hr : r < height) (hr' : r' < height) (hc : c < width) (hc' : c' < width) :
    (r * width + c, r' * width + c') ∈ meshPairs width height ↔
      r = r' ∧ c + 1 = c' ∨ c = c' ∧ r + 1 = r' := by
  rw [meshPairs, List.mem_flatMap]
  constructor
  · rintro ⟨pe, -, hpair⟩
    rcases List.mem_append.mp hpair with hpair | hpair
    · split at hpair
      · rename_i hcolumn
        obtain ⟨rfl, htarget⟩ := Prod.mk.inj (List.mem_singleton.mp hpair)
        rw [Nat.mul_add_mod_of_lt hc] at hcolumn
        obtain ⟨hrow, hnext⟩ := (block_inj hc' hcolumn).mp htarget
        exact .inl ⟨hrow.symm, hnext.symm⟩
      · cases hpair
    · split at hpair
      · obtain ⟨rfl, htarget⟩ := Prod.mk.inj (List.mem_singleton.mp hpair)
        rw [below_eq, block_inj hc' hc] at htarget
        exact .inr ⟨htarget.2.symm, htarget.1.symm⟩
      · cases hpair
  · intro hneighbours
    refine ⟨r * width + c, ?_, List.mem_append.mpr ?_⟩
    · rw [List.mem_range, Nat.mul_comm width]
      exact block_lt hr hc
    · rcases hneighbours with ⟨rfl, rfl⟩ | ⟨rfl, rfl⟩
      · left
        rw [Nat.mul_add_mod_of_lt hc, if_pos hc', Nat.add_assoc]
        exact List.mem_singleton_self _
      · right
        rw [below_eq, if_pos (Nat.mul_comm height width ▸ block_lt hr' hc)]
        exact List.mem_singleton_self _

theorem mem_wrapPairs (hr : r < height) (hr' : r' < height) (hc : c < width) (hc' : c' < width) :
    (r * width + c, r' * width + c') ∈ wrapPairs width height ↔
      r = r' ∧ c = 0 ∧ c' = width - 1 ∨ c = c' ∧ r = 0 ∧ r' = height - 1 := by
  have hwidth : 0 < width := Nat.zero_lt_of_lt hc
  have hlast : ∀ row, row * width + width - 1 = row * width + (width - 1) := fun row =>
    Nat.add_sub_assoc hwidth _
  rw [wrapPairs, List.mem_append, List.mem_map, List.mem_map]
  apply or_congr
  · constructor
    · rintro ⟨row, -, hpair⟩
      obtain ⟨hsource, htarget⟩ := Prod.mk.inj hpair
      rw [← Nat.add_zero (row * width), block_inj hwidth hc] at hsource
      rw [hlast, block_inj (Nat.sub_lt hwidth Nat.one_pos) hc'] at htarget
      exact ⟨hsource.1.symm.trans htarget.1, hsource.2.symm, htarget.2.symm⟩
    · rintro ⟨rfl, rfl, rfl⟩
      exact ⟨r, List.mem_range.mpr hr, by rw [hlast, Nat.add_zero]⟩
  · constructor
    · rintro ⟨column, hcolumn, hpair⟩
      have hcolumn := List.mem_range.mp hcolumn
      obtain ⟨hsource, htarget⟩ := Prod.mk.inj hpair
      rw [← Nat.zero_add column, ← Nat.zero_mul width, block_inj hcolumn hc] at hsource
      rw [Nat.add_comm column, block_inj hcolumn hc'] at htarget
      exact ⟨hsource.2.symm.trans htarget.2, hsource.1.symm, htarget.1.symm⟩
    · rintro ⟨rfl, rfl, rfl⟩
      exact ⟨c, List.mem_range.mpr hc, by rw [Nat.zero_mul, Nat.zero_add, Nat.add_comm c]⟩

/-! ## Meshes and tori -/

theorem isGrid_mesh (width height : Nat) (kind label : String) :
    (mesh width height kind label).IsGrid width height kind label Adjacent Adjacent := by
  refine (isGrid_addProcessors width height kind label).connect ?_ ?_
  · intro pair hpair
    rw [Nat.mul_comm height]
    exact meshPairs_lt hpair
  · intro r hr c hc r' hr' c' hc'
    rw [mem_meshPairs hr hr' hc hc', mem_meshPairs hr' hr hc' hc, Adjacent, Adjacent]
    grind

theorem isGrid_torus (width height : Nat) (kind label : String) :
    (torus width height kind label).IsGrid width height kind label (RingAdjacent width)
      (RingAdjacent height) := by
  have hmesh := isGrid_mesh width height kind label
  rw [torus]
  split
  · rename_i hcount
    rw [hmesh.processorCount_eq] at hcount
    -- Without processors there are no places to compare.
    refine { hmesh with hasChannel_iff := ?_ }
    intro r hr c hc
    exact absurd (block_lt hr hc) (by omega)
  · rename_i hcount
    rw [hmesh.processorCount_eq, Nat.mul_comm] at hcount
    refine hmesh.connect ?_ ?_
    · intro pair hpair
      rw [Nat.mul_comm height]
      exact wrapPairs_lt (Nat.pos_of_ne_zero hcount) (List.mem_of_mem_filter hpair)
    · intro r hr c hc r' hr' c' hc'
      -- The ends of a ring of two points are neighbours on the line already.
      rw [ringAdjacent_iff hc hc', ringAdjacent_iff hr hr', List.mem_filter, List.mem_filter,
        mem_wrapPairs hr hr' hc hc', mem_wrapPairs hr' hr hc' hc]
      simp only [decide_eq_true_eq, ne_eq, block_inj hc hc', block_inj hc' hc]
      grind

/-- Rows and columns of a torus may be rotated. -/
theorem exists_translation (width height : Nat) (kind label : String) (down right : Nat) :
    ∃ p : Perm (height * width),
      (∀ r < height, ∀ c < width,
        p (r * width + c) = (r + down) % height * width + (c + right) % width) ∧
      ∀ finder, ((torus width height kind label).automorphisms finder).contains p = true := by
  let rows := rotation height 0 ^ down
  let columns := rotation width 0 ^ right
  have hp : MovesBlocks rows (fun _ => columns) (assemble rows fun _ => columns) :=
    (movesBlocks_assemble rows fun _ => columns).congr fun _ hr => placesAt_of_lt _ hr
  refine ⟨assemble rows fun _ => columns, ?_, ?_⟩
  · intro r hr c hc
    rw [hp r hr c hc, rotation_pow_app hr, rotation_pow_app hc]
  · exact (isGrid_torus width height kind label).contains_automorphisms hp
      (fun _ hr _ hr' => ringAdjacent_rotation_iff hr hr')
      (fun _ hc _ hc' => ringAdjacent_rotation_iff hc hc')

/-- In a mesh the processors in neighbouring columns of a row and in neighbouring rows of a
column are joined.  In a torus columns and rows count round, where a processor is not joined
with itself.  Both are undirected, and no channel is stored twice, in whichever direction,
which gives the numbers of channels.  All rotations of the rows and columns of a torus are
automorphisms. -/
theorem mesh_and_torus_channels (width height : Nat) (kind label : String) :
    let m := mesh width height kind label
    let t := torus width height kind label
    (m.processorCount = width * height ∧ t.processorCount = width * height) ∧
    (m.directed = false ∧ t.directed = false) ∧
    (∀ a b other, m.hasChannel a b other = true ↔
      (a < width * height ∧ b < width * height) ∧ other = label ∧
        (a / width = b / width ∧ (a % width + 1 = b % width ∨ b % width + 1 = a % width) ∨
          a % width = b % width ∧ (a / width + 1 = b / width ∨ b / width + 1 = a / width))) ∧
    (∀ a b other, t.hasChannel a b other = true ↔
      (a < width * height ∧ b < width * height) ∧ other = label ∧ a ≠ b ∧
        (a / width = b / width ∧
            (a % width + 1 ≡ b % width [MOD width] ∨ b % width + 1 ≡ a % width [MOD width]) ∨
          a % width = b % width ∧
            (a / width + 1 ≡ b / width [MOD height] ∨ b / width + 1 ≡ a / width [MOD height]))) ∧
    ((m.channelList.map m.listedKey).Nodup ∧ (t.channelList.map t.listedKey).Nodup) ∧
    m.channelCount = height * (width - 1) + width * (height - 1) ∧
    t.channelCount = height * ringCount width + width * ringCount height ∧
    ∀ down right, ∃ p : Perm (height * width),
      (∀ r < height, ∀ c < width,
        p (r * width + c) = (r + down) % height * width + (c + right) % width) ∧
      ∀ finder, (t.automorphisms finder).contains p = true := by
  intro m t
  have hm : m.IsGrid width height kind label Adjacent Adjacent :=
    isGrid_mesh width height kind label
  have ht : t.IsGrid width height kind label (RingAdjacent width) (RingAdjacent height) :=
    isGrid_torus width height kind label
  have hcount : width * height = height * width := Nat.mul_comm width height
  refine ⟨?_, ⟨hm.undirected, ht.undirected⟩, ?_, ?_,
    ⟨hm.wellFormed.listedKeys_nodup, ht.wellFormed.listedKeys_nodup⟩, ?_, ?_,
    exists_translation width height kind label⟩
  · rw [hcount]
    exact ⟨hm.processorCount_eq, ht.processorCount_eq⟩
  · intro a b other
    rw [hcount]
    exact hm.hasChannel_iff_div_mod a b other
  · intro a b other
    have hsame : a = b ↔ a / width = b / width ∧ a % width = b % width := by
      constructor
      · rintro rfl
        exact ⟨rfl, rfl⟩
      · rintro ⟨hrow, hcolumn⟩
        rw [← Nat.div_add_mod a width, hrow, hcolumn, Nat.div_add_mod]
    rw [hcount, ht.hasChannel_iff_div_mod, RingAdjacent, RingAdjacent, ne_eq a b, hsame]
    grind
  · rw [hm.channelCount_eq, card_relatedPairs_adjacent, card_relatedPairs_adjacent]
    intro c hself
    rw [Adjacent] at hself
    omega
  · rw [ht.channelCount_eq, card_relatedPairs_ringAdjacent, card_relatedPairs_ringAdjacent]
    exact fun c hself => hself.1 rfl

/-- Three rows of two processors have one channel each, two columns of three have three. -/
example : (torus 2 3 "p" "c").channelCount = 3 * 1 + 2 * 3 := by decide +kernel

end ProcessorGraph
end ProcessorSymmetry

import ProcessorSymmetry.Proofs.Group.SymmetricChain
import ProcessorSymmetry.Proofs.Group.WreathOrder
import ProcessorSymmetry.Proofs.ProcessorGraph.Automorphisms
import ProcessorSymmetry.Proofs.ProcessorGraph.Changes

/-!
# Graphs on grids

The processors of a grid are numbered row by row.  If channels only depend on how two
columns are related, within one row, and on how two rows are related, within one column,
then there are as many channels as related pairs of columns for each row and related
pairs of rows for each column.  Permutations of the rows and of the columns that keep
these relations are automorphisms.
-/

namespace ProcessorSymmetry

/-! ## Related points of a line -/

/-- The related pairs of points of a line, the first one not after the second one. -/
def relatedPairs (n : Nat) (related : Nat → Nat → Prop) [DecidableRel related] :
    Finset (Nat × Nat) :=
  (Finset.range n ×ˢ Finset.range n).filter fun z => z.1 ≤ z.2 ∧ related z.1 z.2

theorem mem_relatedPairs {n i j : Nat} {related : Nat → Nat → Prop} [DecidableRel related] :
    (i, j) ∈ relatedPairs n related ↔ (i < n ∧ j < n) ∧ i ≤ j ∧ related i j := by
  rw [relatedPairs, Finset.mem_filter, Finset.mem_product, Finset.mem_range, Finset.mem_range]

/-- Rotating all points of a circle again and again moves each of them on. -/
theorem Perm.rotation_pow_app {n s x : Nat} (hx : x < n) :
    (rotation n 0 ^ s) x = (x + s) % n := by
  induction s with
  | zero => rw [pow_zero, one_app, Nat.add_zero, Nat.mod_eq_of_lt hx]
  | succ s ih =>
      have hlt : (x + s) % n < n := Nat.mod_lt _ (Nat.zero_lt_of_lt hx)
      have hnext : (x + (s + 1)) % n = ((x + s) % n + 1) % n := by
        rw [Nat.mod_add_mod, Nat.add_assoc]
      rw [pow_succ, mul_app, ih, rotation_app hlt, if_neg (Nat.not_lt_zero _), hnext]
      split
      · rename_i hlast
        rw [hlast, Nat.mod_self]
      · rename_i hlast
        exact (Nat.mod_eq_of_lt (Nat.lt_of_le_of_ne hlt hlast)).symm

namespace ProcessorGraph

open Perm

variable {g : ProcessorGraph} {width height : Nat} {kind label other : String}
  {across down : Nat → Nat → Prop} {r r' c c' : Nat}

/-- Processors with one label in rows and columns, with channels of one label along the
rows and columns only. -/
structure IsGrid (g : ProcessorGraph) (width height : Nat) (kind label : String)
    (across down : Nat → Nat → Prop) : Prop where
  wellFormed : g.WellFormed
  undirected : g.directed = false
  processorCount_eq : g.processorCount = height * width
  labelOf_eq : ∀ i < g.processorCount, g.labelOf i = kind
  hasChannel_iff : ∀ r < height, ∀ c < width, ∀ r' < height, ∀ c' < width, ∀ other,
    g.hasChannel (r * width + c) (r' * width + c') other = true ↔
      other = label ∧ (r = r' ∧ across c c' ∨ c = c' ∧ down r r')

/-- The rows and columns of processors are found by division. -/
theorem IsGrid.hasChannel_iff_div_mod (hg : g.IsGrid width height kind label across down)
    (a b : Nat) (other : String) :
    g.hasChannel a b other = true ↔
      (a < height * width ∧ b < height * width) ∧ other = label ∧
        (a / width = b / width ∧ across (a % width) (b % width) ∨
          a % width = b % width ∧ down (a / width) (b / width)) := by
  by_cases hab : a < height * width ∧ b < height * width
  · obtain ⟨r, hr, c, hc, rfl⟩ := exists_block hab.1
    obtain ⟨r', hr', c', hc', rfl⟩ := exists_block hab.2
    rw [hg.hasChannel_iff r hr c hc r' hr' c' hc', block_div hc, block_div hc',
      Nat.mul_add_mod_of_lt hc, Nat.mul_add_mod_of_lt hc', and_iff_right hab]
  · refine iff_of_false (fun hchannel => hab ?_) (fun hjoined => hab hjoined.1)
    rw [← hg.processorCount_eq]
    exact hg.wellFormed.hasChannel_lt hchannel

/-! ## The number of channels -/

section Counting

variable {lines n a b : Nat} {place : Nat → Nat → Nat} {related : Nat → Nat → Prop}
  [DecidableRel related]

/-- The channels on several lines of `n` processors, where `place k i` is the processor at the
point `i` of the line `k`. -/
def lineKeys (lines n : Nat) (place : Nat → Nat → Nat) (label : String)
    (related : Nat → Nat → Prop) [DecidableRel related] : Finset (Nat × Nat × String) :=
  (Finset.range lines ×ˢ relatedPairs n related).image fun z =>
    (place z.1 z.2.1, place z.1 z.2.2, label)

theorem mem_lineKeys :
    (a, b, other) ∈ lineKeys lines n place label related ↔
      other = label ∧ ∃ k < lines, ∃ i j, (i, j) ∈ relatedPairs n related ∧
        a = place k i ∧ b = place k j := by
  simp only [lineKeys, Finset.mem_image, Finset.mem_product, Finset.mem_range, Prod.exists,
    Prod.mk.injEq]
  constructor
  · rintro ⟨k, i, j, ⟨hk, hpair⟩, rfl, rfl, rfl⟩
    exact ⟨rfl, k, hk, i, j, hpair, rfl, rfl⟩
  · rintro ⟨rfl, k, hk, i, j, hpair, rfl, rfl⟩
    exact ⟨k, i, j, ⟨hk, hpair⟩, rfl, rfl, rfl⟩

/-- Every line has a channel for each related pair of its points. -/
theorem card_lineKeys (hplace : ∀ k < lines, ∀ i < n, ∀ k' < lines, ∀ i' < n,
    place k i = place k' i' → k = k' ∧ i = i') :
    (lineKeys lines n place label related).card = lines * (relatedPairs n related).card := by
  rw [lineKeys, Finset.card_image_of_injOn, Finset.card_product, Finset.card_range]
  rintro ⟨k, i, j⟩ hz ⟨k', i', j'⟩ hz' heq
  rw [Finset.mem_coe, Finset.mem_product, Finset.mem_range, mem_relatedPairs] at hz hz'
  obtain ⟨hk, ⟨hi, hj⟩, -⟩ := hz
  obtain ⟨hk', ⟨hi', hj'⟩, -⟩ := hz'
  obtain ⟨hsource, htarget⟩ := Prod.mk.inj heq
  obtain ⟨rfl, rfl⟩ := hplace k hk i hi k' hk' i' hi' hsource
  obtain ⟨-, rfl⟩ := hplace k hk j hj k hk' j' hj' (Prod.mk.inj htarget).1
  rfl

variable [DecidableRel across] [DecidableRel down]

/-- Every channel lies in a row or in a column. -/
theorem IsGrid.channelKeys_eq (hg : g.IsGrid width height kind label across down) :
    g.channelKeys = lineKeys height width (fun r c => r * width + c) label across ∪
      lineKeys width height (fun c r => r * width + c) label down := by
  ext ⟨a, b, other⟩
  rw [hg.wellFormed.mem_channelKeys_of_undirected hg.undirected, Finset.mem_union, mem_lineKeys,
    mem_lineKeys]
  constructor
  · rintro ⟨hchannel, hle⟩
    obtain ⟨ha, hb⟩ := hg.wellFormed.hasChannel_lt hchannel
    rw [hg.processorCount_eq] at ha hb
    obtain ⟨r, hr, c, hc, rfl⟩ := exists_block ha
    obtain ⟨r', hr', c', hc', rfl⟩ := exists_block hb
    rw [block_le_block_iff hc hc'] at hle
    obtain ⟨rfl, ⟨rfl, hrelated⟩ | ⟨rfl, hrelated⟩⟩ :=
      (hg.hasChannel_iff r hr c hc r' hr' c' hc' other).mp hchannel
    · have hpair := mem_relatedPairs.mpr ⟨⟨hc, hc'⟩, by omega, hrelated⟩
      exact .inl ⟨rfl, r, hr, c, c', hpair, rfl, rfl⟩
    · have hpair := mem_relatedPairs.mpr ⟨⟨hr, hr'⟩, by omega, hrelated⟩
      exact .inr ⟨rfl, c, hc, r, r', hpair, rfl, rfl⟩
  · rintro (⟨rfl, r, hr, c, c', hpair, rfl, rfl⟩ | ⟨rfl, c, hc, r, r', hpair, rfl, rfl⟩)
    · obtain ⟨⟨hc, hc'⟩, hle, hrelated⟩ := mem_relatedPairs.mp hpair
      rw [hg.hasChannel_iff r hr c hc r hr c' hc', block_le_block_iff hc hc']
      exact ⟨⟨rfl, .inl ⟨rfl, hrelated⟩⟩, .inr ⟨rfl, hle⟩⟩
    · obtain ⟨⟨hr, hr'⟩, hle, hrelated⟩ := mem_relatedPairs.mp hpair
      rw [hg.hasChannel_iff r hr c hc r' hr' c hc, block_le_block_iff hc hc]
      exact ⟨⟨rfl, .inr ⟨rfl, hrelated⟩⟩, by omega⟩

/-- If no column is related to itself then no channel lies in a row and in a column. -/
theorem disjoint_lineKeys (hacross : ∀ c, ¬across c c) :
    Disjoint (lineKeys height width (fun r c => r * width + c) label across)
      (lineKeys width height (fun c r => r * width + c) label down) := by
  rw [Finset.disjoint_left]
  rintro ⟨a, b, other⟩ hrow hcolumn
  obtain ⟨-, r, -, c, c', hpair, rfl, rfl⟩ := mem_lineKeys.mp hrow
  obtain ⟨-, d, hd, s, s', -, hsource, htarget⟩ := mem_lineKeys.mp hcolumn
  obtain ⟨⟨hc, hc'⟩, -, hrelated⟩ := mem_relatedPairs.mp hpair
  obtain ⟨-, rfl⟩ := (block_inj hc hd).mp hsource
  obtain ⟨-, rfl⟩ := (block_inj hc' hd).mp htarget
  exact hacross _ hrelated

theorem IsGrid.channelCount_eq (hg : g.IsGrid width height kind label across down)
    (hacross : ∀ c, ¬across c c) :
    g.channelCount =
      height * (relatedPairs width across).card + width * (relatedPairs height down).card := by
  rw [← hg.wellFormed.card_channelKeys, hg.channelKeys_eq,
    Finset.card_union_of_disjoint (disjoint_lineKeys hacross), card_lineKeys, card_lineKeys]
  · exact fun c hc r _ c' hc' r' _ heq => ((block_inj hc hc').mp heq).symm
  · exact fun r _ c hc r' _ c' hc' heq => (block_inj hc hc').mp heq

end Counting

/-! ## Automorphisms -/

/-- Rows and columns may be permuted, if the relations between them are kept. -/
theorem IsGrid.contains_automorphisms (hg : g.IsGrid width height kind label across down)
    {rows : Perm height} {columns : Perm width} {p : Perm (height * width)}
    (hp : MovesBlocks rows (fun _ => columns) p)
    (hrows : ∀ r < height, ∀ r' < height, down (rows r) (rows r') ↔ down r r')
    (hcolumns : ∀ c < width, ∀ c' < width, across (columns c) (columns c') ↔ across c c')
    (finder : AutomorphismFinder) : (g.automorphisms finder).contains p = true := by
  have hinjective : ∀ {n : Nat} (q : Perm n) {x y : Nat}, q x = q y ↔ x = y := fun q _ _ =>
    ⟨q.app_injective, congrArg q⟩
  rw [hg.wellFormed.contains_automorphisms_iff_preserves]
  refine ⟨hg.processorCount_eq.symm, ?_, ?_⟩
  · intro i hi
    rw [hg.labelOf_eq i hi, hg.labelOf_eq]
    rw [hg.processorCount_eq] at hi ⊢
    exact p.app_lt hi
  · intro i hi j hj other
    rw [hg.processorCount_eq] at hi hj
    obtain ⟨r, hr, c, hc, rfl⟩ := exists_block hi
    obtain ⟨r', hr', c', hc', rfl⟩ := exists_block hj
    rw [hp r hr c hc, hp r' hr' c' hc', Bool.eq_iff_iff,
      hg.hasChannel_iff _ (rows.app_lt hr) _ (columns.app_lt hc) _ (rows.app_lt hr') _
        (columns.app_lt hc'),
      hg.hasChannel_iff r hr c hc r' hr' c' hc', hrows r hr r' hr', hcolumns c hc c' hc',
      hinjective rows, hinjective columns]

end ProcessorGraph
end ProcessorSymmetry

import ProcessorSymmetry.Group.Product
import ProcessorSymmetry.Proofs.Group.Equality

/-!
# Wreath products

A member of a wreath product takes each block of points as a whole to a block,
by one permutation of the blocks, and rearranges the places in each block by a
permutation of its own.  Conversely, every choice of a permutation of the blocks
and of one permutation of the places for each block gives a member.  Whatever
keeps blocks together and separate moves them in this way.
-/

namespace ProcessorSymmetry

variable {k m : Nat}

/-! ## Places in blocks -/

theorem block_lt {b l : Nat} (hb : b < k) (hl : l < m) : b * m + l < k * m := by
  calc
    b * m + l < b * m + m := Nat.add_lt_add_left hl _
    _ = (b + 1) * m := (Nat.succ_mul b m).symm
    _ ≤ k * m := Nat.mul_le_mul_right m hb

theorem block_div {b l : Nat} (hl : l < m) : (b * m + l) / m = b := by
  rw [Nat.mul_comm, Nat.mul_add_div (Nat.zero_lt_of_lt hl), Nat.div_eq_of_lt hl, Nat.add_zero]

theorem block_inj {b b' l l' : Nat} (hl : l < m) (hl' : l' < m) :
    b * m + l = b' * m + l' ↔ b = b' ∧ l = l' := by
  constructor
  · intro h
    have hblock := congrArg (· / m) h
    have hplace := congrArg (· % m) h
    simp only [block_div, Nat.mul_add_mod_of_lt, hl, hl'] at hblock hplace
    exact ⟨hblock, hplace⟩
  · rintro ⟨rfl, rfl⟩
    rfl

/-- Points are in the order of their blocks, and in one block in the order of their places. -/
theorem block_le_block_iff {m b b' l l' : Nat} (hl : l < m) (hl' : l' < m) :
    b * m + l ≤ b' * m + l' ↔ b < b' ∨ b = b' ∧ l ≤ l' := by
  have hnext : ∀ {x y : Nat}, x < y → x * m + m ≤ y * m := by
    intro x y hxy
    rw [← Nat.succ_mul]
    exact Nat.mul_le_mul_right m hxy
  rcases Nat.lt_trichotomy b b' with hlt | rfl | hlt
  · have := hnext hlt
    omega
  · omega
  · have := hnext hlt
    omega

/-- Every point of the blocks has a block and a place. -/
theorem exists_block {x : Nat} (hx : x < k * m) :
    ∃ b < k, ∃ l < m, x = b * m + l := by
  have hm : 0 < m := Nat.pos_of_ne_zero (by rintro rfl; simp at hx)
  refine ⟨x / m, (Nat.div_lt_iff_lt_mul hm).mpr hx, x % m, Nat.mod_lt x hm, ?_⟩
  rw [Nat.mul_comm]
  exact (Nat.div_add_mod x m).symm

namespace Perm

/-- Permutations of blocks that move every place alike are equal. -/
theorem ext_blocks {p q : Perm (k * m)}
    (h : ∀ b < k, ∀ l < m, p (b * m + l) = q (b * m + l)) : p = q := by
  apply ext
  intro x hx
  obtain ⟨b, hb, l, hl, rfl⟩ := exists_block hx
  exact h b hb l hl

theorem blocks_app_place (q : Perm k) {b l : Nat} (hb : b < k) (hl : l < m) :
    q.blocks m (b * m + l) = q b * m + l := by
  rw [blocks_app q (block_lt hb hl), block_div hl, Nat.mul_add_mod_of_lt hl]

@[simp] theorem blocks_one : (1 : Perm k).blocks m = 1 := by
  apply ext_blocks
  intro b hb l hl
  rw [blocks_app_place 1 hb hl, one_app, one_app]

theorem blocks_mul (p q : Perm k) : (p * q).blocks m = p.blocks m * q.blocks m := by
  apply ext_blocks
  intro b hb l hl
  rw [mul_app, blocks_app_place _ hb hl, blocks_app_place _ hb hl,
    blocks_app_place _ (p.app_lt hb) hl, mul_app]

/-- `p` rearranges the places in each block `b` by `h b` while `q` permutes the blocks. -/
def MovesBlocks (q : Perm k) (h : Nat → Perm m) (p : Perm (k * m)) : Prop :=
  ∀ b < k, ∀ l < m, p (b * m + l) = q b * m + h b l

theorem MovesBlocks.eq {q : Perm k} {h : Nat → Perm m} {p p' : Perm (k * m)}
    (hp : MovesBlocks q h p) (hp' : MovesBlocks q h p') : p = p' :=
  ext_blocks fun b hb l hl => (hp b hb l hl).trans (hp' b hb l hl).symm

theorem MovesBlocks.congr {q : Perm k} {h h' : Nat → Perm m} {p : Perm (k * m)}
    (hp : MovesBlocks q h p) (heq : ∀ b < k, h b = h' b) : MovesBlocks q h' p :=
  fun b hb l hl => heq b hb ▸ hp b hb l hl

theorem movesBlocks_one : MovesBlocks (1 : Perm k) (fun _ => (1 : Perm m)) 1 := by
  intro b _ l _
  simp only [one_app]

theorem MovesBlocks.mul {q q' : Perm k} {h h' : Nat → Perm m} {p p' : Perm (k * m)}
    (hp : MovesBlocks q h p) (hp' : MovesBlocks q' h' p') :
    MovesBlocks (q * q') (fun b => h b * h' (q b)) (p * p') := by
  intro b hb l hl
  rw [mul_app, hp b hb l hl, hp' (q b) (q.app_lt hb) _ ((h b).app_lt hl), mul_app, mul_app]

theorem MovesBlocks.inv {q : Perm k} {h : Nat → Perm m} {p : Perm (k * m)}
    (hp : MovesBlocks q h p) : MovesBlocks q⁻¹ (fun b => (h (q⁻¹ b))⁻¹) p⁻¹ := by
  intro b hb l hl
  rw [inv_app_eq_iff, hp _ (q⁻¹.app_lt hb) _ ((h (q⁻¹ b))⁻¹.app_lt hl), app_inv_app,
    app_inv_app]

theorem movesBlocks_blocks (q : Perm k) : MovesBlocks q (fun _ => 1) (q.blocks m) := by
  intro b hb l hl
  rw [blocks_app_place q hb hl, one_app]

/-! ## Permutations that keep blocks together -/

/-- Points of one block end in one block. -/
def KeepsBlocks (k m : Nat) (p : Perm (k * m)) : Prop :=
  ∀ b < k, ∀ l < m, p (b * m + l) / m = p (b * m) / m

/-- The block in which the points of the block `b` end. -/
def blockImage {n : Nat} (m : Nat) (p : Perm n) (b : Nat) : Nat :=
  p (b * m) / m

/-- The place at which the place `l` of the block `b` ends. -/
def placeImage {n : Nat} (m : Nat) (p : Perm n) (b l : Nat) : Nat :=
  p (b * m + l) % m

theorem blockImage_lt (hm : 0 < m) (p : Perm (k * m)) {b : Nat} (hb : b < k) :
    p.blockImage m b < k :=
  (Nat.div_lt_iff_lt_mul hm).mpr (p.app_lt (block_lt hb hm))

theorem KeepsBlocks.app {p : Perm (k * m)} (hp : KeepsBlocks k m p) {b l : Nat} (hb : b < k)
    (hl : l < m) : p (b * m + l) = p.blockImage m b * m + p.placeImage m b l := by
  rw [blockImage, placeImage, ← hp b hb l hl]
  exact (Nat.div_add_mod' _ _).symm

theorem placeImage_lt {n b l : Nat} (hm : 0 < m) (p : Perm n) : p.placeImage m b l < m :=
  Nat.mod_lt _ hm

/-- The images of blocks and of their places are undone by the inverse. -/
theorem KeepsBlocks.inv_images {p : Perm (k * m)} (hp : KeepsBlocks k m p)
    (hinv : KeepsBlocks k m p⁻¹) {b l : Nat} (hb : b < k) (hl : l < m) :
    p⁻¹.blockImage m (p.blockImage m b) = b ∧
      p⁻¹.placeImage m (p.blockImage m b) (p.placeImage m b l) = l := by
  have hm := Nat.zero_lt_of_lt hl
  have hundone : p⁻¹ (p (b * m + l)) = b * m + l := inv_app_app p _
  rw [hp.app hb hl, hinv.app (blockImage_lt hm p hb) (placeImage_lt hm p)] at hundone
  exact (block_inj (placeImage_lt hm p⁻¹) hl).mp hundone

theorem KeepsBlocks.images_inv {p : Perm (k * m)} (hp : KeepsBlocks k m p)
    (hinv : KeepsBlocks k m p⁻¹) {b l : Nat} (hb : b < k) (hl : l < m) :
    p.blockImage m (p⁻¹.blockImage m b) = b ∧
      p.placeImage m (p⁻¹.blockImage m b) (p⁻¹.placeImage m b l) = l :=
  hinv.inv_images hp hb hl

/-- The permutation of the blocks. -/
def onBlocks (hm : 0 < m) (p : Perm (k * m)) (hp : KeepsBlocks k m p)
    (hinv : KeepsBlocks k m p⁻¹) : Perm k :=
  ofFn (p.blockImage m) (p⁻¹.blockImage m) (fun _ => blockImage_lt hm p)
    (fun _ => blockImage_lt hm p⁻¹) (fun _ hb => (hp.inv_images hinv hb hm).1)
    (fun _ hb => (hp.images_inv hinv hb hm).1)

/-- The permutation of the places in a block. -/
def onPlaces (p : Perm (k * m)) (hp : KeepsBlocks k m p) (hinv : KeepsBlocks k m p⁻¹) {b : Nat}
    (hb : b < k) : Perm m :=
  ofFn (p.placeImage m b) (p⁻¹.placeImage m (p.blockImage m b))
    (fun _ hl => placeImage_lt (Nat.zero_lt_of_lt hl) p)
    (fun _ hl => placeImage_lt (Nat.zero_lt_of_lt hl) p⁻¹)
    (fun _ hl => (hp.inv_images hinv hb hl).2)
    (fun _ hl => by
      have hm := Nat.zero_lt_of_lt hl
      have hundone := (hp.images_inv hinv (blockImage_lt hm p hb) hl).2
      rwa [(hp.inv_images hinv hb hm).1] at hundone)

/-- If a permutation keeps blocks together and separate, then it rearranges the
places in each block while the blocks are permuted. -/
theorem exists_movesBlocks (hm : 0 < m) {p : Perm (k * m)} (hp : KeepsBlocks k m p)
    (hinv : KeepsBlocks k m p⁻¹) : ∃ (q : Perm k) (h : Nat → Perm m), MovesBlocks q h p := by
  refine ⟨onBlocks hm p hp hinv, fun b => if hb : b < k then onPlaces p hp hinv hb else 1, ?_⟩
  intro b hb l hl
  have hblock : onBlocks hm p hp hinv b = p.blockImage m b := ofFn_app hb
  have hplace : onPlaces p hp hinv hb l = p.placeImage m b l := ofFn_app hl
  dsimp only
  rw [dif_pos hb, hblock, hplace]
  exact hp.app hb hl

end Perm

namespace PermGroup

open Perm

theorem movesBlocks_onBlock (p : Perm m) (block : Fin k) :
    MovesBlocks 1 (fun b => if b = block then p else 1) (onBlock p block) := by
  intro b hb l hl
  rw [onBlock, shift_app p _ (block_lt hb hl), one_app]
  dsimp only
  by_cases hblock : b = block
  · subst hblock
    rw [if_pos rfl, if_pos (Nat.le_add_right _ l), Nat.add_sub_cancel_left]
  · rw [if_neg hblock, one_app]
    split
    · rename_i hle
      -- The points of the later blocks lie outside of the domain of `p`.
      have hlater : block.val + 1 ≤ b := by
        by_contra hearlier
        have hstart : b * m + m ≤ block * m := by
          rw [← Nat.succ_mul]
          exact Nat.mul_le_mul_right m (by omega)
        omega
      have hend : block * m + m ≤ b * m := by
        rw [← Nat.succ_mul]
        exact Nat.mul_le_mul_right m hlater
      rw [p.app_of_le (by omega)]
      omega
    · rfl

@[simp] theorem onBlock_one (block : Fin k) : onBlock (1 : Perm m) block = 1 := by
  refine (movesBlocks_onBlock 1 block).eq ?_
  simpa using movesBlocks_one

theorem onBlock_mul (p q : Perm m) (block : Fin k) :
    onBlock (p * q) block = onBlock p block * onBlock q block := by
  have hproduct := (movesBlocks_onBlock p block).mul (movesBlocks_onBlock q block)
  refine (movesBlocks_onBlock (p * q) block).eq ?_
  convert hproduct using 1
  · rw [mul_one]
  · funext b
    by_cases hb : b = block
    · simp [hb]
    · simp [hb]

/-- Permutations that act on one block each act on all of these blocks together. -/
theorem movesBlocks_prod_onBlock (h : Nat → Perm m) {blocks : List (Fin k)}
    (hnodup : blocks.Nodup) :
    MovesBlocks 1 (fun b => if ∃ block ∈ blocks, b = block.val then h b else 1)
      (blocks.map fun block : Fin k => onBlock (h block) block).prod := by
  induction blocks with
  | nil => simpa using movesBlocks_one
  | cons block rest ih =>
      obtain ⟨hnew, hrest⟩ := List.nodup_cons.mp hnodup
      rw [List.map_cons, List.prod_cons]
      convert (movesBlocks_onBlock (h block) block).mul (ih hrest) using 1
      · rw [mul_one]
      · funext b
        by_cases hb : b = block
        · subst hb
          have hother : ¬∃ other ∈ rest, block.val = other.val := by
            rintro ⟨other, hmem, heq⟩
            exact hnew (Fin.ext heq ▸ hmem)
          simp [hother]
        · simp [hb]

/-! ## The members -/

/-- The permutations that permute the blocks by a member of `K` and rearrange
the places in each block by a member of `H`. -/
def blockwise (H : Subgroup (Perm m)) (K : Subgroup (Perm k)) : Subgroup (Perm (k * m)) where
  carrier := {p | ∃ q ∈ K, ∃ h : Nat → Perm m, (∀ b < k, h b ∈ H) ∧ MovesBlocks q h p}
  one_mem' := ⟨1, K.one_mem, fun _ => 1, fun _ _ => H.one_mem, movesBlocks_one⟩
  mul_mem' := by
    rintro p p' ⟨q, hq, h, hh, hp⟩ ⟨q', hq', h', hh', hp'⟩
    refine ⟨q * q', K.mul_mem hq hq', _, fun b hb => ?_, hp.mul hp'⟩
    exact H.mul_mem (hh b hb) (hh' (q b) (q.app_lt hb))
  inv_mem' := by
    rintro p ⟨q, hq, h, hh, hp⟩
    exact ⟨q⁻¹, K.inv_mem hq, _, fun b hb => H.inv_mem (hh _ (q⁻¹.app_lt hb)), hp.inv⟩

theorem onBlock_mem_members (H K : PermGroup) {p : Perm H.degree} (hp : p ∈ H.members)
    (block : Fin K.degree) : onBlock p block ∈ (wreathProduct H K).members := by
  refine generated_induction (P := fun p => onBlock p block ∈ (wreathProduct H K).members)
    ?_ ?_ hp
  · rw [onBlock_one]
    exact Subgroup.one_mem _
  · intro p hp g hg
    rw [onBlock_mul]
    refine Subgroup.mul_mem _ hp (subset_generated (List.mem_append_left _ ?_))
    exact List.mem_flatMap.mpr ⟨g, hg, List.mem_map_of_mem (List.mem_finRange block)⟩

theorem blocks_mem_members (H K : PermGroup) {q : Perm K.degree} (hq : q ∈ K.members) :
    q.blocks H.degree ∈ (wreathProduct H K).members := by
  refine generated_induction
    (P := fun q => q.blocks H.degree ∈ (wreathProduct H K).members) ?_ ?_ hq
  · rw [blocks_one]
    exact Subgroup.one_mem _
  · intro q hq g hg
    rw [blocks_mul]
    exact Subgroup.mul_mem _ hq
      (subset_generated (List.mem_append_right _ (List.mem_map_of_mem hg)))

/-- The wreath product consists of all permutations that permute the blocks by a
member of `K` and rearrange the places in each block by a member of `H`. -/
theorem members_wreathProduct (H K : PermGroup) :
    (wreathProduct H K).members = blockwise H.members K.members := by
  apply le_antisymm
  · refine generated_le.mpr fun p hp => ?_
    rcases List.mem_append.mp hp with hinner | houter
    · obtain ⟨g, hg, hblock⟩ := List.mem_flatMap.mp hinner
      obtain ⟨block, -, rfl⟩ := List.mem_map.mp hblock
      refine ⟨1, K.members.one_mem, _, fun b _ => ?_, movesBlocks_onBlock g block⟩
      split
      · exact subset_generated hg
      · exact H.members.one_mem
    · obtain ⟨q, hq, rfl⟩ := List.mem_map.mp houter
      exact ⟨q, subset_generated hq, _, fun _ _ => H.members.one_mem, movesBlocks_blocks q⟩
  · -- First the places are rearranged, block after block, and then the blocks move.
    rintro p ⟨q, hq, h, hh, hp⟩
    let places :=
      ((List.finRange K.degree).map fun block : Fin K.degree => onBlock (h block) block).prod
    have hplaces : MovesBlocks 1 h places :=
      (movesBlocks_prod_onBlock h (List.nodup_finRange K.degree)).congr
        fun b hb => if_pos ⟨⟨b, hb⟩, List.mem_finRange _, rfl⟩
    have heq : p = places * q.blocks H.degree := by
      refine hp.eq ?_
      simpa using hplaces.mul (movesBlocks_blocks q)
    rw [heq]
    refine Subgroup.mul_mem _ (Subgroup.list_prod_mem _ fun g hg => ?_)
      (blocks_mem_members H K hq)
    obtain ⟨block, -, rfl⟩ := List.mem_map.mp hg
    exact onBlock_mem_members H K (hh block block.isLt) block

/-- Members of a wreath product, asked for by any permutation. -/
theorem contains_wreathProduct_iff {H K : PermGroup} (hk : K.degree = k) (hm : H.degree = m)
    {n : Nat} {p : Perm n} :
    (wreathProduct H K).contains p = true ↔
      n = k * m ∧ ∃ q : Perm k, K.contains q = true ∧
        ∃ h : Nat → Perm m, (∀ b < k, H.contains (h b) = true) ∧
          ∀ b < k, ∀ l < m, p (b * m + l) = q b * m + h b l := by
  subst hk hm
  simp only [contains_iff_mem]
  rw [contains_iff]
  constructor
  · rintro ⟨rfl, hp⟩
    rw [members_wreathProduct] at hp
    exact ⟨rfl, hp⟩
  · rintro ⟨rfl, hp⟩
    refine ⟨rfl, ?_⟩
    rw [members_wreathProduct]
    exact hp

/-- A wreath product only depends on the elements of its groups. -/
theorem same_wreathProduct {H H' K K' : PermGroup} (hH : H.same H' = true)
    (hK : K.same K' = true) : (wreathProduct H K).same (wreathProduct H' K') = true := by
  have hm := degree_eq_of_same hH
  have hk := degree_eq_of_same hK
  rw [same_iff_contains] at hH hK ⊢
  intro n p
  rw [contains_wreathProduct_iff hk hm, contains_wreathProduct_iff rfl rfl]
  simp only [hH _, hK _]

end PermGroup
end ProcessorSymmetry

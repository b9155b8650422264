import Mathlib.SetTheory.Cardinal.Finite
import ProcessorSymmetry.Proofs.Group.WreathProduct

/-!
# Orders of wreath products

Any permutation of the blocks and any choice of one permutation of the places for
each block belong together to one permutation of all points.  If blocks have places
at all, then different choices give different permutations.  Counting the choices
gives the order of a wreath product.
-/

namespace ProcessorSymmetry

open Perm

namespace PermGroup

variable {k m : Nat}

/-! ## Choices -/

/-- One permutation of the places for each block, read at every number. -/
def placesAt (h : Fin k → Perm m) (b : Nat) : Perm m :=
  if hb : b < k then h ⟨b, hb⟩ else 1

theorem placesAt_of_lt (h : Fin k → Perm m) {b : Nat} (hb : b < k) :
    placesAt h b = h ⟨b, hb⟩ :=
  dif_pos hb

@[simp] theorem placesAt_val (h : Fin k → Perm m) (block : Fin k) :
    placesAt h block = h block :=
  placesAt_of_lt h block.isLt

/-- First the places in each block are rearranged, and then the blocks move. -/
def assemble (q : Perm k) (h : Fin k → Perm m) : Perm (k * m) :=
  ((List.finRange k).map fun block => onBlock (h block) block).prod * q.blocks m

theorem movesBlocks_assemble (q : Perm k) (h : Fin k → Perm m) :
    MovesBlocks q (placesAt h) (assemble q h) := by
  have hplaces := movesBlocks_prod_onBlock (placesAt h) (List.nodup_finRange k)
  have hassembled := hplaces.mul (movesBlocks_blocks (m := m) q)
  simp only [placesAt_val, one_mul, mul_one] at hassembled
  apply hassembled.congr
  intro b hb
  exact if_pos ⟨⟨b, hb⟩, List.mem_finRange _, rfl⟩

/-- A permutation of points determines how it moves blocks that have places. -/
theorem MovesBlocks.determined (hm : 0 < m) {q q' : Perm k} {h h' : Nat → Perm m}
    {p : Perm (k * m)} (hp : MovesBlocks q h p) (hp' : MovesBlocks q' h' p) :
    q = q' ∧ ∀ b < k, h b = h' b := by
  have himages : ∀ b < k, ∀ l < m, q b = q' b ∧ h b l = h' b l := by
    intro b hb l hl
    have hboth : q b * m + h b l = q' b * m + h' b l := (hp b hb l hl).symm.trans (hp' b hb l hl)
    exact (block_inj ((h b).app_lt hl) ((h' b).app_lt hl)).mp hboth
  constructor
  · apply ext
    intro b hb
    exact (himages b hb 0 hm).1
  · intro b hb
    apply ext
    intro l hl
    exact (himages b hb l hl).2

/-! ## Counting -/

/-- The member of the wreath product that belongs to a choice of members. -/
def assembleMembers (H : Subgroup (Perm m)) (K : Subgroup (Perm k))
    (choice : (Fin k → H) × K) : blockwise H K where
  val := assemble choice.2 fun block => choice.1 block
  property := by
    refine ⟨choice.2, choice.2.property, _, ?_, movesBlocks_assemble _ _⟩
    intro b hb
    rw [placesAt_of_lt _ hb]
    exact (choice.1 ⟨b, hb⟩).property

theorem assembleMembers_injective (hm : 0 < m) (H : Subgroup (Perm m)) (K : Subgroup (Perm k)) :
    Function.Injective (assembleMembers H K) := by
  intro ⟨h, q⟩ ⟨h', q'⟩ heq
  have hsame : assemble (q : Perm k) (fun block => (h block : Perm m)) =
      assemble (q' : Perm k) fun block => (h' block : Perm m) := congrArg Subtype.val heq
  have hmoves := movesBlocks_assemble (q : Perm k) fun block => (h block : Perm m)
  rw [hsame] at hmoves
  obtain ⟨hblocks, hplaces⟩ := MovesBlocks.determined hm hmoves (movesBlocks_assemble _ _)
  have hh : h = h' := by
    funext block
    apply Subtype.ext
    simpa using hplaces block block.isLt
  rw [hh, Subtype.ext hblocks]

theorem assembleMembers_surjective (H : Subgroup (Perm m)) (K : Subgroup (Perm k)) :
    Function.Surjective (assembleMembers H K) := by
  intro ⟨p, hmember⟩
  obtain ⟨q, hq, h, hh, hp⟩ := hmember
  refine ⟨⟨fun block => ⟨h block, hh block block.isLt⟩, ⟨q, hq⟩⟩, ?_⟩
  apply Subtype.ext
  apply (movesBlocks_assemble _ _).eq
  apply hp.congr
  intro b hb
  rw [placesAt_of_lt _ hb]

theorem card_blockwise (hm : 0 < m) (H : Subgroup (Perm m)) (K : Subgroup (Perm k)) :
    Nat.card (blockwise H K) = Nat.card H ^ k * Nat.card K := by
  have hbijective : Function.Bijective (assembleMembers H K) :=
    ⟨assembleMembers_injective hm H K, assembleMembers_surjective H K⟩
  calc
    Nat.card (blockwise H K) = Nat.card ((Fin k → H) × K) :=
      (Nat.card_congr (Equiv.ofBijective _ hbijective)).symm
    _ = Nat.card (Fin k → H) * Nat.card K := Nat.card_prod _ _
    _ = Nat.card H ^ k * Nat.card K := by rw [Nat.card_fun, Nat.card_fin]

/-! ## The wreath product -/

theorem order_wreathProduct (H K : PermGroup) (hm : 0 < H.degree) :
    (wreathProduct H K).order = H.order ^ K.degree * K.order := by
  have hcard : (wreathProduct H K).order = Nat.card (blockwise H.members K.members) := by
    rw [order_eq_card, members_wreathProduct]
    rfl
  rw [hcard, card_blockwise hm, H.order_eq_card, K.order_eq_card]

/-- A permutation belongs to a wreath product exactly if it permutes the blocks by an
element of `K` and rearranges the places in each block by an element of `H`.  If
blocks have places, then the order counts these choices. -/
theorem wreathProduct_contains_iff_and_order (H K : PermGroup) :
    (∀ {n : Nat} (p : Perm n), (wreathProduct H K).contains p = true ↔
      n = K.degree * H.degree ∧ ∃ s : Perm K.degree, K.contains s = true ∧
        ∃ h : Fin K.degree → Perm H.degree, (∀ b, H.contains (h b) = true) ∧
          ∀ b : Fin K.degree, ∀ l < H.degree,
            p (b * H.degree + l) = s b * H.degree + h b l) ∧
    (0 < H.degree → (wreathProduct H K).order = H.order ^ K.degree * K.order) := by
  refine ⟨fun {n} p => ?_, order_wreathProduct H K⟩
  rw [contains_wreathProduct_iff rfl rfl]
  refine and_congr_right fun _ => exists_congr fun s => and_congr_right fun _ => ?_
  constructor
  · intro ⟨h, hh, hp⟩
    exact ⟨fun b => h b, fun b => hh b b.isLt, fun b => hp b b.isLt⟩
  · intro ⟨h, hh, hp⟩
    refine ⟨placesAt h, ?_, ?_⟩
    · intro b hb
      rw [placesAt_of_lt h hb]
      exact hh ⟨b, hb⟩
    · intro b hb l hl
      rw [placesAt_of_lt h hb]
      exact hp ⟨b, hb⟩ l hl

/-- Two of three blocks change places, and so do the places of the other one. -/
theorem wreathProduct_contains_iff_and_order_symmetric :
    let H := symmetric 2
    let K := symmetric 3
    let h := fun b : Fin K.degree => if b.val = 1 then swap H.degree 0 1 else 1
    let p := assemble (swap K.degree 0 2) h
    0 < H.degree ∧ (wreathProduct H K).order = 48 ∧ (wreathProduct H K).contains p = true ∧
      p.toList = [4, 5, 3, 2, 0, 1] := by
  intro H K h p
  obtain ⟨hcontains, horder⟩ := wreathProduct_contains_iff_and_order H K
  have hdegree : 0 < H.degree := by decide
  have horders : H.order ^ K.degree * K.order = 48 := by decide +kernel
  have hmember : (wreathProduct H K).contains p = true := by
    refine (hcontains p).mpr ⟨rfl, swap K.degree 0 2, by decide +kernel, h, ?_, ?_⟩
    · decide +kernel
    · decide +kernel
  exact ⟨hdegree, (horder hdegree).trans horders, hmember, by decide +kernel⟩

end PermGroup
end ProcessorSymmetry

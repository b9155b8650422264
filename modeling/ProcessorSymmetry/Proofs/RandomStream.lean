import Mathlib.RingTheory.ZMod.UnitsCyclic
import ProcessorSymmetry.RandomStream

/-!
# Draws come to an end

The states of a random stream are odd, and the multiplier of the generator is one more
than an odd multiple of four.  Hence the stream reaches all states that leave the same
remainder when they are divided by four, among them one whose word is zero.  No zone
refuses this word: numbers are drawn until one is accepted, and the bound on the
attempts is never met.
-/

namespace ProcessorSymmetry
namespace RandomStream

variable {width range zone : Nat} {stream : RandomStream}

/-! ## Powers of the multiplier -/

theorem orderOf_multiplier {a : Nat} (ha : a % 8 = 5) (n : Nat) :
    orderOf (a : ZMod (2 ^ (n + 2))) = 2 ^ n := by
  have hodd : Odd ((a / 4 : Nat) : Int) := by
    rw [Int.odd_coe_nat, Nat.odd_iff]
    omega
  have heq : a = 1 + 4 * (a / 4) := by omega
  rw [← ZMod.orderOf_one_add_four_mul _ hodd n]
  conv_lhs => rw [heq]
  rw [Int.cast_natCast]
  push_cast
  rfl

/-- The residues that leave one remainder when they are divided by four. -/
def residuesOf (n remainder : Nat) : Finset (ZMod (2 ^ (n + 2))) :=
  (Finset.range (2 ^ n)).image fun k => ((remainder % 4 + 4 * k : Nat) : ZMod (2 ^ (n + 2)))

theorem natCast_mem_residuesOf (n : Nat) {x y : Nat} (h : x % 4 = y % 4) :
    (x : ZMod (2 ^ (n + 2))) ∈ residuesOf n y := by
  have hpow : 2 ^ (n + 2) = 2 ^ n * 4 := pow_add 2 n 2
  have hlt : x % 2 ^ (n + 2) < 2 ^ n * 4 := hpow ▸ Nat.mod_lt _ (Nat.two_pow_pos _)
  have hremainder : x % 2 ^ (n + 2) % 4 = y % 4 := by
    rw [Nat.mod_mod_of_dvd _ (Dvd.intro_left _ hpow.symm), h]
  refine Finset.mem_image.mpr ⟨x % 2 ^ (n + 2) / 4, Finset.mem_range.mpr (by omega), ?_⟩
  rw [← hremainder, Nat.mod_add_div, ZMod.natCast_mod]

/-- The powers of the multiplier take an odd number to all those with its remainder. -/
theorem exists_mul_pow_modEq {a : Nat} (ha : a % 8 = 5) (n : Nat) {s t : Nat} (hs : s % 2 = 1)
    (hst : t % 4 = s % 4) : ∃ i < 2 ^ n, s * a ^ i ≡ t [MOD 2 ^ (n + 2)] := by
  let multiple : Nat → ZMod (2 ^ (n + 2)) := fun i => ((s * a ^ i : Nat) : ZMod (2 ^ (n + 2)))
  have hunit : IsUnit (s : ZMod (2 ^ (n + 2))) := by
    rw [ZMod.isUnit_iff_coprime]
    exact Nat.Coprime.pow_right _ (Nat.coprime_two_right.mpr (Nat.odd_iff.mpr hs))
  have hinjective : Set.InjOn multiple (Finset.range (2 ^ n)) := by
    intro i hi j hj heq
    simp only [multiple, Nat.cast_mul, Nat.cast_pow] at heq
    rw [Finset.coe_range, ← orderOf_multiplier ha n] at hi hj
    exact pow_injOn_Iio_orderOf hi hj (hunit.mul_left_cancel heq)
  have hsubset : (Finset.range (2 ^ n)).image multiple ⊆ residuesOf n s := by
    intro x hx
    obtain ⟨i, -, rfl⟩ := Finset.mem_image.mp hx
    refine natCast_mem_residuesOf n ?_
    rw [Nat.mul_mod, Nat.pow_mod, show a % 4 = 1 by omega, Nat.one_pow]
    omega
  have heq : (Finset.range (2 ^ n)).image multiple = residuesOf n s := by
    refine Finset.eq_of_subset_of_card_le hsubset ?_
    rw [Finset.card_image_of_injOn hinjective]
    exact Finset.card_image_le
  obtain ⟨i, hi, hmultiple⟩ := Finset.mem_image.mp (heq ▸ natCast_mem_residuesOf n hst)
  exact ⟨i, Finset.mem_range.mp hi, (ZMod.natCast_eq_natCast_iff _ _ _).mp hmultiple⟩

/-! ## Later states -/

/-- The stream after a number of words. -/
def after (stream : RandomStream) : Nat → RandomStream
  | 0 => stream
  | count + 1 => (stream.next.2).after count

/-- What the generator multiplies its state by. -/
def multiplier : BitVec 128 := 0x2360ED051FC65DA44385DF649FCCF645#128

theorem toNat_state_next (stream : RandomStream) :
    stream.next.2.state.toNat = stream.state.toNat * multiplier.toNat % 2 ^ 128 :=
  BitVec.toNat_mul _ _

theorem toNat_state_after (stream : RandomStream) (count : Nat) :
    (stream.after count).state.toNat = stream.state.toNat * multiplier.toNat ^ count % 2 ^ 128 := by
  induction count generalizing stream with
  | zero =>
      rw [after, pow_zero, Nat.mul_one, Nat.mod_eq_of_lt stream.state.isLt]
  | succ count ih =>
      rw [after, ih, toNat_state_next, Nat.mod_mul_mod, pow_succ' multiplier.toNat, Nat.mul_assoc]

/-- Equal halves of a state cancel out. -/
theorem folded_eq_zero {state : BitVec 128} {half : Nat} (hlt : half < 2 ^ 64)
    (h : state.toNat = half * 2 ^ 64 + half) :
    (state >>> 64).setWidth 64 ^^^ state.setWidth 64 = 0#64 := by
  have hfolded : (state >>> 64).setWidth 64 = state.setWidth 64 := by
    apply BitVec.eq_of_toNat_eq
    rw [BitVec.toNat_setWidth, BitVec.toNat_setWidth, BitVec.toNat_ushiftRight,
      Nat.shiftRight_eq_div_pow, h, Nat.mul_comm, Nat.mul_add_div (Nat.two_pow_pos 64),
      Nat.div_eq_of_lt hlt, Nat.add_zero, Nat.mul_add_mod]
  rw [hfolded, BitVec.xor_self]

theorem word_eq_zero {half : Nat} (hlt : half < 2 ^ 64)
    (h : stream.next.2.state.toNat = half * 2 ^ 64 + half) : stream.next.1 = 0#64 := by
  have hfolded := folded_eq_zero hlt h
  simp only [next] at hfolded ⊢
  rw [hfolded, BitVec.rotateRight_def, BitVec.zero_ushiftRight, BitVec.zero_shiftLeft,
    BitVec.or_self]

/-- The state is odd. -/
def IsOdd (stream : RandomStream) : Prop :=
  stream.state.toNat % 2 = 1

/-- The word zero follows every odd state. -/
theorem IsOdd.exists_word_eq_zero (hodd : stream.IsOdd) :
    ∃ count < 2 ^ 126, (stream.after count).next.1 = 0#64 := by
  let s := stream.state.toNat * multiplier.toNat
  have hs : s % 2 = 1 := by
    rw [Nat.mul_mod, show stream.state.toNat % 2 = 1 from hodd]
    rfl
  have hhalf : s % 4 < 2 ^ 64 := (Nat.mod_lt s (by decide)).trans (by decide)
  have htarget : (s % 4 * 2 ^ 64 + s % 4) % 4 = s % 4 := by omega
  obtain ⟨count, hcount, hmod⟩ :=
    exists_mul_pow_modEq (a := multiplier.toNat) (by decide) 126 hs htarget
  refine ⟨count, hcount, word_eq_zero hhalf ?_⟩
  rw [toNat_state_next, toNat_state_after, Nat.mod_mul_mod, Nat.mul_right_comm, hmod]
  exact Nat.mod_eq_of_lt (by omega)

/-! ## Draws until a word is accepted -/

/-- What the word of a stream gives for a range: the high half, and the low half that the
zone is compared with. -/
def halves (width range : Nat) (stream : RandomStream) : Nat × Nat :=
  let product := stream.next.1.toNat % (1 <<< width) * range
  (product >>> width, product % (1 <<< width))

/-- Words are drawn until the low half that one of them gives is in the zone. -/
inductive DrawsTo (width range zone : Nat) : RandomStream → Nat × RandomStream → Prop
  | accepted {stream : RandomStream} (hzone : (stream.halves width range).2 ≤ zone) :
      DrawsTo width range zone stream ((stream.halves width range).1, stream.next.2)
  | again {stream : RandomStream} {drawn : Nat × RandomStream}
      (hzone : ¬(stream.halves width range).2 ≤ zone)
      (later : DrawsTo width range zone stream.next.2 drawn) :
      DrawsTo width range zone stream drawn

theorem halves_of_word_eq_zero (h : stream.next.1 = 0#64) : stream.halves width range = (0, 0) := by
  simp [halves, h]

theorem attempt_succ (width range zone attempts : Nat) (stream : RandomStream) :
    attempt width range zone (attempts + 1) stream =
      if (stream.halves width range).2 ≤ zone then
        ((stream.halves width range).1, stream.next.2)
      else
        attempt width range zone attempts stream.next.2 :=
  rfl

/-- Attempts that reach the word zero end with a word that is accepted. -/
theorem drawsTo_attempt {attempts count : Nat} (hcount : count < attempts)
    (hzero : (stream.after count).next.1 = 0#64) :
    DrawsTo width range zone stream (attempt width range zone attempts stream) := by
  induction attempts generalizing stream count with
  | zero => omega
  | succ attempts ih =>
      rw [attempt_succ]
      split
      · rename_i hzone
        exact .accepted hzone
      · rename_i hzone
        cases count with
        | zero =>
            have hhalves : stream.halves width range = (0, 0) := halves_of_word_eq_zero hzero
            rw [hhalves] at hzone
            exact absurd (Nat.zero_le zone) hzone
        | succ count => exact .again hzone (ih (by omega) hzero)

theorem DrawsTo.lt {drawn : Nat × RandomStream} (h : DrawsTo width range zone stream drawn)
    (hrange : 0 < range) : drawn.1 < range := by
  induction h with
  | @accepted stream _ =>
      have hword : stream.next.1.toNat % (1 <<< width) < 2 ^ width := by
        rw [Nat.one_shiftLeft]
        exact Nat.mod_lt _ (Nat.two_pow_pos width)
      simp only [halves]
      rw [Nat.shiftRight_eq_div_pow]
      exact Nat.div_lt_of_lt_mul (Nat.mul_lt_mul_of_pos_right hword hrange)
  | again _ _ ih => exact ih

/-! ## Streams of seeds -/

theorem isOdd_ofSeed (seed : Nat) : (ofSeed seed).IsOdd := by
  rw [IsOdd, ofSeed, BitVec.toNat_or, Nat.or_mod_two_eq_one]
  exact .inr rfl

theorem IsOdd.next (h : stream.IsOdd) : stream.next.2.IsOdd := by
  rw [IsOdd, toNat_state_next, Nat.mod_mod_of_dvd _ (by decide), Nat.mul_mod, h]
  rfl

theorem DrawsTo.isOdd {drawn : Nat × RandomStream} (h : DrawsTo width range zone stream drawn)
    (hodd : stream.IsOdd) : drawn.2.IsOdd := by
  induction h with
  | accepted _ => exact hodd.next
  | again _ _ ih => exact ih hodd.next

/-- The products that are not drawn again have a low half up to here. -/
def acceptedZone (width range : Nat) : Nat :=
  (range <<< (width - 1 - range.log2)) - 1

/-- From an odd state on, a number is drawn without a bound on the attempts. -/
theorem IsOdd.drawsTo_below (h : stream.IsOdd) (width range : Nat) :
    DrawsTo width range (acceptedZone width range) stream (stream.below width range) := by
  obtain ⟨count, hcount, hzero⟩ := h.exists_word_eq_zero
  exact drawsTo_attempt (hcount.trans (by decide)) hzero

end RandomStream
end ProcessorSymmetry

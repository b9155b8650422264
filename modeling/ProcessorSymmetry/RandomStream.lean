/-!
# Reproducible random numbers

A stream of pseudo-random words is a function of its seed: a multiplicative congruential generator
on 128 bits whose states are folded to 64 bits and rotated by their leading bits.
-/

namespace ProcessorSymmetry

/-- A stream of random words, given by the state of its generator. -/
structure RandomStream where
  state : BitVec 128
  deriving DecidableEq

namespace RandomStream

/-- One step of the linear congruence that spreads a seed over the state. -/
def advanceSeed (seed : BitVec 64) : BitVec 64 :=
  seed * 6364136223846793005#64 + 11634580027462260723#64

/-- The 32 bits that a seed contributes: its folded high bits, rotated by its five leading bits. -/
def seedWord (seed : BitVec 64) : BitVec 32 :=
  ((((seed >>> 18) ^^^ seed) >>> 27).setWidth 32).rotateRight (seed >>> 59).toNat

/-- The stream of a seed. Four words fill the state, the first one at its low end, and the state is
made odd. -/
def ofSeed (seed : Nat) : RandomStream :=
  let s1 := advanceSeed (BitVec.ofNat 64 seed)
  let s2 := advanceSeed s1
  let s3 := advanceSeed s2
  let s4 := advanceSeed s3
  ⟨(seedWord s4 ++ seedWord s3 ++ seedWord s2 ++ seedWord s1) ||| 1#128⟩

/-- The next word of 64 bits. -/
def next (stream : RandomStream) : BitVec 64 × RandomStream :=
  let state := stream.state * 0x2360ED051FC65DA44385DF649FCCF645#128
  let folded := (state >>> 64).setWidth 64 ^^^ state.setWidth 64
  (folded.rotateRight (state >>> 122).toNat, ⟨state⟩)

/-- Draws words of `width` bits until the low half of `word * range` is at most `zone`, and answers
the high half. The generator returns to its first state after fewer than `2 ^ 128` draws, so that
many attempts are all there are. -/
def attempt (width range zone : Nat) : Nat → RandomStream → Nat × RandomStream
  | 0, stream => (0, stream)
  | attempts + 1, stream =>
    let (word, stream) := stream.next
    let product := word.toNat % (1 <<< width) * range
    if product % (1 <<< width) ≤ zone then
      (product >>> width, stream)
    else
      attempt width range zone attempts stream

/-- A number below `range`, each equally likely, drawn from words of `width` bits. Products whose
low half exceeds the largest multiple of `range` by a power of two are drawn again. -/
def below (width range : Nat) (stream : RandomStream) : Nat × RandomStream :=
  attempt width range ((range <<< (width - 1 - range.log2)) - 1) (1 <<< 128) stream

end RandomStream
end ProcessorSymmetry

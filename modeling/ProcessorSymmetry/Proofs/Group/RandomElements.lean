import ProcessorSymmetry.Proofs.Group.Elements
import ProcessorSymmetry.Proofs.RandomStream

/-!
# Random elements

For each level of the chain one orbit point is drawn, and the draws come to an end
whatever the seed is.  The random element is the one that belongs to these points.
-/

namespace ProcessorSymmetry

variable {n : Nat} {levels : List (Level n)} {stream : RandomStream} {points : List Nat}

namespace PermGroup

open Chain RandomStream

/-- One orbit point of each level, at a place that is drawn without a bound on the attempts. -/
inductive DrawnFrom : List (Level n) → RandomStream → List Nat → Prop
  | nil {stream : RandomStream} : DrawnFrom [] stream []
  | cons {level : Level n} {deeper : List (Level n)} {stream : RandomStream}
      {drawn : Nat × RandomStream} {x : Nat} {points : List Nat}
      (hdrawn : DrawsTo 64 level.orbitLength (acceptedZone 64 level.orbitLength) stream drawn)
      (hpoint : level.orbit[drawn.1]? = some x) (hdeeper : DrawnFrom deeper drawn.2 points) :
      DrawnFrom (level :: deeper) stream (x :: points)

theorem DrawnFrom.isChoice (h : DrawnFrom levels stream points) : IsChoice levels points := by
  induction h with
  | nil => exact .nil
  | cons _ hpoint _ ih => exact .cons (List.mem_of_getElem? hpoint) ih

theorem drawnFrom_drawPoints (h : ∀ level ∈ levels, 0 < level.orbitLength) (hodd : stream.IsOdd) :
    DrawnFrom levels stream (drawPoints levels stream) := by
  induction levels generalizing stream with
  | nil => exact .nil
  | cons level deeper ih =>
      obtain ⟨hlevel, hdeeper⟩ := List.forall_mem_cons.mp h
      have hdrawn := hodd.drawsTo_below 64 level.orbitLength
      have hplace : (stream.below 64 level.orbitLength).1 < level.orbit.length := by
        rw [Level.orbit, List.length_map]
        exact hdrawn.lt hlevel
      rw [drawPoints]
      refine .cons hdrawn ?_ (ih hdeeper (hdrawn.isOdd hodd))
      rw [List.getD_eq_getElem?_getD, List.getElem?_eq_getElem hplace, Option.getD_some]

/-- The random element that belongs to a seed is the one of the points that are drawn. -/
theorem exists_drawn_randomElement (G : PermGroup) (seed : Nat) :
    ∃ points, DrawnFrom G.chain.levels (.ofSeed seed) points ∧
      G.chain.element? points = some (G.randomElement seed) := by
  have hdrawn : DrawnFrom G.chain.levels (.ofSeed seed)
      (drawPoints G.chain.levels (.ofSeed seed)) :=
    drawnFrom_drawPoints G.isChainOf_members.orbitLength_pos (isOdd_ofSeed seed)
  obtain ⟨p, hp⟩ := hdrawn.isChoice.exists_elementThrough?
  refine ⟨_, hdrawn, ?_⟩
  rw [randomElement, Chain.element?, hp, Option.getD_some]

end PermGroup
end ProcessorSymmetry

import ProcessorSymmetry.Proofs.Group.IrredundantBase
import ProcessorSymmetry.Proofs.Mapping.ClassCount
import ProcessorSymmetry.Proofs.Mapping.OrbitEnumeration

/-!
# The length of an orbit

Members of a group leave a mapping as it is exactly if they fix all of its
processors.  In a chain whose base starts with these processors they are the group
of the first level after them.  Hence the levels of the processors alone tell how
many images the mapping has.
-/

namespace ProcessorSymmetry

open Perm

variable {n k : Nat} {H : Subgroup (Perm n)}

/-! ## Levels after the first ones -/

namespace Chain

variable {levels : List (Level n)}

/-- The levels after the first `k` belong to the members that fix the first `k` base
points. -/
theorem IsChainOf.drop_fixingAll (h : IsChainOf levels H) (k : Nat) :
    IsChainOf (levels.drop k) (H ⊓ fixingAll ((levels.map Level.base).take k)) := by
  induction h generalizing k with
  | nil =>
      rw [bot_inf_eq, List.drop_nil]
      exact .nil
  | cons orbit generators rest ih =>
      cases k with
      | zero =>
          rw [List.take_zero, fixingAll_nil, inf_top_eq]
          exact .cons orbit generators rest
      | succ k =>
          rw [List.map_cons, List.take_succ_cons, fixingAll_cons, ← inf_assoc]
          exact ih k

theorem orderOf_append (above below : List (Level n)) :
    orderOf (above ++ below) = (above.map Level.orbitLength).prod * orderOf below := by
  rw [orderOf, List.map_append]
  exact List.prod_append

/-- The orbits of the first `k` levels count the members up to those that fix the
first `k` base points. -/
theorem IsChainOf.card_eq_prod_mul (h : IsChainOf levels H) (k : Nat) :
    Nat.card H = ((levels.take k).map Level.orbitLength).prod *
      Nat.card ↥(H ⊓ fixingAll ((levels.map Level.base).take k)) := by
  rw [← (h.drop_fixingAll k).orderOf_eq, ← orderOf_append, List.take_append_drop, h.orderOf_eq]

end Chain

/-! ## Members that leave a mapping as it is -/

theorem imagesUnder_processorsOf (H : Subgroup (Perm n)) (f : Fin k → Fin n) :
    imagesUnder H (processorsOf f) = processorsOf '' MulAction.orbit H f := by
  ext image
  constructor
  · rintro ⟨p, hp, rfl⟩
    rw [permute_processorsOf]
    exact ⟨_, ⟨⟨p, hp⟩⁻¹, rfl⟩, rfl⟩
  · rintro ⟨f', hf', rfl⟩
    exact processorsOf_mem_imagesUnder_iff.mpr hf'

theorem mem_stabilizer_iff {f : Fin k → Fin n} {p : H} :
    p ∈ MulAction.stabilizer H f ↔ (p : Perm n) ∈ fixingAll (processorsOf f) := by
  rw [MulAction.mem_stabilizer_iff, funext_iff, mem_fixingAll, processorsOf]
  simp only [List.forall_mem_ofFn_iff]
  refine forall_congr' fun task => ?_
  rw [Pi.smul_apply, ← Fin.val_inj]
  exact (p : Perm n).inv_app_eq_iff.trans eq_comm

/-- There are as many images of a mapping as cosets of the members that fix its
processors. -/
theorem card_imagesUnder_mul {mapping : TaskMapping} (h : ∀ x ∈ mapping, x < n) :
    Nat.card (imagesUnder H mapping) * Nat.card ↥(H ⊓ fixingAll mapping) = Nat.card H := by
  obtain ⟨k, hlength⟩ : ∃ k, mapping.length = k := ⟨_, rfl⟩
  obtain ⟨f, rfl⟩ := exists_processorsOf_eq hlength h
  have hstabilizer : MulAction.stabilizer H f ≃ ↥(H ⊓ fixingAll (processorsOf f)) :=
    (Equiv.subtypeEquivRight fun _ => mem_stabilizer_iff).trans
      (Equiv.subtypeSubtypeEquivSubtypeInter (· ∈ H) (· ∈ fixingAll (processorsOf f)))
  calc
    Nat.card (imagesUnder H (processorsOf f)) * Nat.card ↥(H ⊓ fixingAll (processorsOf f)) =
        Nat.card (MulAction.orbit H f) * Nat.card (MulAction.stabilizer H f) := by
      rw [imagesUnder_processorsOf, Nat.card_image_of_injective processorsOf_injective,
        Nat.card_congr hstabilizer]
    _ = Nat.card H := by
      rw [← Nat.card_prod]
      exact Nat.card_congr (MulAction.orbitProdStabilizerEquivGroup H f)

namespace PermGroup

variable {G : PermGroup} {mapping : TaskMapping}

theorem length_imagesFound_mul (h : ∀ x ∈ mapping, x < G.degree) :
    (G.imagesFound mapping).length * Nat.card ↥(G.members ⊓ fixingAll mapping) = G.order := by
  have hcount : Nat.card (imagesUnder G.members mapping) = (G.imagesFound mapping).length := by
    rw [← Chain.card_mem_of_nodup (G.nodup_imagesFound mapping)]
    exact Nat.card_congr (Equiv.subtypeEquivRight fun _ => (mem_imagesFound_iff h).symm)
  rw [← hcount, card_imagesUnder_mul h, order_eq_card]

/-- A mapping has as many images as the orbits of the first levels have points
together, one factor for each level, in a chain whose base starts with the
processors of the mapping in the order of their first occurrence. -/
theorem length_orbit_eq_prod (G : PermGroup) {mapping : TaskMapping}
    (h : ∀ x ∈ mapping, x < G.degree) :
    let points := mapping.eraseDups
    ∃ images c, (OrbitWalk.start mapping).Yields G.generators images ∧
      G.orbit mapping = .ok images ∧ G.chainWithBase points = .ok c ∧
      (c.levels.take points.length).map Level.base = points ∧
      images.length = ((c.levels.take points.length).map Level.orbitLength).prod := by
  intro points
  have hpoints : ∀ x ∈ points, x < G.degree := fun x hx => h x (List.mem_eraseDups.mp hx)
  obtain ⟨c, hc, hchain, hbase⟩ := G.exists_chainWithBase hpoints
  rw [eraseDups_of_nodup (eraseDups_nodup mapping)] at hbase
  have htake : (c.levels.map Level.base).take points.length = points :=
    (List.prefix_iff_eq_take.mp hbase).symm
  refine ⟨G.imagesFound mapping, c, yields_imagesFound h, orbit_eq h, hc, ?_, ?_⟩
  · rw [List.map_take]
    exact htake
  · have hfixing : (fixingAll points : Subgroup (Perm G.degree)) = fixingAll mapping := by
      ext p
      simp [points, List.mem_eraseDups]
    have horder := hchain.card_eq_prod_mul points.length
    rw [htake, hfixing, ← order_eq_card, ← length_imagesFound_mul h] at horder
    exact Nat.eq_of_mul_eq_mul_right Nat.card_pos horder

/-- In the group of a square two neighbours have eight images: four places for the
first one, and two for the second one then. -/
theorem length_orbit_eq_prod_square :
    let G := generatedBy [rotation 4 0, swap 4 1 3]
    (∀ x ∈ [1, 0, 1], x < G.degree) ∧
      ∃ images c, G.orbit [1, 0, 1] = .ok images ∧ G.chainWithBase [1, 0] = .ok c ∧
        (c.levels.take 2).map Level.base = [1, 0] ∧
        images.length = ((c.levels.take 2).map Level.orbitLength).prod ∧
        images.length = 8 := by
  intro G
  have h : ∀ x ∈ [1, 0, 1], x < G.degree := by decide
  obtain ⟨images, c, -, horbit, hc, hbase, hlength⟩ := length_orbit_eq_prod G h
  have hcount : (G.orbit [1, 0, 1]).map List.length = .ok 8 := by decide +kernel
  rw [horbit] at hcount
  exact ⟨h, images, c, horbit, hc, hbase, hlength, Except.ok.inj hcount⟩

end PermGroup
end ProcessorSymmetry

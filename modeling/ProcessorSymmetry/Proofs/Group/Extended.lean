import ProcessorSymmetry.Group.Product
import ProcessorSymmetry.Proofs.Group.Equality

/-!
# Groups on larger domains

A group that is moved to a larger domain has the same elements as before, each of
them fixing all new points.  Only the generators are checked for room in the new
domain.  A smaller domain is therefore refused, unless there are no generators.
-/

namespace ProcessorSymmetry

namespace Perm

variable {m n : Nat}

theorem shift_zero_app (p : Perm m) (h : 0 + m ≤ n) (x : Nat) : p.shift 0 n h x = p x := by
  by_cases hx : x < n
  · rw [shift_app p h hx, if_pos (Nat.zero_le x), Nat.zero_add, Nat.sub_zero]
  · rw [app_of_le _ (Nat.not_lt.mp hx), app_of_le p (by omega)]

/-- If every permutation of a list acts like one of another list, then what is generated
acts like something that the other list generates. -/
theorem exists_generated_of_acts_alike {ps : List (Perm m)} {qs : List (Perm n)}
    (h : ∀ p ∈ ps, ∃ q ∈ qs, ∀ x, q x = p x) {p : Perm m} (hp : p ∈ generated ps) :
    ∃ q ∈ generated qs, ∀ x, q x = p x := by
  refine generated_induction (P := fun p => ∃ q ∈ generated qs, ∀ x, q x = p x) ?_ ?_ hp
  · exact ⟨1, Subgroup.one_mem _, by simp⟩
  · intro p ⟨q, hq, hqp⟩ g hg
    obtain ⟨k, hk, hkg⟩ := h g hg
    refine ⟨q * k, Subgroup.mul_mem _ hq (subset_generated hk), fun x => ?_⟩
    rw [mul_app, mul_app, hqp, hkg]

end Perm

namespace PermGroup

open Perm

variable {G H : PermGroup} {n : Nat}

/-! ## Elements that act alike -/

/-- Every member of `G` acts like a member of `H`, which may have another degree. -/
def ActsWithin (G H : PermGroup) : Prop :=
  ∀ p ∈ G.members, ∃ q ∈ H.members, ∀ x, q x = p x

theorem actsWithin_of_generators
    (h : ∀ p ∈ G.generators, ∃ q ∈ H.generators, ∀ x, q x = p x) : G.ActsWithin H :=
  fun _ hp => exists_generated_of_acts_alike h hp

/-- Different members act differently, so that there are no more of them. -/
theorem ActsWithin.order_le (h : G.ActsWithin H) : G.order ≤ H.order := by
  choose image hmem hacts using h
  rw [order_eq_card, order_eq_card]
  apply Nat.card_le_card_of_injective fun p : G.members => (⟨image p p.2, hmem p p.2⟩ : H.members)
  intro p q hpq
  apply Subtype.ext
  apply ext
  intro x _
  rw [← hacts p p.2, ← hacts q q.2, Subtype.mk.inj hpq]

/-- Groups whose members act alike have the same elements up to their degrees. -/
theorem ActsWithin.contains_iff (hHG : H.ActsWithin G) (hGH : G.ActsWithin H) {m : Nat}
    {p : Perm m} : H.contains p = true ↔
      m = H.degree ∧ ∃ q : Perm G.degree, G.contains q = true ∧ ∀ x, p x = q x := by
  constructor
  · intro hp
    obtain rfl := degree_eq_of_contains hp
    obtain ⟨q, hq, hacts⟩ := hHG p (H.contains_iff_mem.mp hp)
    exact ⟨rfl, q, G.contains_iff_mem.mpr hq, fun x => (hacts x).symm⟩
  · rintro ⟨rfl, q, hq, hacts⟩
    obtain ⟨r, hr, hsame⟩ := hGH q (G.contains_iff_mem.mp hq)
    obtain rfl : r = p := ext fun x _ => (hsame x).trans (hacts x).symm
    exact H.contains_iff_mem.mpr hr

/-! ## Moving the generators -/

theorem extended_of_le (h : 0 + G.degree ≤ n) :
    G.extended n = .ok (generatedBy (G.generators.map (·.shift 0 n h))) := by
  have hgenerator : (fun g : Perm G.degree => g.extended n) = fun g => pure (g.shift 0 n h) := by
    funext g
    exact dif_pos h
  rw [extended, hgenerator, List.mapM_pure]
  rfl

theorem extended_of_generators_nil (h : G.generators = []) : G.extended n = .ok (trivial n) := by
  rw [extended, h]
  rfl

/-- The first generator is refused. -/
theorem extended_of_lt (hn : n < G.degree) (h : G.generators ≠ []) :
    G.extended n = .error (.degreeMismatch n G.degree) := by
  obtain ⟨g, rest, hgenerators⟩ := List.exists_cons_of_ne_nil h
  have hg : g.extended n = .error (.degreeMismatch n (0 + G.degree)) :=
    dif_neg (by omega)
  rw [extended, hgenerators, List.mapM_cons, hg, Nat.zero_add]
  rfl

/-- A group is moved to a domain that is large enough, and one without generators to any
domain.  Its elements stay what they were. -/
theorem exists_extended (h : G.degree ≤ n ∨ G.generators = []) :
    ∃ H, G.extended n = .ok H ∧ H.degree = n ∧ H.ActsWithin G ∧ G.ActsWithin H := by
  rcases h with hle | hnil
  · have hroom : 0 + G.degree ≤ n := by rwa [Nat.zero_add]
    refine ⟨_, extended_of_le hroom, rfl, actsWithin_of_generators ?_, actsWithin_of_generators ?_⟩
    · intro p hp
      obtain ⟨g, hg, rfl⟩ := List.mem_map.mp hp
      exact ⟨g, hg, fun x => (shift_zero_app g _ x).symm⟩
    · intro g hg
      exact ⟨_, List.mem_map_of_mem hg, shift_zero_app g _⟩
  · refine ⟨_, extended_of_generators_nil hnil, rfl, actsWithin_of_generators ?_,
      actsWithin_of_generators ?_⟩
    · intro p hp
      cases hp
    · rw [hnil]
      intro p hp
      cases hp

/-- A group is refused for a domain smaller than its own exactly if it has generators.
Otherwise the result has the new degree, the same order, and as elements those of the
group, continued by fixing all new points. -/
theorem extended_continues_elements (G : PermGroup) (n : Nat) :
    (∀ cause, G.extended n = .error cause ↔
      (n < G.degree ∧ G.generators ≠ []) ∧ cause = .degreeMismatch n G.degree) ∧
    (G.degree ≤ n ∨ G.generators = [] → ∃ H, G.extended n = .ok H ∧ H.degree = n ∧
      H.order = G.order ∧ ∀ {m : Nat} (p : Perm m), H.contains p = true ↔
        m = n ∧ ∃ q : Perm G.degree, G.contains q = true ∧ ∀ x, p x = q x) := by
  constructor
  · intro cause
    constructor
    · intro hrefused
      by_cases h : G.degree ≤ n ∨ G.generators = []
      · obtain ⟨H, hH, -⟩ := exists_extended h
        rw [hH] at hrefused
        cases hrefused
      · rw [not_or, Nat.not_le] at h
        rw [extended_of_lt h.1 h.2] at hrefused
        exact ⟨h, (Except.error.inj hrefused).symm⟩
    · rintro ⟨⟨hn, hgenerators⟩, rfl⟩
      exact extended_of_lt hn hgenerators
  · intro h
    obtain ⟨H, hH, rfl, hHG, hGH⟩ := exists_extended h
    exact ⟨H, hH, rfl, hHG.order_le.antisymm hGH.order_le, fun p => hHG.contains_iff hGH⟩

/-- The rotations of three points on a domain of five points, and no room for them on
two points. -/
theorem extended_continues_elements_rotation :
    let G := generatedBy [rotation 3 0]
    G.extended 2 = .error (.degreeMismatch 2 3) ∧ G.degree ≤ 5 ∧
      ∃ H, G.extended 5 = .ok H ∧ H.degree = 5 ∧ H.order = 3 ∧
        H.contains ((rotation 3 0).shift 0 5 (by decide)) = true ∧
        H.contains (rotation 5 2) = false := by
  intro G
  have horder : G.order = 3 := by decide +kernel
  obtain ⟨hrefused, hmoved⟩ := extended_continues_elements G 5
  obtain ⟨H, hH, hdegree, hHorder, hcontains⟩ := hmoved (.inl (by decide))
  refine ⟨((extended_continues_elements G 2).1 _).mpr ⟨by decide, rfl⟩, by decide, H, hH, hdegree,
    hHorder.trans horder, ?_, ?_⟩
  · exact (hcontains _).mpr ⟨rfl, rotation 3 0, by decide +kernel, shift_zero_app _ _⟩
  · rw [Bool.eq_false_iff]
    intro hmember
    obtain ⟨-, q, -, hacts⟩ := (hcontains _).mp hmember
    have hfour := hacts 4
    rw [q.app_of_le (by decide)] at hfour
    exact absurd hfour (by decide)

/-- A group of four points without generators is accepted for a domain of three points,
although the same group is refused if the identity is given as a generator. -/
theorem trivial_extended_smaller :
    let G := trivial 4
    let H := generatedBy [(1 : Perm 4)]
    3 < G.degree ∧ G.extended 3 = .ok (trivial 3) ∧ G.same H = true ∧
      H.extended 3 = .error (.degreeMismatch 3 4) := by
  intro G H
  exact ⟨by decide, rfl, by decide +kernel, extended_of_lt (by decide) (by decide)⟩

end PermGroup
end ProcessorSymmetry

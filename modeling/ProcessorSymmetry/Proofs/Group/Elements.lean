import ProcessorSymmetry.Group.Elements
import ProcessorSymmetry.Group.Enumeration
import ProcessorSymmetry.Proofs.Group.Membership

/-!
# Elements of a group

Every member of a group is the product of one representative per level in exactly
one way.  Hence the products of all choices list every member once.  An enumeration
goes through the choices in the same order as the list, and ends after the last one.
-/

namespace ProcessorSymmetry

open Perm

variable {n : Nat} {H : Subgroup (Perm n)} {level : Level n} {levels deeper : List (Level n)}

namespace Chain

/-! ## Choices of orbit points -/

/-- One orbit point of each level. -/
def IsChoice (levels : List (Level n)) (points : List Nat) : Prop :=
  List.Forall₂ (fun level x => x ∈ level.orbit) levels points

instance (levels : List (Level n)) (points : List Nat) : Decidable (IsChoice levels points) :=
  inferInstanceAs (Decidable (List.Forall₂ _ levels points))

/-- A product of one representative per level is a member, whichever orbit
points are asked for. -/
theorem IsChainOf.elementThrough?_mem (h : IsChainOf levels H) (points : List Nat)
    {p : Perm n} (hp : elementThrough? levels points = some p) : p ∈ H := by
  induction h generalizing points p with
  | nil =>
      simp only [elementThrough?, Option.some.injEq] at hp
      exact hp ▸ Subgroup.one_mem _
  | @cons level deeper H orbit _ rest ih =>
      cases points with
      | nil =>
          simp only [elementThrough?, Option.some.injEq] at hp
          exact hp ▸ H.one_mem
      | cons x points =>
          simp only [elementThrough?, Option.bind_eq_bind, Option.bind_eq_some_iff,
            Option.pure_def, Option.some.injEq] at hp
          obtain ⟨u, hu, q, hq, rfl⟩ := hp
          obtain ⟨back, hback, rfl⟩ := Option.map_eq_some_iff.mp hu
          have hbackMem : back ∈ H := (orbit.toBase?_spec hback).1
          exact H.mul_mem (ih points hq).1 (H.inv_mem hbackMem)

theorem elementThrough?_cons_eq_some_iff {x : Nat} {points : List Nat} {p : Perm n} :
    elementThrough? (level :: deeper) (x :: points) = some p ↔
      ∃ t q, level.toBase? x = some t ∧ elementThrough? deeper points = some q ∧
        p = q * t⁻¹ := by
  simp only [elementThrough?, Level.representative?, Option.bind_eq_bind,
    Option.bind_eq_some_iff, Option.map_eq_some_iff, Option.pure_def, Option.some.injEq]
  constructor
  · rintro ⟨_, ⟨t, ht, rfl⟩, q, hq, rfl⟩
    exact ⟨t, q, ht, hq, rfl⟩
  · rintro ⟨t, q, ht, hq, rfl⟩
    exact ⟨_, ⟨t, ht, rfl⟩, q, hq, rfl⟩

/-- Every choice of orbit points has a product. -/
theorem IsChoice.exists_elementThrough? {points : List Nat} (h : IsChoice levels points) :
    ∃ p, elementThrough? levels points = some p := by
  induction h with
  | nil => exact ⟨1, rfl⟩
  | cons hx _ ih =>
      obtain ⟨t, ht⟩ := Level.exists_toBase? hx
      obtain ⟨q, hq⟩ := ih
      exact ⟨_, elementThrough?_cons_eq_some_iff.mpr ⟨t, q, ht, hq, rfl⟩⟩

/-- The products of one representative per level for all choices, deepest level first. -/
def products : List (Level n) → List (Perm n)
  | [] => [1]
  | level :: deeper => level.representatives.flatMap fun u => (products deeper).map (· * u)

/-- Only the first entries of each block matter for the first entries of all blocks. -/
theorem take_flatMap_of_le {α β : Type} (f : α → List β) (xs : List α) {k count : Nat}
    (hk : k ≤ count) :
    (xs.flatMap fun x => (f x).take count).take k = (xs.flatMap f).take k := by
  induction xs generalizing k with
  | nil => rfl
  | cons x xs ih =>
      have hrest : k - ((f x).take count).length = k - (f x).length := by
        rw [List.length_take]
        omega
      rw [List.flatMap_cons, List.flatMap_cons, List.take_append, List.take_append,
        List.take_take, Nat.min_eq_left hk, hrest, ih (by omega)]

theorem firstProducts_eq (count : Nat) (levels : List (Level n)) :
    firstProducts count levels = (products levels).take count := by
  induction levels with
  | nil =>
      cases count with
      | zero => rfl
      | succ count => simp [firstProducts, products]
  | cons level deeper ih =>
      rw [firstProducts_cons, ih, products]
      simp only [List.map_take]
      exact take_flatMap_of_le _ _ le_rfl

theorem length_products (levels : List (Level n)) :
    (products levels).length = orderOf levels := by
  induction levels with
  | nil => rfl
  | cons level deeper ih =>
      rw [products, List.length_flatMap]
      simp [ih, Level.representatives, orderOf, Level.orbitLength, Function.comp_def]

theorem mem_products_cons_iff {p : Perm n} :
    p ∈ products (level :: deeper) ↔
      ∃ x t, (x, t) ∈ level.transversal ∧ ∃ q ∈ products deeper, p = q * t⁻¹ := by
  simp only [products, Level.representatives, List.mem_flatMap, List.mem_map]
  constructor
  · rintro ⟨_, ⟨⟨x, t⟩, ht, rfl⟩, q, hq, rfl⟩
    exact ⟨x, t, ht, q, hq, rfl⟩
  · rintro ⟨x, t, ht, q, hq, rfl⟩
    exact ⟨_, ⟨⟨x, t⟩, ht, rfl⟩, q, hq, rfl⟩

theorem IsChainOf.mem_products_iff (h : IsChainOf levels H) {p : Perm n} :
    p ∈ products levels ↔ p ∈ H := by
  induction h generalizing p with
  | nil => simp [products]
  | @cons level deeper H orbit _ rest ih =>
      rw [mem_products_cons_iff]
      constructor
      · rintro ⟨x, t, ht, q, hq, rfl⟩
        exact H.mul_mem (ih.mp hq).1 (H.inv_mem (orbit.back x t ht).1)
      · intro hp
        obtain ⟨t, ht⟩ := Level.mem_orbit_iff_exists.mp (orbit.complete p hp)
        obtain ⟨htH, htx⟩ := orbit.back _ t ht
        refine ⟨_, t, ht, p * t, ih.mpr ⟨H.mul_mem hp htH, ?_⟩, ?_⟩
        · change (p * t) level.base = level.base
          rw [mul_app, htx]
        · rw [mul_inv_cancel_right]

/-- Products whose last factors belong to different orbit points are different,
since they take the base point to these points. -/
theorem IsChainOf.nodup_products (h : IsChainOf levels H) : (products levels).Nodup := by
  induction h with
  | nil => exact List.nodup_singleton 1
  | @cons level deeper H orbit _ rest ih =>
      rw [products, Level.representatives, List.flatMap_map, List.nodup_flatMap]
      refine ⟨fun entry _ => ih.map (mul_left_injective _), ?_⟩
      have hentries := List.pairwise_map.mp orbit.nodup
      refine hentries.imp_of_mem fun {a b} ha hb hab => ?_
      have himage : ∀ entry ∈ level.transversal, ∀ q ∈ products deeper,
          (q * entry.2⁻¹) level.base = entry.1 := by
        intro entry hentry q hq
        have hfix : q level.base = level.base := (rest.mem_products_iff.mp hq).2
        rw [mul_app, hfix, inv_app_eq_iff, (orbit.back entry.1 entry.2 hentry).2]
      rw [Function.onFun, List.disjoint_left]
      intro p hpa hpb
      obtain ⟨q, hq, rfl⟩ := List.mem_map.mp hpa
      obtain ⟨r, hr, hsame⟩ := List.mem_map.mp hpb
      apply hab
      rw [← himage a ha q hq, ← hsame, himage b hb r hr]

/-- The states of a run that starts with one state and takes steps until there is
none left. -/
inductive IsRun {σ : Type} (step : σ → Option σ) : σ → List σ → Prop
  | last {s : σ} (done : step s = none) : IsRun step s [s]
  | step {s t : σ} {states : List σ} (next : step s = some t) (rest : IsRun step t states) :
      IsRun step s (s :: states)

/-- While the later places move on, the first place stays, and then it moves on. -/
theorem IsRun.cons {places : List Nat} {states more : List (List Nat)} {i : Nat}
    (h : IsRun (nextPlaces? deeper) places states)
    (hmove : i + 1 < level.orbitLength →
      IsRun (nextPlaces? (level :: deeper)) ((i + 1) :: firstPlaces deeper) more)
    (hstop : level.orbitLength ≤ i + 1 → more = []) :
    IsRun (nextPlaces? (level :: deeper)) (i :: places) (states.map (i :: ·) ++ more) := by
  induction h with
  | @last places hdone =>
      by_cases hlt : i + 1 < level.orbitLength
      · refine .step (t := (i + 1) :: firstPlaces deeper) ?_ (hmove hlt)
        simp only [nextPlaces?, hdone, if_pos hlt]
      · rw [hstop (Nat.not_lt.mp hlt)]
        refine .last ?_
        simp only [nextPlaces?, hdone, if_neg hlt]
  | @step places next states hnext _ ih =>
      refine .step (t := i :: next) ?_ ih
      simp only [nextPlaces?, hnext]

/-- The answers of an enumeration until it remembers nothing.  From then on no call
is answered with an element. -/
inductive Yields (c : Chain n) : Option (List Nat) → List (Perm n) → Prop
  | done : Yields c none []
  | next {state rest : Option (List Nat)} {p : Perm n} {answers : List (Perm n)}
      (answer : c.nextElement state = (some p, rest)) (others : Yields c rest answers) :
      Yields c state (p :: answers)

theorem IsChainOf.orbitLength_pos (h : IsChainOf levels H) :
    ∀ level ∈ levels, 0 < level.orbitLength := by
  induction h with
  | nil => simp
  | cons orbit _ _ ih => exact List.forall_mem_cons.mpr ⟨orbit.orbitLength_pos, ih⟩

end Chain

namespace PermGroup

open Chain

variable {G : PermGroup}

theorem elements_eq (G : PermGroup) : G.elements = products G.chain.levels := by
  rw [elements, firstElements, firstProducts_eq, order, Chain.order, ← length_products,
    List.take_length]

theorem nodup_elements (G : PermGroup) : G.elements.Nodup := by
  rw [elements_eq]
  exact G.isChainOf_members.nodup_products

theorem mem_elements_iff {p : Perm G.degree} : p ∈ G.elements ↔ p ∈ G.members := by
  rw [elements_eq, G.isChainOf_members.mem_products_iff]

end PermGroup
end ProcessorSymmetry

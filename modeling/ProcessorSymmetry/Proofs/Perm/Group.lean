import Mathlib.GroupTheory.OrderOfElement
import ProcessorSymmetry.Perm.Images

/-!
# The group of permutations of a degree

Permutations of one degree form a finite group, and a list of them generates a
subgroup.  Because the group is finite, the members of that subgroup are the
finite products of the listed permutations, without any inverses.
-/

namespace ProcessorSymmetry
namespace Perm

variable {n : Nat}

instance : Group (Perm n) where
  mul_assoc p q r := by
    apply ext
    intro x _
    simp only [mul_app]
  one_mul p := by
    apply ext
    intro x _
    rw [mul_app, one_app]
  mul_one p := by
    apply ext
    intro x _
    rw [mul_app, one_app]
  inv_mul_cancel p := by
    apply ext
    intro x _
    rw [mul_app, app_inv_app, one_app]

theorem inv_app_eq_iff (p : Perm n) {x y : Nat} : p⁻¹ x = y ↔ x = p y := by
  constructor
  · rintro rfl
    rw [app_inv_app]
  · rintro rfl
    rw [inv_app_app]

instance : Finite (Perm n) := by
  refine Finite.of_injective (fun (p : Perm n) (i : Fin n) => p.images[i]) ?_
  intro p q hpq
  apply ext
  intro x hx
  have hget : p.images[(⟨x, hx⟩ : Fin n)] = q.images[(⟨x, hx⟩ : Fin n)] :=
    congrFun hpq ⟨x, hx⟩
  rw [app_of_lt p hx, app_of_lt q hx]
  exact congrArg Fin.val hget

theorem firstMoved?_eq_some {p : Perm n} {x : Nat} (h : p.firstMoved? = some x) :
    x < n ∧ p x ≠ x := by
  have hmem := List.mem_of_find?_eq_some h
  have hmoved := List.find?_some h
  exact ⟨List.mem_range.mp hmem, by simpa using hmoved⟩

theorem firstMoved?_eq_none_iff {p : Perm n} : p.firstMoved? = none ↔ p = 1 := by
  rw [firstMoved?, List.find?_eq_none]
  constructor
  · intro h
    apply ext
    intro x hx
    simpa using h x (List.mem_range.mpr hx)
  · rintro rfl
    simp

theorem toList_injective : Function.Injective (toList : Perm n → List Nat) := by
  intro p q hpq
  apply ext
  intro x hx
  exact List.map_inj_left.mp hpq x (List.mem_range.mpr hx)

/-! ## Generated subgroups -/

/-- The subgroup that the listed permutations generate. -/
def generated (generators : List (Perm n)) : Subgroup (Perm n) :=
  Subgroup.closure {g | g ∈ generators}

theorem subset_generated {generators : List (Perm n)} {g : Perm n}
    (hg : g ∈ generators) : g ∈ generated generators :=
  Subgroup.subset_closure hg

theorem generated_le {generators : List (Perm n)} {H : Subgroup (Perm n)} :
    generated generators ≤ H ↔ ∀ g ∈ generators, g ∈ H :=
  Subgroup.closure_le H

theorem generated_mono {gs hs : List (Perm n)} (h : ∀ g ∈ gs, g ∈ hs) :
    generated gs ≤ generated hs :=
  generated_le.mpr fun g hg => subset_generated (h g hg)

@[simp] theorem generated_nil : generated ([] : List (Perm n)) = ⊥ := by
  simp [generated]

/-- Members of a generated subgroup are reached from the identity by multiplying
with generators from the right. -/
theorem generated_induction {generators : List (Perm n)} {P : Perm n → Prop}
    (one : P 1) (mul : ∀ p, P p → ∀ g ∈ generators, P (p * g))
    {p : Perm n} (hp : p ∈ generated generators) : P p := by
  have hclosure : p ∈ Submonoid.closure {g | g ∈ generators} := by
    rw [← Subgroup.closure_toSubmonoid_of_finite]
    exact hp
  clear hp
  induction hclosure using Submonoid.closure_induction_right with
  | one => exact one
  | mul_right p _ g hg ih => exact mul p ih g hg

/-- A permutation is a product of listed ones if it is what some word over the
list multiplies out to. -/
def IsProductOf (generators : List (Perm n)) (p : Perm n) : Prop :=
  ∃ word : List (Perm n), (∀ g ∈ word, g ∈ generators) ∧ word.prod = p

theorem mem_generated_iff {generators : List (Perm n)} {p : Perm n} :
    p ∈ generated generators ↔ IsProductOf generators p := by
  constructor
  · apply generated_induction
    · exact ⟨[], by simp, rfl⟩
    · rintro q ⟨word, hword, rfl⟩ g hg
      refine ⟨word ++ [g], ?_, by simp⟩
      intro h hh
      rcases List.mem_append.mp hh with hh | hh
      · exact hword h hh
      · rwa [List.mem_singleton.mp hh]
  · rintro ⟨word, hword, rfl⟩
    exact Subgroup.list_prod_mem _ fun g hg => subset_generated (hword g hg)

/-! ## Point stabilizers -/

/-- The permutations that fix a point. -/
def fixing (x : Nat) : Subgroup (Perm n) where
  carrier := {p | p x = x}
  one_mem' := one_app x
  mul_mem' := by
    intro p q hp hq
    change (p * q) x = x
    rw [mul_app, hp, hq]
  inv_mem' := by
    intro p hp
    change p⁻¹ x = x
    rw [inv_app_eq_iff, hp]

@[simp] theorem mem_fixing {x : Nat} {p : Perm n} : p ∈ fixing x ↔ p x = x :=
  Iff.rfl

end Perm
end ProcessorSymmetry

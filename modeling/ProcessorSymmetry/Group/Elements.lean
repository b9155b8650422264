import ProcessorSymmetry.Group.Basic

/-!
# Elements of a group

Every element is a product of one representative per level of the chain. The elements are listed so
that the representative of the deepest level varies fastest, which puts the identity first.
-/

namespace ProcessorSymmetry

variable {n : Nat}

/-- For each orbit point in order a permutation that takes the base point to it. -/
def Level.representatives (level : Level n) : List (Perm n) :=
  level.transversal.map (·.2⁻¹)

/-- Of blocks of one length, the first `count / size + 1` hold the first `count` entries. -/
theorem take_flatMap_take {α β : Type} {f : α → List β} {size : Nat}
    (hf : ∀ x, (f x).length = size) (xs : List α) (count : Nat) :
    ((xs.take (count / size + 1)).flatMap f).take count = (xs.flatMap f).take count := by
  induction xs generalizing count with
  | nil => simp
  | cons x xs ih =>
    rw [List.take_succ_cons, List.flatMap_cons, List.flatMap_cons, List.take_append,
      List.take_append, hf]
    congr 1
    by_cases h : size ≤ count
    · by_cases hsize : size = 0
      · subst hsize
        have hnil : ∀ ys : List α, ys.flatMap f = [] := by
          intro ys
          rw [List.flatMap_eq_nil_iff]
          exact fun y _ => List.eq_nil_of_length_eq_zero (hf y)
        simp [hnil]
      · rw [Nat.div_eq_sub_div (Nat.pos_of_ne_zero hsize) h]
        exact ih (count - size)
    · simp [Nat.sub_eq_zero_of_le (Nat.le_of_lt (Nat.lt_of_not_le h))]

/-- The first products of one representative per level, the deepest level first. A level uses no
more representatives than `count` products need. -/
def Chain.firstProducts (count : Nat) : List (Level n) → List (Perm n)
  | [] => if count = 0 then [] else [1]
  | level :: deeper =>
    let products := firstProducts count deeper
    let needed := level.representatives.take (count / products.length + 1)
    (needed.flatMap fun u => products.map (· * u)).take count

theorem Chain.firstProducts_cons (count : Nat) (level : Level n) (deeper : List (Level n)) :
    firstProducts count (level :: deeper) =
      (level.representatives.flatMap fun u => (firstProducts count deeper).map (· * u)).take
        count := by
  rw [firstProducts]
  exact take_flatMap_take (fun u => by simp) _ _

namespace PermGroup

/-- The first elements of the group. -/
def firstElements (G : PermGroup) (count : Nat) : List (Perm G.degree) :=
  Chain.firstProducts count G.chain.levels

/-- All elements of the group. -/
def elements (G : PermGroup) : List (Perm G.degree) :=
  G.firstElements G.order

end PermGroup
end ProcessorSymmetry

/-!
# Sorting and comparing

Lists are sorted by a comparison of their entries, where those that compare equal keep their order.
Pairs are compared by their first entries, then by their second ones.
-/

namespace ProcessorSymmetry

variable {α : Type}

/-- The entries in ascending order. -/
def sortBy (cmp : α → α → Ordering) (entries : List α) : List α :=
  entries.mergeSort fun a b => (cmp a b).isLE

/-- Sorting rearranges the entries. -/
theorem sortBy_perm (cmp : α → α → Ordering) (entries : List α) :
    (sortBy cmp entries).Perm entries :=
  List.mergeSort_perm entries _

/-- One of two entries is not greater than the other. -/
theorem isLE_or_isLE (cmp : α → α → Ordering) [Std.OrientedCmp cmp] (a b : α) :
    (cmp a b).isLE || (cmp b a).isLE := by
  cases h : cmp a b <;> simp [Std.OrientedCmp.lt_of_gt, h]

/-- Two entries of which neither is greater than the other are equal. -/
theorem eq_of_isLE {cmp : α → α → Ordering} [Std.OrientedCmp cmp] [Std.LawfulEqCmp cmp] {a b : α}
    (hab : (cmp a b).isLE) (hba : (cmp b a).isLE) : a = b :=
  Std.LawfulEqCmp.eq_of_compare (Std.OrientedCmp.isLE_antisymm hab hba)

/-- Sorting puts the entries in ascending order. -/
theorem sortBy_pairwise (cmp : α → α → Ordering) [Std.TransCmp cmp] (entries : List α) :
    (sortBy cmp entries).Pairwise fun a b => (cmp a b).isLE :=
  List.pairwise_mergeSort (fun _ _ _ => Std.TransCmp.isLE_trans) (isLE_or_isLE cmp) entries

/-- Compares first entries, then second ones. -/
def comparePairs : Nat × Nat → Nat × Nat → Ordering :=
  compareLex (compareOn Prod.fst) (compareOn Prod.snd)

instance : Std.TransCmp comparePairs :=
  inferInstanceAs (Std.TransCmp (compareLex (compareOn Prod.fst) (compareOn Prod.snd)))

instance : Std.LawfulEqCmp comparePairs where
  compare_self := Std.ReflCmp.compare_self
  eq_of_compare {a b} h := by
    simp only [comparePairs, compareLex, compareOn, Ordering.then_eq_eq, Nat.compare_eq_eq] at h
    exact Prod.ext h.1 h.2

end ProcessorSymmetry

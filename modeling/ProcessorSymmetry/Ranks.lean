import Std.Data.TreeMap
import Std.Data.TreeSet

/-!
# Dense ranks

Keys are replaced by their ranks among the distinct keys, so that equal keys get equal numbers, the
order is kept, and no number is left out.
-/

namespace ProcessorSymmetry

variable {α : Type}

/-- The distinct keys in ascending order. -/
def distinctKeys (cmp : α → α → Ordering) (keys : List α) : List α :=
  (Std.TreeSet.ofList keys cmp).toList

/-- The rank of each distinct key. -/
def rankTable (cmp : α → α → Ordering) (keys : List α) : Std.TreeMap α Nat cmp :=
  Std.TreeMap.ofList (distinctKeys cmp keys).zipIdx cmp

/-- The rank of each key among the distinct keys. -/
def denseRanks (cmp : α → α → Ordering) (keys : List α) : List Nat :=
  let ranks := rankTable cmp keys
  keys.map fun key => ranks.getD key 0

/-- A key with rank `r` compares as equal to the distinct key at position `r`. -/
theorem rankTable_getElem {cmp : α → α → Ordering} [Std.TransCmp cmp] {keys : List α} {key : α}
    {r : Nat} (hr : r < (distinctKeys cmp keys).length)
    (heq : cmp (distinctKeys cmp keys)[r] key = .eq) : (rankTable cmp keys)[key]? = some r := by
  apply Std.TreeMap.getElem?_ofList_of_mem heq
  · have hdistinct : (distinctKeys cmp keys).Pairwise fun a b => ¬cmp a b = .eq :=
      Std.TreeSet.distinct_toList
    exact List.pairwise_map.mp (by rwa [List.zipIdx_map_fst 0])
  · exact List.mk_mem_zipIdx_iff_getElem?.mpr (List.getElem?_eq_getElem hr)

end ProcessorSymmetry

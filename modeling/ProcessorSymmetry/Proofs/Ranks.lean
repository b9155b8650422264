import Mathlib.Data.List.Sort
import ProcessorSymmetry.Ranks
import ProcessorSymmetry.Sorting

/-!
# Ranks of keys

A rank says how many distinct keys there are below a key.  Ranks compare as the
keys do, fill an initial segment of the numbers, and depend only on which keys
there are.
-/

namespace ProcessorSymmetry

variable {α β : Type} (cmp : α → α → Ordering) [Std.TransCmp cmp] {keys others : List α}
  {a b : α}

/-- Comparing by a part of the data is a comparison, too. -/
theorem transCmp_comap (part : β → α) :
    Std.TransCmp fun a b => cmp (part a) (part b) where
  eq_swap := Std.OrientedCmp.eq_swap
  isLE_trans := Std.TransCmp.isLE_trans

variable {cmp} in
theorem ne_of_compare_lt (h : cmp a b = .lt) : a ≠ b := by
  rintro rfl
  exact Std.OrientedCmp.not_lt_of_lt h h

theorem pairwise_distinctKeys (keys : List α) :
    (distinctKeys cmp keys).Pairwise fun a b => cmp a b = .lt :=
  Std.TreeSet.ordered_toList

variable [Std.LawfulEqCmp cmp]

/-- Sorting forgets the order in which the entries were given. -/
theorem sortBy_eq_of_perm {entries rearranged : List α} (h : entries.Perm rearranged) :
    sortBy cmp entries = sortBy cmp rearranged := by
  have hperm := (sortBy_perm cmp entries).trans (h.trans (sortBy_perm cmp rearranged).symm)
  exact hperm.eq_of_pairwise (fun _ _ _ _ => eq_of_isLE) (sortBy_pairwise cmp entries)
    (sortBy_pairwise cmp rearranged)

theorem sortBy_eq_iff_perm {entries others : List α} :
    sortBy cmp entries = sortBy cmp others ↔ entries.Perm others := by
  constructor
  · intro h
    have hperm := (sortBy_perm cmp entries).symm
    rw [h] at hperm
    exact hperm.trans (sortBy_perm cmp others)
  · exact sortBy_eq_of_perm cmp

/-- The entries may as well be inserted one after the other.  In this form the kernel
sorts them. -/
theorem sortBy_eq_insertionSort :
    sortBy cmp = List.insertionSort fun a b => (cmp a b).isLE := by
  have : Std.Total fun a b => (cmp a b).isLE = true :=
    ⟨fun a b => by simpa using isLE_or_isLE cmp a b⟩
  have : IsTrans α fun a b => (cmp a b).isLE = true :=
    ⟨fun _ _ _ => Std.TransCmp.isLE_trans⟩
  have : Std.Antisymm fun a b => (cmp a b).isLE = true :=
    ⟨fun _ _ => eq_of_isLE⟩
  funext entries
  simpa [sortBy] using
    List.mergeSort_eq_insertionSort (fun a b => (cmp a b).isLE = true) entries

/-! ## Distinct keys -/

theorem mem_distinctKeys : a ∈ distinctKeys cmp keys ↔ a ∈ keys := by
  classical
  rw [distinctKeys, Std.TreeSet.mem_toList, Std.TreeSet.mem_ofList, List.contains_iff_mem]

theorem distinctKeys_congr (h : ∀ a, a ∈ keys ↔ a ∈ others) :
    distinctKeys cmp keys = distinctKeys cmp others := by
  have hkeys := pairwise_distinctKeys cmp keys
  have hothers := pairwise_distinctKeys cmp others
  have hperm : (distinctKeys cmp keys).Perm (distinctKeys cmp others) := by
    rw [List.perm_ext_iff_of_nodup (hkeys.imp ne_of_compare_lt)
      (hothers.imp ne_of_compare_lt)]
    intro a
    rw [mem_distinctKeys, mem_distinctKeys, h]
  refine hperm.eq_of_pairwise ?_ hkeys hothers
  intro a b _ _ hab hba
  exact absurd hba (Std.OrientedCmp.not_lt_of_lt hab)

/-! ## Ranks -/

/-- The rank of a key among the distinct keys of a list. -/
def rank (keys : List α) (key : α) : Nat :=
  (rankTable cmp keys).getD key 0

omit [Std.TransCmp cmp] [Std.LawfulEqCmp cmp] in
theorem denseRanks_eq (keys : List α) : denseRanks cmp keys = keys.map (rank cmp keys) :=
  rfl

theorem rank_congr (h : ∀ a, a ∈ keys ↔ a ∈ others) (a : α) :
    rank cmp keys a = rank cmp others a := by
  rw [rank, rank, rankTable, rankTable, distinctKeys_congr cmp h]

theorem rank_getElem {r : Nat} (hr : r < (distinctKeys cmp keys).length) :
    rank cmp keys (distinctKeys cmp keys)[r] = r := by
  rw [rank, Std.TreeMap.getD_eq_getD_getElem?,
    rankTable_getElem hr Std.ReflCmp.compare_self, Option.getD_some]

theorem getElem?_rank (ha : a ∈ keys) :
    (distinctKeys cmp keys)[rank cmp keys a]? = some a := by
  obtain ⟨r, hr, rfl⟩ := List.getElem_of_mem ((mem_distinctKeys cmp).mpr ha)
  rw [rank_getElem cmp hr, List.getElem?_eq_getElem hr]

theorem rank_inj (ha : a ∈ keys) (hb : b ∈ keys) :
    rank cmp keys a = rank cmp keys b ↔ a = b := by
  constructor
  · intro h
    have hget := getElem?_rank cmp ha
    rw [h, getElem?_rank cmp hb] at hget
    exact (Option.some.inj hget).symm
  · rintro rfl
    rfl

theorem rank_lt_rank (ha : a ∈ keys) (hb : b ∈ keys) (h : cmp a b = .lt) :
    rank cmp keys a < rank cmp keys b := by
  obtain ⟨hra, hga⟩ := List.getElem?_eq_some_iff.mp (getElem?_rank cmp ha)
  obtain ⟨hrb, hgb⟩ := List.getElem?_eq_some_iff.mp (getElem?_rank cmp hb)
  rcases Nat.lt_trichotomy (rank cmp keys a) (rank cmp keys b) with hlt | heq | hgt
  · exact hlt
  · exact absurd ((rank_inj cmp ha hb).mp heq) (ne_of_compare_lt h)
  · have hba := List.pairwise_iff_getElem.mp (pairwise_distinctKeys cmp keys) _ _ hrb hra hgt
    rw [hga, hgb] at hba
    exact absurd hba (Std.OrientedCmp.not_lt_of_lt h)

theorem rank_lt_rank_iff (ha : a ∈ keys) (hb : b ∈ keys) :
    rank cmp keys a < rank cmp keys b ↔ cmp a b = .lt := by
  constructor
  · intro hlt
    cases hcmp : cmp a b with
    | lt => rfl
    | eq =>
        rw [Std.LawfulEqCmp.eq_of_compare hcmp] at hlt
        exact absurd hlt (Nat.lt_irrefl _)
    | gt =>
        have hgt := rank_lt_rank cmp hb ha (Std.OrientedCmp.lt_of_gt hcmp)
        exact absurd hlt (Nat.lt_asymm hgt)
  · exact rank_lt_rank cmp ha hb

/-- Every number below a rank is a rank. -/
theorem exists_rank_eq (ha : a ∈ keys) {r : Nat} (hr : r ≤ rank cmp keys a) :
    ∃ b ∈ keys, rank cmp keys b = r := by
  obtain ⟨hlt, -⟩ := List.getElem?_eq_some_iff.mp (getElem?_rank cmp ha)
  have hr' : r < (distinctKeys cmp keys).length := Nat.lt_of_le_of_lt hr hlt
  exact ⟨_, (mem_distinctKeys cmp).mp (List.getElem_mem hr'), rank_getElem cmp hr'⟩

end ProcessorSymmetry

import Mathlib.Data.List.Perm.Subperm
import Mathlib.Logic.Function.Basic
import ProcessorSymmetry.Distinct

/-!
# Lists of distinct entries

If no two entries share a key, looking keys up is the same as comparing entries:
the first occurrence of every entry stays, and nothing else does.
-/

namespace ProcessorSymmetry

variable {α κ : Type}

theorem eraseDups_nodup [BEq α] [LawfulBEq α] (entries : List α) :
    entries.eraseDups.Nodup := by
  match entries with
  | [] => simp
  | a :: rest =>
      rw [List.eraseDups_cons, List.nodup_cons]
      constructor
      · intro ha
        simpa using List.mem_eraseDups.mp ha
      · exact eraseDups_nodup _
termination_by entries.length
decreasing_by exact Nat.lt_succ_of_le (List.length_filter_le _ _)

theorem eraseDups_of_nodup [BEq α] [LawfulBEq α] {entries : List α}
    (h : entries.Nodup) : entries.eraseDups = entries := by
  induction entries with
  | nil => rfl
  | cons a rest ih =>
      obtain ⟨ha, hrest⟩ := List.nodup_cons.mp h
      have hfilter : (rest.filter fun b => !b == a) = rest := by
        rw [List.filter_eq_self]
        intro b hb
        have hne : b ≠ a := fun heq => ha (heq ▸ hb)
        simpa using hne
      rw [List.eraseDups_cons, hfilter, ih hrest]

theorem prefix_eraseDups_append [BEq α] [LawfulBEq α] {entries : List α}
    (h : entries.Nodup) (more : List α) : entries <+: (entries ++ more).eraseDups := by
  rw [List.eraseDups_append, eraseDups_of_nodup h]
  exact List.prefix_append _ _

theorem eraseDups_eraseDups_append [BEq α] [LawfulBEq α] (entries more : List α) :
    (entries.eraseDups ++ more).eraseDups = (entries ++ more).eraseDups := by
  have hmore : more.removeAll entries.eraseDups = more.removeAll entries := by
    simp [List.removeAll, List.mem_eraseDups]
  rw [List.eraseDups_append, List.eraseDups_append, hmore,
    eraseDups_of_nodup (eraseDups_nodup entries)]

theorem distinctBy_eq_eraseDups [Ord κ] [BEq κ] [LawfulBEq κ] [Std.LawfulBEqOrd κ]
    [Std.TransOrd κ] [BEq α] [LawfulBEq α] {key : α → κ} (hkey : Function.Injective key)
    (entries : List α) : distinctBy key entries = entries.eraseDups := by
  have hbeq : (fun a b => key a == key b) = fun a b : α => a == b := by
    funext a b
    rw [Bool.eq_iff_iff, beq_iff_eq, beq_iff_eq]
    exact hkey.eq_iff
  rw [distinctBy_eq, hbeq, List.eraseDups]

/-- There are no more than `n` distinct numbers below `n`. -/
theorem length_le_of_nodup {n : Nat} {points : List Nat} (hnodup : points.Nodup)
    (hlt : ∀ x ∈ points, x < n) : points.length ≤ n := by
  have hsub := List.subperm_of_subset hnodup fun x hx => List.mem_range.mpr (hlt x hx)
  simpa using hsub.length_le

/-- If keys are distinct, looking one up finds its only entry. -/
theorem lookup_eq_some_iff_mem {β : Type} [BEq κ] [LawfulBEq κ] {entries : List (κ × β)}
    (h : (entries.map Prod.fst).Nodup) {k : κ} {b : β} :
    entries.lookup k = some b ↔ (k, b) ∈ entries := by
  induction entries with
  | nil => simp
  | cons entry rest ih =>
      obtain ⟨hfirst, hrest⟩ := List.nodup_cons.mp h
      obtain ⟨k', b'⟩ := entry
      rw [List.lookup_cons, List.mem_cons]
      by_cases hk : k = k'
      · subst hk
        have hnot : (k, b) ∉ rest := fun hmem =>
          hfirst (List.mem_map.mpr ⟨(k, b), hmem, rfl⟩)
        simp [hnot, eq_comm]
      · rw [beq_false_of_ne hk, ih hrest]
        simp [hk]

/-- What is written to distinct slots is found there again, and all other slots stay as they are. -/
theorem getElem?_foldl_setIfInBounds (pairs : List (Nat × α)) (slots : Array α)
    (hnodup : (pairs.map Prod.fst).Nodup) (k : Nat) :
    (pairs.foldl (fun slots (k, a) => slots.setIfInBounds k a) slots)[k]? =
      slots[k]?.map (pairs.lookup k).getD := by
  induction pairs generalizing slots with
  | nil => exact (congrFun Option.map_id _).symm
  | cons pair rest ih =>
      obtain ⟨k', a⟩ := pair
      obtain ⟨hfresh, hrest⟩ := List.nodup_cons.mp hnodup
      rw [List.foldl_cons, ih _ hrest, Array.getElem?_setIfInBounds, List.lookup_cons]
      by_cases hk : k = k'
      · subst hk
        have hnone : rest.lookup k = none := by
          rw [List.lookup_eq_none_iff]
          intro entry hentry
          rw [bne_iff_ne]
          intro heq
          exact hfresh (List.mem_map.mpr ⟨entry, hentry, heq.symm⟩)
        by_cases hlt : k < slots.size
        · simp [hnone, hlt]
        · simp [hlt]
      · simp [beq_false_of_ne hk, Ne.symm hk]

end ProcessorSymmetry

import Std.Data.TreeSet

/-!
# Distinct entries

Of the entries with one key the first is kept. The keys met so far are looked up in a search tree.
-/

namespace ProcessorSymmetry

variable {α κ : Type} [Ord κ]

/-- Entries whose keys differ, and the set of their keys. -/
structure Distinct (α κ : Type) [Ord κ] where
  entries : Array α
  keys : Std.TreeSet κ

/-- Adds an entry unless its key is known. -/
def Distinct.add (key : α → κ) : Distinct α κ → α → Distinct α κ
  | ⟨entries, keys⟩, a =>
    let k := key a
    if keys.contains k then ⟨entries, keys⟩ else ⟨entries.push a, keys.insert k⟩

/-- The first entry with each key, in order. -/
def distinctBy (key : α → κ) (entries : List α) : List α :=
  (entries.foldl (Distinct.add key) ⟨#[], Std.TreeSet.empty⟩).entries.toList

theorem foldl_add_entries [BEq κ] [Std.LawfulBEqOrd κ] [Std.TransOrd κ] (key : α → κ)
    (rest : List α) (found : Distinct α κ) (past : List α)
    (hentries : found.entries.toList = past.reverse)
    (hkeys : ∀ a, found.keys.contains (key a) = past.any fun b => key a == key b) :
    (rest.foldl (Distinct.add key) found).entries.toList =
      List.eraseDupsBy.loop (fun a b => key a == key b) rest past := by
  induction rest generalizing found past with
  | nil => simpa [List.eraseDupsBy.loop] using hentries
  | cons a rest ih =>
    obtain ⟨entries, keys⟩ := found
    rw [List.foldl_cons, List.eraseDupsBy.loop, ← hkeys a]
    cases hknown : keys.contains (key a) with
    | true =>
      rw [Distinct.add, if_pos hknown]
      exact ih _ past hentries hkeys
    | false =>
      rw [Distinct.add, if_neg (by simp [hknown])]
      apply ih
      · simpa using hentries
      · intro b
        rw [Std.TreeSet.contains_insert, List.any_cons, ← hkeys b]
        congr 1
        rw [Bool.eq_iff_iff, beq_iff_eq, ← Std.LawfulBEqOrd.compare_eq_iff_beq]
        exact Std.OrientedCmp.eq_comm

/-- Looking keys up does not change which entries are kept. -/
theorem distinctBy_eq [BEq κ] [Std.LawfulBEqOrd κ] [Std.TransOrd κ] (key : α → κ)
    (entries : List α) :
    distinctBy key entries = entries.eraseDupsBy fun a b => key a == key b :=
  foldl_add_entries key entries _ [] (by simp) (by simp)

end ProcessorSymmetry

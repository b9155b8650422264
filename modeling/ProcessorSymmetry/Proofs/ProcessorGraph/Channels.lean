import ProcessorSymmetry.Proofs.ProcessorGraph.WellFormed
import ProcessorSymmetry.Proofs.Ranks

/-!
# Labels between processors

What can be asked about the channels from one processor to another is which
labels they have.  In a well-formed graph the labels may be replaced by their
numbers, and a sorted list of numbers stands for a set of labels.
-/

namespace ProcessorSymmetry
namespace ProcessorGraph

variable {g : ProcessorGraph} {a b i j l : Nat} {c d : Channel}

/-- The two processors in the order in which channels between them are looked up. -/
def ends (g : ProcessorGraph) (i j : Nat) : Nat × Nat :=
  if g.directed ∨ i ≤ j then (i, j) else (j, i)

@[simp] theorem ends_self (g : ProcessorGraph) (i : Nat) : g.ends i i = (i, i) :=
  if_pos (.inr (Nat.le_refl i))

theorem ends_eq_ends_iff :
    g.ends a b = g.ends i j ↔ a = i ∧ b = j ∨ g.directed = false ∧ a = j ∧ b = i := by
  cases hdirected : g.directed with
  | true => simp [ends, hdirected]
  | false =>
      simp only [ends, hdirected, Bool.false_eq_true, false_or, true_and]
      split
      · split
        · rw [Prod.mk.injEq]
          omega
        · rw [Prod.mk.injEq]
          omega
      · split
        · rw [Prod.mk.injEq]
          omega
        · rw [Prod.mk.injEq]
          omega

theorem ends_eq_or (g : ProcessorGraph) (i j : Nat) :
    g.ends i j = (i, j) ∨ g.directed = false ∧ g.ends i j = (j, i) := by
  rw [ends]
  split
  · exact .inl rfl
  · rename_i hlater
    exact .inr ⟨Bool.eq_false_iff.mpr fun hdirected => hlater (.inl hdirected), rfl⟩

theorem ends_ends (g : ProcessorGraph) (i j : Nat) :
    g.ends (g.ends i j).1 (g.ends i j).2 = g.ends i j := by
  rcases g.ends_eq_or i j with h | ⟨hdirected, h⟩
  · rw [h, h]
  · rw [ends_eq_ends_iff, h]
    exact .inr ⟨hdirected, rfl, rfl⟩

theorem ends_lt (hi : i < g.processorCount) (hj : j < g.processorCount) :
    (g.ends i j).1 < g.processorCount ∧ (g.ends i j).2 < g.processorCount := by
  rcases g.ends_eq_or i j with h | ⟨-, h⟩
  · rw [h]
    exact ⟨hi, hj⟩
  · rw [h]
    exact ⟨hj, hi⟩

theorem ends_ne_iff : (g.ends i j).1 ≠ (g.ends i j).2 ↔ i ≠ j := by
  rcases g.ends_eq_or i j with h | ⟨-, h⟩
  · rw [h]
  · rw [h]
    exact ne_comm

theorem key_eq (g : ProcessorGraph) (c : Channel) :
    g.key c = ⟨(g.ends c.source c.target).1, (g.ends c.source c.target).2, c.label⟩ := by
  rw [key, ends, Channel.sorted]
  by_cases hdirected : g.directed
  · simp [hdirected]
  · by_cases hle : c.source ≤ c.target
    · simp [hdirected, hle]
    · simp [hdirected, hle]

theorem key_eq_key_iff :
    g.key c = g.key d ↔
      g.ends c.source c.target = g.ends d.source d.target ∧ c.label = d.label := by
  rw [key_eq, key_eq, Channel.mk.injEq, Prod.ext_iff, and_assoc]

/-! ## Numbers of labels -/

/-- The numbers of the labels of those channels of a list that have the given
ends, the last one first. -/
def labelsAmong (g : ProcessorGraph) (channels : List Channel) (pair : Nat × Nat) : List Nat :=
  ((channels.filter fun c => g.ends c.source c.target = pair).map Channel.label).reverse

theorem labelsAmong_concat (g : ProcessorGraph) (channels : List Channel) (c : Channel)
    (pair : Nat × Nat) :
    g.labelsAmong (channels ++ [c]) pair =
      if g.ends c.source c.target = pair then c.label :: g.labelsAmong channels pair
      else g.labelsAmong channels pair := by
  rw [labelsAmong, List.filter_append, List.map_append, List.reverse_append]
  split
  · rename_i hends
    simp [hends, labelsAmong]
  · rename_i hends
    simp [hends, labelsAmong]

/-- The numbers of the labels of the channels from `i` to `j`, in ascending order. -/
def labelsOn (g : ProcessorGraph) (i j : Nat) : List Nat :=
  sortBy compare (g.labelsAmong g.channels.toList (g.ends i j))

theorem mem_labelsOn :
    l ∈ g.labelsOn i j ↔ ∃ c ∈ g.channels.toList, g.key c = g.key ⟨i, j, l⟩ := by
  rw [labelsOn, (sortBy_perm compare _).mem_iff, labelsAmong, List.mem_reverse, List.mem_map]
  constructor
  · rintro ⟨c, hc, hlabel⟩
    obtain ⟨hc, hends⟩ := List.mem_filter.mp hc
    exact ⟨c, hc, key_eq_key_iff.mpr ⟨of_decide_eq_true hends, hlabel⟩⟩
  · rintro ⟨c, hc, hkey⟩
    obtain ⟨hends, hlabel⟩ := key_eq_key_iff.mp hkey
    exact ⟨c, List.mem_filter.mpr ⟨hc, decide_eq_true hends⟩, hlabel⟩

/-- There is one channel for each label, so that no number is listed twice. -/
theorem WellFormed.labelsAmong_nodup (hg : g.WellFormed) (pair : Nat × Nat) :
    (g.labelsAmong g.channels.toList pair).Nodup := by
  rw [labelsAmong, List.nodup_reverse]
  apply List.Nodup.map_on _ (hg.keys_nodup.of_map.filter _)
  intro c hc d hd hlabel
  obtain ⟨hc, hcends⟩ := List.mem_filter.mp hc
  obtain ⟨hd, hdends⟩ := List.mem_filter.mp hd
  apply List.inj_on_of_nodup_map hg.keys_nodup hc hd
  rw [key_eq_key_iff]
  exact ⟨(of_decide_eq_true hcends).trans (of_decide_eq_true hdends).symm, hlabel⟩

theorem WellFormed.labelsOn_eq_iff (hg : g.WellFormed) :
    g.labelsOn a b = g.labelsOn i j ↔ ∀ l, l ∈ g.labelsOn a b ↔ l ∈ g.labelsOn i j := by
  constructor
  · intro h l
    rw [h]
  · intro h
    apply sortBy_eq_of_perm compare
    rw [List.perm_ext_iff_of_nodup (hg.labelsAmong_nodup _) (hg.labelsAmong_nodup _)]
    intro l
    rw [← (sortBy_perm compare _).mem_iff]
    exact (h l).trans (sortBy_perm compare _).mem_iff

theorem WellFormed.lt_of_mem_labelsOn (hg : g.WellFormed) (h : l ∈ g.labelsOn i j) :
    i < g.processorCount ∧ j < g.processorCount ∧ l < g.channelLabels.size := by
  obtain ⟨c, hc, hkey⟩ := mem_labelsOn.mp h
  obtain ⟨hends, rfl⟩ := key_eq_key_iff.mp hkey
  obtain ⟨hsource, htarget, hlabel⟩ := hg.channel_lt c hc
  rcases ends_eq_ends_iff.mp hends with ⟨rfl, rfl⟩ | ⟨-, rfl, rfl⟩
  · exact ⟨hsource, htarget, hlabel⟩
  · exact ⟨htarget, hsource, hlabel⟩

theorem WellFormed.labelsOn_eq_nil (hg : g.WellFormed)
    (h : ¬(i < g.processorCount ∧ j < g.processorCount)) : g.labelsOn i j = [] := by
  rw [List.eq_nil_iff_forall_not_mem]
  intro l hl
  obtain ⟨hi, hj, -⟩ := hg.lt_of_mem_labelsOn hl
  exact h ⟨hi, hj⟩

/-! ## Labels -/

/-- A label that is listed once has one number. -/
theorem number_unique {labels : Array String} (h : labels.toList.Nodup) {label : String}
    {k l : Nat} (hk : labels[k]? = some label) (hl : labels[l]? = some label) : k = l := by
  obtain ⟨hlt, -⟩ := Array.getElem?_eq_some_iff.mp hk
  apply (List.getElem?_inj (Array.length_toList.symm ▸ hlt) h).mp
  rw [Array.getElem?_toList, Array.getElem?_toList, hk, hl]

theorem WellFormed.hasChannel_iff (hg : g.WellFormed) {label : String} :
    g.hasChannel i j label = true ↔
      ∃ l, g.channelLabels[l]? = some label ∧ l ∈ g.labelsOn i j := by
  rw [hasChannel]
  split
  · rename_i l hfound
    obtain ⟨hlt, hlabel, -⟩ := Array.findIdx?_eq_some_iff_getElem.mp hfound
    have hl : g.channelLabels[l]? = some label := by
      rw [Array.getElem?_eq_getElem hlt, beq_iff_eq.mp hlabel]
    rw [hg.keys_iff, ← mem_labelsOn]
    constructor
    · intro hmem
      exact ⟨l, hl, hmem⟩
    · rintro ⟨k, hk, hmem⟩
      rwa [number_unique hg.channelLabels_nodup hl hk]
  · rename_i hnone
    constructor
    · intro h
      cases h
    · rintro ⟨k, hk, -⟩
      have hother := Array.findIdx?_eq_none_iff.mp hnone label (Array.mem_of_getElem? hk)
      simp at hother

theorem WellFormed.hasChannel_lt (hg : g.WellFormed) {label : String}
    (h : g.hasChannel i j label = true) : i < g.processorCount ∧ j < g.processorCount := by
  obtain ⟨l, -, hl⟩ := hg.hasChannel_iff.mp h
  obtain ⟨hi, hj, -⟩ := hg.lt_of_mem_labelsOn hl
  exact ⟨hi, hj⟩

/-- A channel with the number of a label is there if its key is. -/
theorem WellFormed.hasChannel_eq_contains (hg : g.WellFormed) {label : String}
    (hlabel : g.channelLabels[c.label]? = some label) :
    g.hasChannel c.source c.target label = g.keys.contains (g.key c) := by
  rw [Bool.eq_iff_iff, hg.hasChannel_iff, hg.keys_iff, ← mem_labelsOn]
  constructor
  · intro ⟨l, hl, hmem⟩
    rwa [number_unique hg.channelLabels_nodup hlabel hl]
  · intro hmem
    exact ⟨c.label, hlabel, hmem⟩

theorem WellFormed.labelsOn_subset (hg : g.WellFormed)
    (h : ∀ label, g.hasChannel a b label = true → g.hasChannel i j label = true)
    (hl : l ∈ g.labelsOn a b) : l ∈ g.labelsOn i j := by
  obtain ⟨-, -, hlt⟩ := hg.lt_of_mem_labelsOn hl
  have hget := Array.getElem?_eq_getElem hlt
  have hfound := h _ (hg.hasChannel_iff.mpr ⟨l, hget, hl⟩)
  obtain ⟨k, hk, hmem⟩ := hg.hasChannel_iff.mp hfound
  rwa [number_unique hg.channelLabels_nodup hget hk]

/-- The same labels are found between two pairs of processors if and only if
their numbers are the same. -/
theorem WellFormed.hasChannel_eq_iff (hg : g.WellFormed) :
    (∀ label, g.hasChannel a b label = g.hasChannel i j label) ↔
      g.labelsOn a b = g.labelsOn i j := by
  constructor
  · intro h
    rw [hg.labelsOn_eq_iff]
    intro l
    constructor
    · exact hg.labelsOn_subset fun label hlabel => (h label).symm.trans hlabel
    · exact hg.labelsOn_subset fun label hlabel => (h label).trans hlabel
  · intro h label
    rw [Bool.eq_iff_iff, hg.hasChannel_iff, hg.hasChannel_iff, h]

theorem processorLabel_of_lt (hi : i < g.processorCount) :
    g.processorLabel i = .ok (g.labelOf i) := by
  rw [processorLabel, check_eq_ok_iff.mpr hi]
  rfl

theorem WellFormed.getElem?_processors (hg : g.WellFormed) (hi : i < g.processorCount) :
    ∃ l, g.processors[i]? = some l ∧ g.processorLabels[l]? = some (g.labelOf i) := by
  have hget := Array.getElem?_eq_getElem hi
  have hl := hg.processor_lt _ (Array.getElem_mem_toList hi)
  refine ⟨_, hget, ?_⟩
  rw [labelOf, hget, Option.bind_some, Array.getElem?_eq_getElem hl, Option.getD_some]

/-- Processors have the same label if and only if its number is the same. -/
theorem WellFormed.processorLabel_eq_iff (hg : g.WellFormed) (hi : i < g.processorCount)
    (hj : j < g.processorCount) :
    g.processorLabel i = g.processorLabel j ↔ g.processors[i]? = g.processors[j]? := by
  rw [processorLabel_of_lt hi, processorLabel_of_lt hj, Except.ok.injEq]
  obtain ⟨k, hk, hklabel⟩ := hg.getElem?_processors hi
  obtain ⟨l, hl, hllabel⟩ := hg.getElem?_processors hj
  rw [hk, hl, Option.some.injEq]
  constructor
  · intro h
    rw [h] at hklabel
    exact number_unique hg.processorLabels_nodup hklabel hllabel
  · rintro rfl
    exact Option.some.inj (hklabel.symm.trans hllabel)

end ProcessorGraph
end ProcessorSymmetry

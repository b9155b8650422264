import ProcessorSymmetry.Proofs.Distinct
import ProcessorSymmetry.Proofs.ProcessorGraph.Classes

/-!
# Composite labels

The composite label of a processor joins its label and the labels of its channels to
itself by percent signs.  Processors of one role have one composite label, and nothing
else is said by it than the pieces between the percent signs.  So it tells roles apart
as long as the joined labels contain no percent sign themselves.
-/

namespace ProcessorSymmetry

/-! ## Pieces of joined texts -/

/-- The pieces of a text between percent signs. -/
def pieces (text : String) : List (List Char) :=
  text.toList.splitOn '%'

theorem pieces_injective : Function.Injective pieces := by
  intro a b h
  have hjoined := congrArg ['%'].intercalate h
  rw [pieces, pieces, List.intercalate_splitOn, List.intercalate_splitOn] at hjoined
  exact String.toList_inj.mp hjoined

theorem pieces_of_notMem {text : String} (h : '%' ∉ text.toList) :
    pieces text = [text.toList] :=
  List.splitOn_eq_singleton h

theorem pieces_append (a b : String) : pieces (a ++ "%" ++ b) = pieces a ++ pieces b := by
  have hlist : (a ++ "%" ++ b).toList = a.toList ++ '%' :: b.toList := by simp
  rw [pieces, hlist, List.splitOn_append_cons_self]
  rfl

/-- Joining labels to a text puts their pieces after those of the text. -/
theorem pieces_foldl_append (text : String) (labels : List String) :
    pieces (labels.foldl (fun text label => text ++ "%" ++ label) text) =
      pieces text ++ labels.flatMap pieces := by
  induction labels generalizing text with
  | nil => rw [List.foldl_nil, List.flatMap_nil, List.append_nil]
  | cons label rest ih =>
      rw [List.foldl_cons, ih, pieces_append, List.flatMap_cons, List.append_assoc]

theorem flatMap_pieces_of_notMem {labels : List String} (h : ∀ label ∈ labels, '%' ∉ label.toList) :
    labels.flatMap pieces = labels.map String.toList := by
  induction labels with
  | nil => rfl
  | cons label rest ih =>
      obtain ⟨hlabel, hrest⟩ := List.forall_mem_cons.mp h
      rw [List.flatMap_cons, pieces_of_notMem hlabel, ih hrest]
      rfl

/-! ## Values under two keys -/

/-- If one key determines another, there are at most as many values of the other, and as
many exactly if it determines the first one, too. -/
theorem card_image_of_determined {α β γ : Type} [DecidableEq β] [DecidableEq γ] {s : Finset α}
    {key : α → β} {other : α → γ}
    (h : ∀ a ∈ s, ∀ b ∈ s, key a = key b → other a = other b) :
    (s.image other).card ≤ (s.image key).card ∧
      ((s.image other).card = (s.image key).card ↔
        ∀ a ∈ s, ∀ b ∈ s, other a = other b → key a = key b) := by
  have hkey : (s.image key).card = (s.image fun a => (key a, other a)).card := by
    rw [← Finset.card_image_of_injOn (s := s.image fun a => (key a, other a)) (f := Prod.fst),
      Finset.image_image]
    · rfl
    · intro x hx y hy hxy
      obtain ⟨a, ha, rfl⟩ := Finset.mem_image.mp hx
      obtain ⟨b, hb, rfl⟩ := Finset.mem_image.mp hy
      exact Prod.ext hxy (h a ha b hb hxy)
  have hother : s.image other = (s.image fun a => (key a, other a)).image Prod.snd := by
    rw [Finset.image_image]
    rfl
  rw [hkey, hother, Finset.card_image_iff]
  refine ⟨Finset.card_image_le, ?_⟩
  constructor
  · intro hinj a ha b hb hab
    exact (Prod.mk.inj (hinj (Finset.mem_image_of_mem _ ha) (Finset.mem_image_of_mem _ hb) hab)).1
  · intro hback x hx y hy hxy
    obtain ⟨a, ha, rfl⟩ := Finset.mem_image.mp hx
    obtain ⟨b, hb, rfl⟩ := Finset.mem_image.mp hy
    exact Prod.ext (hback a ha b hb hxy) hxy

/-- A list has as many distinct entries as there are values at its places. -/
theorem card_toFinset_eq {α : Type} [DecidableEq α] {entries : List α} {n : Nat}
    (hlength : entries.length = n) :
    entries.toFinset.card = ((Finset.range n).image fun i => entries[i]?).card := by
  have hvalues : (Finset.range n).image (fun i => entries[i]?) = entries.toFinset.image some := by
    ext value
    rw [Finset.mem_image, Finset.mem_image]
    constructor
    · rintro ⟨i, hi, rfl⟩
      have hi : i < entries.length := hlength ▸ Finset.mem_range.mp hi
      exact ⟨entries[i], List.mem_toFinset.mpr (List.getElem_mem hi),
        (List.getElem?_eq_getElem hi).symm⟩
    · rintro ⟨a, ha, rfl⟩
      obtain ⟨i, hi, hget⟩ := List.mem_iff_getElem.mp (List.mem_toFinset.mp ha)
      exact ⟨i, Finset.mem_range.mpr (hlength ▸ hi), by rw [List.getElem?_eq_getElem hi, hget]⟩
  rw [hvalues, Finset.card_image_of_injective _ (Option.some_injective α)]

namespace ProcessorGraph

variable {g : ProcessorGraph} {i j : Nat} {label : String}

/-! ## Composite labels of processors -/

/-- The labels of the channels from a processor to itself, in ascending order. -/
def sortedLoops (g : ProcessorGraph) (i : Nat) : List String :=
  sortBy compare ((g.labelsOn i i).map fun l => g.channelLabels.getD l "")

theorem WellFormed.getElem?_channelLabels (hg : g.WellFormed) {l : Nat} (hl : l ∈ g.labelsOn i j) :
    g.channelLabels[l]? = some (g.channelLabels.getD l "") := by
  obtain ⟨-, -, hlt⟩ := hg.lt_of_mem_labelsOn hl
  rw [Array.getD_eq_getD_getElem?, Array.getElem?_eq_getElem hlt, Option.getD_some]

/-- The pieces of the label of a processor and of those of the channels to itself. -/
def compositePieces (g : ProcessorGraph) (i : Nat) : List (List Char) :=
  pieces (g.labelOf i) ++ (g.sortedLoops i).flatMap pieces

/-- No label that is joined for the processor contains a percent sign. -/
def PercentFree (g : ProcessorGraph) (i : Nat) : Prop :=
  '%' ∉ (g.labelOf i).toList ∧ ∀ label ∈ g.loopSet i, '%' ∉ label.toList

instance (g : ProcessorGraph) (i : Nat) : Decidable (g.PercentFree i) :=
  inferInstanceAs (Decidable (_ ∧ _))

theorem getElem?_compositeLabelList (hi : i < g.processorCount) :
    g.compositeLabelList[i]? =
      some ((g.sortedLoops i).foldl (fun text label => text ++ "%" ++ label) (g.labelOf i)) := by
  rw [compositeLabelList, List.getElem?_map, List.getElem?_zipIdx, getElem?_loopLabels hi,
    Nat.zero_add]
  rfl

theorem length_compositeLabelList (g : ProcessorGraph) :
    g.compositeLabelList.length = g.processorCount := by
  rw [compositeLabelList, List.length_map, List.length_zipIdx, length_loopLabels]

theorem compositeLabelList_eq_iff (hi : i < g.processorCount) (hj : j < g.processorCount) :
    g.compositeLabelList[i]? = g.compositeLabelList[j]? ↔
      g.compositePieces i = g.compositePieces j := by
  rw [getElem?_compositeLabelList hi, getElem?_compositeLabelList hj, Option.some.injEq,
    ← pieces_injective.eq_iff, pieces_foldl_append, pieces_foldl_append]
  rfl

namespace WellFormed

theorem mem_sortedLoops (hg : g.WellFormed) : label ∈ g.sortedLoops i ↔ label ∈ g.loopSet i := by
  rw [hg.mem_loopSet, hg.hasChannel_iff, sortedLoops, (sortBy_perm compare _).mem_iff,
    List.mem_map]
  constructor
  · rintro ⟨l, hl, rfl⟩
    exact ⟨l, hg.getElem?_channelLabels hl, hl⟩
  · rintro ⟨l, hlabel, hl⟩
    rw [hg.getElem?_channelLabels hl, Option.some.injEq] at hlabel
    exact ⟨l, hl, hlabel⟩

theorem nodup_sortedLoops (hg : g.WellFormed) (i : Nat) : (g.sortedLoops i).Nodup := by
  rw [sortedLoops, (sortBy_perm compare _).nodup_iff]
  apply List.Nodup.map_on
  · intro k hk l hl heq
    have hlabel := hg.getElem?_channelLabels hk
    rw [heq] at hlabel
    exact number_unique hg.channelLabels_nodup hlabel (hg.getElem?_channelLabels hl)
  · rw [labelsOn, (sortBy_perm compare _).nodup_iff]
    exact hg.labelsAmong_nodup _

/-- The same labels are sorted in the same way. -/
theorem sortedLoops_eq_iff (hg : g.WellFormed) :
    g.sortedLoops i = g.sortedLoops j ↔ g.loopSet i = g.loopSet j := by
  rw [Finset.ext_iff]
  constructor
  · intro h label
    rw [← hg.mem_sortedLoops, ← hg.mem_sortedLoops, h]
  · intro h
    rw [sortedLoops, sortedLoops, sortBy_eq_iff_perm]
    refine (sortBy_perm compare _).symm.trans (.trans ?_ (sortBy_perm compare _))
    rw [← sortedLoops, ← sortedLoops,
      List.perm_ext_iff_of_nodup (hg.nodup_sortedLoops i) (hg.nodup_sortedLoops j)]
    intro label
    rw [hg.mem_sortedLoops, hg.mem_sortedLoops, h]

theorem compositePieces_eq_of_role (hg : g.WellFormed) (h : g.role i = g.role j) :
    g.compositePieces i = g.compositePieces j := by
  obtain ⟨hlabel, hloops⟩ := Prod.mk.inj h
  rw [compositePieces, compositePieces, hlabel, hg.sortedLoops_eq_iff.mpr hloops]

theorem compositePieces_of_percentFree (hg : g.WellFormed) (hfree : g.PercentFree i) :
    g.compositePieces i = (g.labelOf i).toList :: (g.sortedLoops i).map String.toList := by
  rw [compositePieces, pieces_of_notMem hfree.1, flatMap_pieces_of_notMem]
  · rfl
  · intro label hlabel
    exact hfree.2 label (hg.mem_sortedLoops.mp hlabel)

theorem role_eq_of_percentFree (hg : g.WellFormed) (hi : g.PercentFree i) (hj : g.PercentFree j)
    (h : g.compositePieces i = g.compositePieces j) : g.role i = g.role j := by
  rw [hg.compositePieces_of_percentFree hi, hg.compositePieces_of_percentFree hj,
    List.cons.injEq, String.toList_inj] at h
  obtain ⟨hlabel, hloops⟩ := h
  have hinjective : Function.Injective String.toList := fun _ _ => String.toList_inj.mp
  rw [role, role, hlabel, hg.sortedLoops_eq_iff.mp (hinjective.list_map hloops)]

/-! ## Composite labels and vertex colors -/

theorem color_eq_iff_role (hg : g.WellFormed) (hi : i < g.processorCount)
    (hj : j < g.processorCount) :
    g.coloredGraph.color i = g.coloredGraph.color j ↔ g.role i = g.role j := by
  rw [color_coloredGraph_eq_iff hi hj, hg.role_eq_role_iff, ← hg.processorLabel_eq_iff hi hj,
    processorLabel_of_lt hi, processorLabel_of_lt hj, Except.ok.injEq, hg.hasChannel_eq_iff]

end WellFormed

theorem getElem?_colors_coloredGraph (hi : i < g.processorCount) :
    g.coloredGraph.colors.toList[i]? = some (g.coloredGraph.color i) := by
  rw [← size_coloredGraph, ColoredGraph.size] at hi
  rw [ColoredGraph.color, Array.getElem?_toList, Array.getD_eq_getD_getElem?,
    Array.getElem?_eq_getElem hi, Option.getD_some]

theorem length_compositeLabels (g : ProcessorGraph) :
    g.compositeLabels.length = g.compositeLabelList.toFinset.card := by
  have hsame : g.compositeLabelList.eraseDups.toFinset = g.compositeLabelList.toFinset := by
    ext label
    rw [List.mem_toFinset, List.mem_toFinset, List.mem_eraseDups]
  rw [compositeLabels, distinctBy_eq_eraseDups Function.injective_id, ← hsame,
    List.toFinset_card_of_nodup (eraseDups_nodup _)]

/-- A vertex color stands for a role.  Processors of one role have one composite label, which
says nothing but its pieces, so that there are at most as many composite labels as vertex
colors.  The labels tell all roles apart exactly if there are as many, and they do so between
processors whose joined labels contain no percent sign. -/
theorem compositeLabels_and_roles (hg : Built g) :
    let composite := fun i : Nat => g.compositeLabelList[i]?
    let colors := g.coloredGraph.colors.toList.toFinset
    (∀ i < g.processorCount, ∀ j < g.processorCount,
      (g.coloredGraph.color i = g.coloredGraph.color j ↔ g.role i = g.role j) ∧
      (composite i = composite j ↔ g.compositePieces i = g.compositePieces j) ∧
      (g.role i = g.role j → composite i = composite j) ∧
      (g.PercentFree i → g.PercentFree j → composite i = composite j → g.role i = g.role j)) ∧
    g.compositeLabels.length ≤ colors.card ∧
    (g.compositeLabels.length = colors.card ↔
      ∀ i < g.processorCount, ∀ j < g.processorCount,
        composite i = composite j → g.role i = g.role j) := by
  intro composite colors
  have hformed := hg.wellFormed
  have hroles : ∀ i < g.processorCount, ∀ j < g.processorCount,
      (g.coloredGraph.colors.toList[i]? = g.coloredGraph.colors.toList[j]? ↔
        g.role i = g.role j) := by
    intro i hi j hj
    rw [getElem?_colors_coloredGraph hi, getElem?_colors_coloredGraph hj, Option.some.injEq,
      hformed.color_eq_iff_role hi hj]
  have hcomposite : ∀ i < g.processorCount, ∀ j < g.processorCount,
      g.role i = g.role j → composite i = composite j := fun i hi j hj h =>
    (compositeLabelList_eq_iff hi hj).mpr (hformed.compositePieces_eq_of_role h)
  refine ⟨?_, ?_⟩
  · intro i hi j hj
    have hpieces := compositeLabelList_eq_iff hi hj
    exact ⟨hformed.color_eq_iff_role hi hj, hpieces, hcomposite i hi j hj,
      fun hfree hfree' h => hformed.role_eq_of_percentFree hfree hfree' (hpieces.mp h)⟩
  · rw [length_compositeLabels, card_toFinset_eq (length_compositeLabelList g),
      card_toFinset_eq (n := g.processorCount) (Array.length_toList.trans g.size_coloredGraph)]
    have hdetermined : ∀ i ∈ Finset.range g.processorCount, ∀ j ∈ Finset.range g.processorCount,
        g.coloredGraph.colors.toList[i]? = g.coloredGraph.colors.toList[j]? →
          composite i = composite j := by
      simp only [Finset.mem_range]
      exact fun i hi j hj h => hcomposite i hi j hj ((hroles i hi j hj).mp h)
    obtain ⟨hle, heq⟩ := card_image_of_determined hdetermined
    refine ⟨hle, heq.trans ?_⟩
    simp only [Finset.mem_range]
    exact forall₂_congr fun i hi => forall₂_congr fun j hj => imp_congr_right fun _ =>
      hroles i hi j hj

/-- Two processors that got the same channels to themselves in different orders, and a third
one with another label. -/
theorem compositeLabels_and_roles_loops :
    let start := ["p", "p", "q"].foldl addProcessor (empty false)
    let g := start.performAll [.loopAmong [0, 1] "M", .loopAmong [1, 2] "L", .addChannel 0 0 "L"]
    Built g ∧ g.compositeLabels = ["p%L%M", "q%L"] ∧ g.role 0 = g.role 1 ∧
      g.coloredGraph.colors.toList.toFinset.card = 2 := by
  intro start g
  have hg : Built g := ((Built.empty false).foldl_addProcessor _).performAll _
  have hlabels : g.compositeLabels = ["p%L%M", "q%L"] := by
    rw [compositeLabels, compositeLabelList, loopLabels, sortBy_eq_insertionSort,
      sortBy_eq_insertionSort]
    decide +kernel
  have hroles : g.role 0 = g.role 1 := by decide +kernel
  have hfree : ∀ i < g.processorCount, g.PercentFree i := by decide +kernel
  obtain ⟨hprocessors, -, hcount⟩ := compositeLabels_and_roles hg
  refine ⟨hg, hlabels, hroles, ?_⟩
  rw [← hcount.mpr, hlabels]
  · rfl
  · exact fun i hi j hj => (hprocessors i hi j hj).2.2.2 (hfree i hi) (hfree j hj)

/-- One channel label that contains a percent sign looks like two labels. -/
theorem compositeLabels_not_roles :
    ¬∀ g : ProcessorGraph, Built g →
      (∀ i < g.processorCount, ∀ j < g.processorCount,
        (g.compositeLabelList[i]? = g.compositeLabelList[j]? ↔ g.role i = g.role j)) ∧
      g.compositeLabels.length = g.coloredGraph.colors.toList.toFinset.card := by
  intro hclaim
  let start := ["p", "p"].foldl addProcessor (empty false)
  let g := start.performAll [.addChannel 0 0 "L", .addChannel 0 0 "M", .addChannel 1 1 "L%M"]
  have hg : Built g := ((Built.empty false).foldl_addProcessor _).performAll _
  have hlabels : g.compositeLabels = ["p%L%M"] := by
    rw [compositeLabels, compositeLabelList, loopLabels, sortBy_eq_insertionSort,
      sortBy_eq_insertionSort]
    decide +kernel
  have hcolors : g.coloredGraph.colors.toList.toFinset.card = 2 := by
    rw [coloredGraph, kinds, loopLabels, connectedPairs, sortBy_eq_insertionSort]
    decide +kernel
  have hcount := (hclaim g hg).2
  rw [hlabels, hcolors] at hcount
  exact absurd hcount (by decide)

end ProcessorGraph
end ProcessorSymmetry

import ProcessorSymmetry.Proofs.Group.Equality
import ProcessorSymmetry.Proofs.Perm.Counting
import ProcessorSymmetry.Proofs.ProcessorGraph.Automorphisms
import ProcessorSymmetry.Proofs.ProcessorGraph.Joining

/-!
# Classes of alike processors

In some graphs the channels between distinct processors tell nothing about them, because
each label joins all of these or none.  Processors are then told apart only by their
labels and by their channels to themselves.  Those that agree in both may be permuted at
will, so that the number of automorphisms is a product of factorials.  Graphs stay like
this as long as all processors are joined with each other or processors with themselves.
-/

namespace ProcessorSymmetry

/-- The call joins all distinct processors, or only processors with themselves. -/
def GraphChange.KeepsLinks : GraphChange → Prop
  | .addProcessor _ => False
  | .addProcessors _ _ => False
  | .addChannel source target _ => source = target
  | .connectAmong _ _ => False
  | .connectAll _ => True
  | .connectLabelled _ _ => False
  | .loopAmong _ _ => True
  | .loopAll _ => True
  | .loopLabelled _ _ => True

namespace ProcessorGraph

open Perm

variable {g h : ProcessorGraph} {m i j k : Nat} {p : Perm m} {label : String}
  {joined : Nat → Nat → Prop}

/-! ## Processors of one role -/

/-- The labels of the channels from a processor to itself, in whatever order and however
often they were added. -/
def loopSet (g : ProcessorGraph) (i : Nat) : Finset String :=
  ((g.channelList.filter fun x => x.1 = i ∧ x.2.1 = i).map fun x => x.2.2).toFinset

theorem WellFormed.mem_loopSet (hg : g.WellFormed) :
    label ∈ g.loopSet i ↔ g.hasChannel i i label = true := by
  have hlisted : label ∈ g.loopSet i ↔ (i, i, label) ∈ g.channelList := by
    simp [loopSet, and_assoc]
  rw [hlisted, hg.hasChannel_iff_listed]
  tauto

/-- The label of a processor, with the labels of its channels to itself. -/
def role (g : ProcessorGraph) (i : Nat) : String × Finset String :=
  (g.labelOf i, g.loopSet i)

theorem WellFormed.role_eq_role_iff (hg : g.WellFormed) :
    g.role i = g.role j ↔ g.labelOf i = g.labelOf j ∧
      ∀ label, g.hasChannel i i label = g.hasChannel j j label := by
  rw [role, role, Prod.mk.injEq, Finset.ext_iff]
  refine and_congr_right fun _ => forall_congr' fun label => ?_
  rw [hg.mem_loopSet, hg.mem_loopSet]
  exact Bool.eq_iff_iff.symm

/-! ## Links that tell nothing -/

/-- Each label joins every pair of distinct processors, in both directions, or none. -/
def LinksAllOrNone (g : ProcessorGraph) : Prop :=
  ∀ label,
    (∀ i < g.processorCount, ∀ j < g.processorCount, i ≠ j → g.hasChannel i j label = true) ∨
      ∀ i < g.processorCount, ∀ j < g.processorCount, i ≠ j → g.hasChannel i j label = false

theorem linksAllOrNone_foldl_addProcessor (directed : Bool) (labels : List String) :
    (labels.foldl addProcessor (empty directed)).LinksAllOrNone := by
  intro label
  refine .inr fun i _ j _ _ => ?_
  rw [hasChannel_foldl_addProcessor, hasChannel_empty]

/-- Nothing changes if all distinct processors are joined, or none of them. -/
theorem Joins.linksAllOrNone (hgh : g.Joins label joined k h) (hlinks : g.LinksAllOrNone)
    (hjoined : (∀ i < g.processorCount, ∀ j < g.processorCount, i ≠ j → joined i j) ∨
      ∀ i < g.processorCount, ∀ j < g.processorCount, i ≠ j → ¬joined i j) :
    h.LinksAllOrNone := by
  intro other
  rw [hgh.sameProcessors.processorCount_eq]
  rcases hlinks other with hold | hold
  · exact .inl fun i hi j hj hij => (hgh.hasChannel_iff i j other).mpr (.inl (hold i hi j hj hij))
  · by_cases hnew : other = label ∧
        ∀ i < g.processorCount, ∀ j < g.processorCount, i ≠ j → joined i j
    · exact .inl fun i hi j hj hij =>
        (hgh.hasChannel_iff i j other).mpr (.inr ⟨hnew.1, hnew.2 i hi j hj hij⟩)
    · refine .inr fun i hi j hj hij => ?_
      rw [← Bool.not_eq_true, hgh.hasChannel_iff]
      rintro (hfound | ⟨hlabel, hpair⟩)
      · rw [hold i hi j hj hij] at hfound
        cases hfound
      · exact hjoined.resolve_left (fun hall => hnew ⟨hlabel, hall⟩) i hi j hj hij hpair

theorem JoinsOrRefuses.linksAllOrNone {change : GraphChange} {response : Nat → GraphAnswer}
    {named : List Nat} (hcall : g.JoinsOrRefuses change response named label joined)
    (hlinks : g.LinksAllOrNone)
    (hjoined : (∀ i < g.processorCount, ∀ j < g.processorCount, i ≠ j → joined i j) ∨
      ∀ i < g.processorCount, ∀ j < g.processorCount, i ≠ j → ¬joined i j) :
    (g.perform change).2.LinksAllOrNone := by
  by_cases hnamed : ∃ pe ∈ named, g.processorCount ≤ pe
  · obtain ⟨pe, -, hrefused⟩ := hcall.refuses hnamed
    rw [hrefused]
    exact hlinks
  · obtain ⟨k, h, hperform, -, hjoins⟩ := hcall.joins (by simpa using hnamed)
    rw [hperform]
    exact hjoins.linksAllOrNone hlinks hjoined

/-- One call keeps that links tell nothing. -/
theorem Built.linksAllOrNone_perform (hg : Built g) (hlinks : g.LinksAllOrNone)
    {change : GraphChange} (hchange : change.KeepsLinks) :
    (g.perform change).2.LinksAllOrNone := by
  have hformed := hg.wellFormed
  have hloops : ∀ pes label, (g.perform (.loopAmong pes label)).2.LinksAllOrNone :=
    fun pes label => (hformed.joinsOrRefuses_loopAmong pes label).linksAllOrNone hlinks
      (.inr fun i _ j _ hij hpair => hij hpair.1)
  cases change with
  | addProcessor label => cases hchange
  | addProcessors count label => cases hchange
  | addChannel source target label =>
      obtain rfl : source = target := hchange
      refine (hformed.joinsOrRefuses_addChannel source source label).linksAllOrNone hlinks
        (.inr fun i _ j _ hij hpair => ?_)
      obtain ⟨rfl, rfl⟩ | ⟨-, rfl, rfl⟩ := hpair
      · exact hij rfl
      · exact hij rfl
  | connectAmong pes label => cases hchange
  | connectAll label =>
      rw [perform_connectAll]
      refine (hformed.joinsOrRefuses_connectAmong _ label).linksAllOrNone hlinks
        (.inl fun i hi j hj hij => ?_)
      exact ⟨hij, List.mem_range.mpr hi, List.mem_range.mpr hj⟩
  | connectLabelled kind label => cases hchange
  | loopAmong pes label => exact hloops pes label
  | loopAll label =>
      rw [perform_loopAll]
      exact hloops _ label
  | loopLabelled kind label =>
      rw [perform_loopLabelled]
      exact hloops _ label

/-- Any number of such calls, in any order, keep that links tell nothing. -/
theorem Built.linksAllOrNone_performAll (hg : Built g) (hlinks : g.LinksAllOrNone)
    {changes : List GraphChange} (hchanges : ∀ change ∈ changes, change.KeepsLinks) :
    (g.performAll changes).LinksAllOrNone := by
  induction changes generalizing g with
  | nil => exact hlinks
  | cons change rest ih =>
      obtain ⟨hfirst, hrest⟩ := List.forall_mem_cons.mp hchanges
      exact ih (hg.perform change) (hg.linksAllOrNone_perform hlinks hfirst) hrest

/-! ## Automorphisms -/

/-- A permutation keeps such a graph if it keeps the role of every processor. -/
theorem WellFormed.preserves_iff_role (hg : g.WellFormed) (hlinks : g.LinksAllOrNone) :
    g.Preserves p ↔ m = g.processorCount ∧ ∀ i < g.processorCount, g.role (p i) = g.role i := by
  constructor
  · intro h
    exact ⟨h.degree_eq, fun i hi => hg.role_eq_role_iff.mpr
      ⟨h.labelOf_eq i hi, h.hasChannel_eq i hi i hi⟩⟩
  · rintro ⟨rfl, hroles⟩
    refine ⟨rfl, fun i hi => (hg.role_eq_role_iff.mp (hroles i hi)).1, ?_⟩
    intro i hi j hj label
    by_cases hij : i = j
    · rw [← hij]
      exact (hg.role_eq_role_iff.mp (hroles i hi)).2 label
    · have hne : p i ≠ p j := fun heq => hij (p.app_injective heq)
      rcases hlinks label with hall | hnone
      · rw [hall i hi j hj hij, hall _ (p.app_lt hi) _ (p.app_lt hj) hne]
      · rw [hnone i hi j hj hij, hnone _ (p.app_lt hi) _ (p.app_lt hj) hne]

/-- The automorphisms rearrange the processors of each role independently of the others. -/
theorem order_automorphisms_of_linksAllOrNone (hg : Built g) (hlinks : g.LinksAllOrNone)
    (finder : AutomorphismFinder) :
    (g.automorphisms finder).order =
      ∏ k ∈ (Finset.range g.processorCount).image g.role,
        (Finset.card {i ∈ Finset.range g.processorCount | g.role i = k}).factorial := by
  have hformed := hg.wellFormed
  have hdegree := hformed.degree_automorphisms finder
  have hmembers : (g.automorphisms finder).membersOf hdegree =
      keeping g.processorCount g.role := by
    ext p
    rw [PermGroup.mem_membersOf, hformed.contains_automorphisms_iff_preserves,
      hformed.preserves_iff_role hlinks]
    exact and_iff_right rfl
  rw [← PermGroup.card_membersOf hdegree, hmembers, card_keeping]

/-- Three processors with the same channels to themselves, which they got in different
orders and more than once, two with another label, and one without such channels. -/
theorem order_automorphisms_of_linksAllOrNone_directed :
    let start := ["A", "A", "A", "B", "B", "A"].foldl addProcessor (empty true)
    let g := start.performAll [.loopAmong [0, 1] "L", .connectAll "C", .loopAmong [2, 1, 2, 0] "M",
      .addChannel 2 2 "L", .connectAll "D", .addChannel 1 1 "L"]
    Built g ∧ g.LinksAllOrNone ∧ (g.automorphisms .search).order = 12 := by
  intro start g
  have hstart : Built start := (Built.empty true).foldl_addProcessor _
  have hlinks : g.LinksAllOrNone :=
    hstart.linksAllOrNone_performAll (linksAllOrNone_foldl_addProcessor true _)
      (by simp [GraphChange.KeepsLinks])
  have hg : Built g := hstart.performAll _
  refine ⟨hg, hlinks, (order_automorphisms_of_linksAllOrNone hg hlinks .search).trans ?_⟩
  decide +kernel

end ProcessorGraph
end ProcessorSymmetry

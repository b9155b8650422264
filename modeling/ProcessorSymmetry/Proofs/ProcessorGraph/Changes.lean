import Mathlib.Data.Set.Card
import ProcessorSymmetry.Proofs.ProcessorGraph.Built
import ProcessorSymmetry.Proofs.ProcessorGraph.Records

/-!
# Graphs that are changed call by call

A graph is made in one of a few ways and then changed in place.  Each call is
answered, and a call that is refused leaves the graph as it is.  Whatever calls are
made, the list of the channels, their keys and the tables of labels agree, so that
the graph has as many channels as there are to ask for.
-/

namespace ProcessorSymmetry

/-- A way to make a graph. -/
inductive GraphOrigin where
  | empty (directed : Bool)
  | adjacency (count : Nat) (targets : List (Nat × List Nat)) (directed : Bool)
  | complete (count : Nat) (processorLabel channelLabel : String)
  | mesh (width height : Nat) (processorLabel channelLabel : String)
  | torus (width height : Nat) (processorLabel channelLabel : String)
  | restored (record : GraphRecord)
  | flattened (system : UniformSystem)

/-- The graph that is made, unless a processor is named that it does not have. -/
def GraphOrigin.make : GraphOrigin → Except Error ProcessorGraph
  | .empty directed => .ok (.empty directed)
  | .adjacency count targets directed => ProcessorGraph.ofAdjacency count targets directed
  | .complete count processorLabel channelLabel =>
    .ok (.complete count processorLabel channelLabel)
  | .mesh width height processorLabel channelLabel =>
    .ok (.mesh width height processorLabel channelLabel)
  | .torus width height processorLabel channelLabel =>
    .ok (.torus width height processorLabel channelLabel)
  | .restored record => ProcessorGraph.ofRecord record
  | .flattened system => system.flatten

/-- A call that changes a graph in place. -/
inductive GraphChange where
  | addProcessor (label : String)
  | addProcessors (count : Nat) (label : String)
  | addChannel (source target : Nat) (label : String)
  | connectAmong (pes : List Nat) (label : String)
  | connectAll (label : String)
  | connectLabelled (processorLabel label : String)
  | loopAmong (pes : List Nat) (label : String)
  | loopAll (label : String)
  | loopLabelled (processorLabel label : String)
  deriving DecidableEq

/-- What a caller is told: the number of the new processor, the numbers from the first
new one up to the end, whether a channel is new, or how many channels are. -/
inductive GraphAnswer where
  | processor (pe : Nat)
  | processors (start stop : Nat)
  | isNew (new : Bool)
  | added (count : Nat)
  deriving DecidableEq

namespace ProcessorGraph

variable {g h : ProcessorGraph} {s t : Nat} {label : String}

/-- The answer to a call that may be refused, and the graph after it. -/
def settle {α : Type} (g : ProcessorGraph) (answer : α → GraphAnswer) :
    Except Error (α × ProcessorGraph) → Except Error GraphAnswer × ProcessorGraph
  | .ok (a, h) => (.ok (answer a), h)
  | .error cause => (.error cause, g)

/-- The answer to a call and the graph after it.  A call that is refused leaves the
graph as it is. -/
def perform (g : ProcessorGraph) : GraphChange → Except Error GraphAnswer × ProcessorGraph
  | .addProcessor label => (.ok (.processor g.processorCount), g.addProcessor label)
  | .addProcessors count label =>
    let h := g.addProcessors count label
    (.ok (.processors g.processorCount h.processorCount), h)
  | .addChannel source target label => g.settle .isNew (g.addChannel source target label)
  | .connectAmong pes label => g.settle .added (g.connectAmong pes label)
  | .connectAll label => g.settle .added (.ok (g.connectAll label))
  | .connectLabelled processorLabel label =>
    g.settle .added (.ok (g.connectLabelled processorLabel label))
  | .loopAmong pes label => g.settle .added (g.loopAmong pes label)
  | .loopAll label => g.settle .added (.ok (g.loopAll label))
  | .loopLabelled processorLabel label =>
    g.settle .added (.ok (g.loopLabelled processorLabel label))

/-- The graph after a sequence of calls. -/
def performAll (g : ProcessorGraph) (changes : List GraphChange) : ProcessorGraph :=
  changes.foldl (fun g change => (g.perform change).2) g

/-! ## What calls preserve -/

theorem Built.settle {α : Type} (hg : Built g) (answer : α → GraphAnswer)
    {result : Except Error (α × ProcessorGraph)}
    (hresult : ∀ a h, result = .ok (a, h) → Built h) : Built (g.settle answer result).2 := by
  cases result with
  | error cause => exact hg
  | ok next => exact hresult next.1 next.2 rfl

/-- One call leads from a graph that can be built to another one. -/
theorem Built.perform (hg : Built g) (change : GraphChange) : Built (g.perform change).2 := by
  cases change with
  | addProcessor label => exact hg.addProcessor label
  | addProcessors count label => exact hg.addProcessors count label
  | addChannel source target label => exact hg.settle .isNew fun _ _ hadded => hg.addChannel hadded
  | connectAmong pes label => exact hg.settle .added fun _ _ hadded => hg.connectAmong hadded
  | connectAll label => exact hg.connectAll label
  | connectLabelled processorLabel label => exact hg.connectLabelled processorLabel label
  | loopAmong pes label => exact hg.settle .added fun _ _ hadded => hg.loopAmong hadded
  | loopAll label => exact hg.loopAll label
  | loopLabelled processorLabel label => exact hg.loopLabelled processorLabel label

theorem Built.performAll (hg : Built g) (changes : List GraphChange) :
    Built (g.performAll changes) := by
  induction changes generalizing g with
  | nil => exact hg
  | cons change rest ih => exact ih (hg.perform change)

theorem built_make {origin : GraphOrigin} (hg : origin.make = .ok g) : Built g := by
  cases origin with
  | empty directed =>
      rw [← Except.ok.inj hg]
      exact .empty directed
  | adjacency count targets directed => exact built_ofAdjacency hg
  | complete count processorLabel channelLabel =>
      rw [← Except.ok.inj hg]
      exact built_complete count processorLabel channelLabel
  | mesh width height processorLabel channelLabel =>
      rw [← Except.ok.inj hg]
      exact .mesh width height processorLabel channelLabel
  | torus width height processorLabel channelLabel =>
      rw [← Except.ok.inj hg]
      exact .torus width height processorLabel channelLabel
  | restored record => exact built_ofRecord hg
  | flattened system => exact built_flatten hg

/-! ## Channels that differ -/

/-- A listed channel with its ends in the order in which they are looked up. -/
def listedKey (g : ProcessorGraph) (x : Nat × Nat × String) : Nat × Nat × String :=
  ((g.ends x.1 x.2.1).1, (g.ends x.1 x.2.1).2, x.2.2)

theorem coincide_iff (x y : Nat × Nat × String) :
    g.Coincide x y ↔ g.listedKey x = g.listedKey y := by
  simp only [Coincide, listedKey, Prod.ext_iff, and_assoc]

theorem listedKey_listedKey (x : Nat × Nat × String) :
    g.listedKey (g.listedKey x) = g.listedKey x := by
  simp only [listedKey, ends_ends]

theorem listedKey_eq_self_iff (x : Nat × Nat × String) :
    g.listedKey x = x ↔ g.directed = true ∨ x.1 ≤ x.2.1 := by
  obtain ⟨i, j, label⟩ := x
  rw [listedKey, ends]
  by_cases hsorted : g.directed = true ∨ i ≤ j
  · simp [hsorted]
  · have hne : j ≠ i := by omega
    simp [hsorted, hne]

theorem WellFormed.listedKeys_nodup (hg : g.WellFormed) :
    (g.channelList.map g.listedKey).Nodup := by
  apply List.pairwise_map.mpr
  apply hg.channelList_pairwise.imp
  intro x y hdistinct hkeys
  exact hdistinct ((coincide_iff x y).mpr hkeys)

/-- The keys of the listed channels are the channels that can be asked for with their
ends in order. -/
theorem WellFormed.mem_listedKeys_iff (hg : g.WellFormed) (x : Nat × Nat × String) :
    x ∈ g.channelList.map g.listedKey ↔
      g.hasChannel x.1 x.2.1 x.2.2 = true ∧ (g.directed = true ∨ x.1 ≤ x.2.1) := by
  rw [hg.hasChannel_iff_coincide, ← listedKey_eq_self_iff, List.mem_map]
  constructor
  · intro ⟨y, hy, hkey⟩
    have hsorted : g.listedKey x = x := by rw [← hkey, listedKey_listedKey]
    exact ⟨⟨y, hy, (coincide_iff y x).mpr (hkey.trans hsorted.symm)⟩, hsorted⟩
  · intro ⟨⟨y, hy, hcoincide⟩, hsorted⟩
    exact ⟨y, hy, ((coincide_iff y x).mp hcoincide).trans hsorted⟩

/-- The channels that can be asked for, each of them with its ends in order. -/
def channelKeys (g : ProcessorGraph) : Finset (Nat × Nat × String) :=
  (g.channelList.map g.listedKey).toFinset

theorem WellFormed.mem_channelKeys (hg : g.WellFormed) {x : Nat × Nat × String} :
    x ∈ g.channelKeys ↔
      g.hasChannel x.1 x.2.1 x.2.2 = true ∧ (g.directed = true ∨ x.1 ≤ x.2.1) := by
  rw [channelKeys, List.mem_toFinset, hg.mem_listedKeys_iff]

theorem WellFormed.mem_channelKeys_of_undirected (hg : g.WellFormed)
    (hundirected : g.directed = false) {i j : Nat} {label : String} :
    (i, j, label) ∈ g.channelKeys ↔ g.hasChannel i j label = true ∧ i ≤ j := by
  simp [hg.mem_channelKeys, hundirected]

theorem WellFormed.card_channelKeys (hg : g.WellFormed) :
    g.channelKeys.card = g.channelCount := by
  rw [channelKeys, List.toFinset_card_of_nodup hg.listedKeys_nodup, List.length_map, channelList,
    List.length_map, Array.length_toList, channelCount]

/-- Each channel that can be asked for is stored once, whichever way it is asked for. -/
theorem WellFormed.channelCount_eq_ncard (hg : g.WellFormed) :
    g.channelCount = Set.ncard {x : Nat × Nat × String |
      g.hasChannel x.1 x.2.1 x.2.2 = true ∧ (g.directed = true ∨ x.1 ≤ x.2.1)} := by
  rw [← hg.card_channelKeys, ← Set.ncard_coe_finset]
  congr 1
  ext x
  exact hg.mem_channelKeys

theorem WellFormed.hasChannel_iff_listed (hg : g.WellFormed) :
    g.hasChannel s t label = true ↔ (s, t, label) ∈ g.channelList ∨
      g.directed = false ∧ (t, s, label) ∈ g.channelList := by
  rw [hg.hasChannel_iff_coincide]
  constructor
  · intro ⟨⟨a, b, other⟩, hmem, hends, hlabel⟩
    obtain rfl : other = label := hlabel
    obtain ⟨rfl, rfl⟩ | ⟨hundirected, rfl, rfl⟩ := ends_eq_ends_iff.mp hends
    · exact .inl hmem
    · exact .inr ⟨hundirected, hmem⟩
  · intro hlisted
    rcases hlisted with hmem | ⟨hundirected, hmem⟩
    · exact ⟨_, hmem, rfl, rfl⟩
    · exact ⟨_, hmem, ends_eq_ends_iff.mpr (.inr ⟨hundirected, rfl, rfl⟩), rfl⟩

theorem WellFormed.sorted_of_mem_keys (hg : g.WellFormed) {k : Channel}
    (hk : g.keys.contains k = true) : g.directed = true ∨ k.source ≤ k.target := by
  obtain ⟨c, -, rfl⟩ := (hg.keys_iff k).mp hk
  rw [key, Channel.sorted]
  split
  · rename_i hdirected
    exact .inl hdirected
  · split
    · rename_i hsorted
      exact .inr hsorted
    · rename_i hunsorted
      exact .inr (Nat.le_of_not_le hunsorted)

/-! ## The graph after any calls -/

/-- However a graph was made and whatever calls were made on it, refused ones among
them, it is well-formed: channels lead between its processors, numbers of labels mean
something, no label has two numbers, and the keys are those of the channels, each of
one channel.  Keys of an undirected graph are sorted.  Hence a graph has as many
channels as there are to ask for, and the listed ones, in both directions if it is
undirected, are those that are found. -/
theorem performAll_wellFormed_and_channels {origin : GraphOrigin} {start : ProcessorGraph}
    (hstart : origin.make = .ok start) (changes : List GraphChange) :
    let g := start.performAll changes
    g.WellFormed ∧
      (∀ k, g.keys.contains k = true → g.directed = true ∨ k.source ≤ k.target) ∧
      g.channelCount = Set.ncard {x : Nat × Nat × String |
        g.hasChannel x.1 x.2.1 x.2.2 = true ∧ (g.directed = true ∨ x.1 ≤ x.2.1)} ∧
      ∀ s t label, g.hasChannel s t label = true ↔ (s, t, label) ∈ g.channelList ∨
        g.directed = false ∧ (t, s, label) ∈ g.channelList := by
  intro g
  have hg : g.WellFormed := ((built_make hstart).performAll changes).wellFormed
  exact ⟨hg, fun k hk => hg.sorted_of_mem_keys hk, hg.channelCount_eq_ncard,
    fun s t label => hg.hasChannel_iff_listed⟩

/-- A channel is added the other way round, one call is refused, and a processor is
named twice. -/
theorem performAll_wellFormed_and_channels_undirected :
    let changes : List GraphChange := [.addProcessors 3 "P", .addChannel 1 0 "C",
      .addChannel 0 1 "C", .addChannel 0 7 "C", .connectAll "C", .loopAmong [2, 2] "L"]
    let g := (empty false).performAll changes
    (GraphOrigin.empty false).make = .ok (empty false) ∧ g.WellFormed ∧
      Set.ncard {x : Nat × Nat × String |
        g.hasChannel x.1 x.2.1 x.2.2 = true ∧ (g.directed = true ∨ x.1 ≤ x.2.1)} = 4 ∧
      g.hasChannel 0 1 "C" = true := by
  intro changes g
  have hmade : (GraphOrigin.empty false).make = .ok (empty false) := rfl
  obtain ⟨hformed, -, hcount, hfound⟩ := performAll_wellFormed_and_channels hmade changes
  have hfour : g.channelCount = 4 := by decide +kernel
  have hlisted : g.directed = false ∧ (1, 0, "C") ∈ g.channelList := by decide +kernel
  exact ⟨hmade, hformed, hcount.symm.trans hfour, (hfound 0 1 "C").mpr (.inr hlisted)⟩

end ProcessorGraph
end ProcessorSymmetry

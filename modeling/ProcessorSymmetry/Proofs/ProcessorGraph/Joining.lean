import ProcessorSymmetry.Proofs.ProcessorGraph.Changes

/-!
# Calls that join processors

A call that joins processors by channels with one label checks all of them before it
changes anything.  If one of them does not exist, the graph stays as it is.  Otherwise
exactly the channels that were asked for and were not there are put after those that
are there already, and the answer is how many they are.
-/

namespace ProcessorSymmetry

namespace ProcessorGraph

variable {g h f : ProcessorGraph} {label : String} {joined next : Nat → Nat → Prop}
  {a b i k l source target : Nat} {c : Channel} {pes : List Nat} {pairs : List (Nat × Nat)}

/-! ## Channels that are put after others -/

/-- In `h` there are `k` channels more than in `g`, listed after those of `g`.  They have
the given label and join processors as they are supposed to, so that all of these are
joined by a channel with this label. -/
structure Joins (g : ProcessorGraph) (label : String) (joined : Nat → Nat → Prop) (k : Nat)
    (h : ProcessorGraph) : Prop where
  sameProcessors : g.SameProcessors h
  hasChannel_iff : ∀ a b other, h.hasChannel a b other = true ↔
    g.hasChannel a b other = true ∨ other = label ∧ joined a b
  channelList_eq : ∃ new, h.channelList = g.channelList ++ new ∧ new.length = k ∧
    ∀ x ∈ new, x.2.2 = label ∧ joined x.1 x.2.1 ∧ g.hasChannel x.1 x.2.1 label = false

theorem Joins.trans (hgh : g.Joins label joined k h) (hhf : h.Joins label next l f) :
    g.Joins label (fun a b => joined a b ∨ next a b) (k + l) f where
  sameProcessors := hgh.sameProcessors.trans hhf.sameProcessors
  hasChannel_iff := by
    intro a b other
    rw [hhf.hasChannel_iff, hgh.hasChannel_iff]
    tauto
  channelList_eq := by
    obtain ⟨first, hfirst, rfl, hfirstNew⟩ := hgh.channelList_eq
    obtain ⟨second, hsecond, rfl, hsecondNew⟩ := hhf.channelList_eq
    refine ⟨first ++ second, ?_, List.length_append, fun x hx => ?_⟩
    · rw [hsecond, hfirst, List.append_assoc]
    · rcases List.mem_append.mp hx with hx | hx
      · obtain ⟨hlabel, hjoined, hnew⟩ := hfirstNew x hx
        exact ⟨hlabel, .inl hjoined, hnew⟩
      · obtain ⟨hlabel, hjoined, hnew⟩ := hsecondNew x hx
        refine ⟨hlabel, .inr hjoined, ?_⟩
        rw [← Bool.not_eq_true] at hnew ⊢
        exact fun hold => hnew ((hgh.hasChannel_iff _ _ _).mpr (.inl hold))

theorem Joins.congr (hgh : g.Joins label joined k h) (heq : ∀ a b, joined a b ↔ next a b) :
    g.Joins label next k h := by
  have hsame : joined = next := funext fun a => funext fun b => propext (heq a b)
  rwa [← hsame]

theorem Joins.channelCount_eq (hgh : g.Joins label joined k h) :
    h.channelCount = g.channelCount + k := by
  obtain ⟨new, hnew, rfl, -⟩ := hgh.channelList_eq
  have hlength := congrArg List.length hnew
  simpa [channelList, channelCount] using hlength

theorem WellFormed.joins_internChannelLabel (hg : g.WellFormed) (label : String) :
    g.Joins label (fun _ _ => False) 0 (g.internChannelLabel label).2 where
  sameProcessors := ⟨rfl, rfl, rfl⟩
  hasChannel_iff := fun a b other => by rw [hg.hasChannel_internChannelLabel]; simp
  channelList_eq := ⟨[], by rw [hg.channelList_internChannelLabel, List.append_nil], rfl, by simp⟩

/-- An insertion answers whether the channel was missing. -/
theorem WellFormed.insertChannel_fst (hg : g.WellFormed)
    (hlabel : g.channelLabels[c.label]? = some label) :
    (g.insertChannel c).1 = !g.hasChannel c.source c.target label := by
  rw [hg.hasChannel_eq_contains hlabel, ProcessorGraph.insertChannel]
  cases g.keys.contains (g.key c) with
  | true => rfl
  | false => rfl

/-- One channel is put after the others unless it is there already. -/
theorem WellFormed.joins_insertChannel (hg : g.WellFormed) (hsource : c.source < g.processorCount)
    (htarget : c.target < g.processorCount) (hlabel : g.channelLabels[c.label]? = some label) :
    g.Joins label (fun a b => g.ends c.source c.target = g.ends a b)
      (g.insertChannel c).1.toNat (g.insertChannel c).2 where
  sameProcessors := g.sameProcessors_insertChannel c
  hasChannel_iff := fun a b other => hg.hasChannel_insertChannel hsource htarget hlabel
  channelList_eq := by
    refine ⟨_, hg.channelList_insertChannel hlabel, ?_, ?_⟩
    · rw [hg.insertChannel_fst hlabel]
      cases g.hasChannel c.source c.target label with
      | true => rfl
      | false => rfl
    · intro x hx
      split at hx
      · cases hx
      · rename_i hnone
        rw [List.mem_singleton.mp hx]
        exact ⟨rfl, rfl, Bool.eq_false_iff.mpr hnone⟩

/-! ## Many channels with one label -/

/-- Inserts the channel of a pair and counts it if it is new. -/
def insertNext (i : Nat) (state : Nat × ProcessorGraph) (pair : Nat × Nat) :
    Nat × ProcessorGraph :=
  let inserted := state.2.insertChannel ⟨pair.1, pair.2, i⟩
  (state.1 + inserted.1.toNat, inserted.2)

theorem connect_eq_foldl (g : ProcessorGraph) (label : String) (pairs : List (Nat × Nat)) :
    g.connect label pairs = pairs.foldl (insertNext (g.internChannelLabel label).1)
      (0, (g.internChannelLabel label).2) := by
  have hcount : ∀ (added : Nat) (new : Bool),
      (if new then added + 1 else added) = added + new.toNat := by
    intro added new
    cases new with
    | true => rfl
    | false => rfl
  exact List.foldl_ext _ _ _ fun state pair _ => Prod.ext (hcount _ _) rfl

/-- What one insertion does is done for each pair in turn, and the answers add up. -/
theorem WellFormed.exists_foldl_insertNext (hg : g.WellFormed)
    (hlabel : g.channelLabels[i]? = some label)
    (hpairs : ∀ pair ∈ pairs, pair.1 < g.processorCount ∧ pair.2 < g.processorCount)
    (added : Nat) :
    ∃ k h, pairs.foldl (insertNext i) (added, g) = (added + k, h) ∧
      g.Joins label (fun a b => ∃ pair ∈ pairs, g.ends pair.1 pair.2 = g.ends a b) k h := by
  induction pairs generalizing g added with
  | nil =>
      exact ⟨0, g, rfl, .refl g, by simp, [], (List.append_nil _).symm, rfl, by simp⟩
  | cons pair rest ih =>
      obtain ⟨⟨hsource, htarget⟩, hrest⟩ := List.forall_mem_cons.mp hpairs
      let c : Channel := ⟨pair.1, pair.2, i⟩
      have hfirst := hg.joins_insertChannel (c := c) hsource htarget hlabel
      have hformed := hg.insertChannel (c := c) hsource htarget
        (Array.getElem?_eq_some_iff.mp hlabel).1
      rw [← hfirst.sameProcessors.processorCount_eq] at hrest
      obtain ⟨k, h, hfold, hjoins⟩ := ih hformed
        ((congrArg (·[i]?) (channelLabels_insertChannel g c)).trans hlabel) hrest
        (added + (g.insertChannel c).1.toNat)
      refine ⟨(g.insertChannel c).1.toNat + k, h, ?_, (hfirst.trans hjoins).congr ?_⟩
      · rw [← Nat.add_assoc]
        exact hfold
      · intro a b
        simp only [hfirst.sameProcessors.ends_eq, List.exists_mem_cons_iff]
        exact Iff.rfl

/-- Pairs of processors of the graph are all joined, and no others. -/
theorem WellFormed.exists_connect (hg : g.WellFormed) (label : String)
    (hpairs : ∀ pair ∈ pairs, pair.1 < g.processorCount ∧ pair.2 < g.processorCount) :
    ∃ k h, g.connect label pairs = (k, h) ∧
      g.Joins label (fun a b => ∃ pair ∈ pairs, g.ends pair.1 pair.2 = g.ends a b) k h := by
  have hinterned := hg.joins_internChannelLabel label
  obtain ⟨k, h, hfold, hjoins⟩ := (hg.internChannelLabel label).exists_foldl_insertNext
    (internLabel_spec hg.channelLabels_nodup label).2.2 hpairs 0
  refine ⟨k, h, ?_, ?_⟩
  · rw [Nat.zero_add] at hfold
    exact (connect_eq_foldl g label pairs).trans hfold
  · rw [← Nat.zero_add k]
    refine (hinterned.trans hjoins).congr fun a b => ?_
    simp only [hinterned.sameProcessors.ends_eq, false_or]

/-! ## The calls -/

theorem mem_distinctPairs : (a, b) ∈ g.distinctPairs pes ↔
    a ∈ pes ∧ b ∈ pes ∧ a ≠ b ∧ (g.directed = true ∨ a < b) := by
  simp [distinctPairs]

/-- Distinct processors of a list are joined, in both directions if the graph is directed. -/
theorem exists_distinctPair_iff :
    (∃ pair ∈ g.distinctPairs pes, g.ends pair.1 pair.2 = g.ends a b) ↔
      a ≠ b ∧ a ∈ pes ∧ b ∈ pes := by
  simp only [Prod.exists, mem_distinctPairs, ends_eq_ends_iff]
  constructor
  · rintro ⟨i, j, ⟨hi, hj, hij, -⟩, ⟨rfl, rfl⟩ | ⟨-, rfl, rfl⟩⟩
    · exact ⟨hij, hi, hj⟩
    · exact ⟨hij.symm, hj, hi⟩
  · rintro ⟨hab, ha, hb⟩
    by_cases hsorted : g.directed = true ∨ a < b
    · exact ⟨a, b, ⟨ha, hb, hab, hsorted⟩, .inl ⟨rfl, rfl⟩⟩
    · -- In an undirected graph the pair is listed with its lower processor first.
      rw [not_or, Bool.not_eq_true] at hsorted
      have hlt : b < a := by omega
      exact ⟨b, a, ⟨hb, ha, hab.symm, .inr hlt⟩, .inr ⟨hsorted.1, rfl, rfl⟩⟩

theorem exists_loop_iff :
    (∃ pair ∈ pes.map fun pe => (pe, pe), g.ends pair.1 pair.2 = g.ends a b) ↔
      a = b ∧ a ∈ pes := by
  simp only [List.mem_map, exists_exists_and_eq_and, ends_eq_ends_iff]
  grind

theorem check_eq_error {pe : Nat} (h : g.processorCount ≤ pe) :
    g.check pe = .error (.unknownProcessor pe g.processorCount) :=
  if_neg (Nat.not_lt.mpr h)

theorem forM_check_eq_ok (hpes : ∀ pe ∈ pes, pe < g.processorCount) : pes.forM g.check = .ok () :=
  forM_eq_ok_iff.mpr fun pe hpe => check_eq_ok_iff.mpr (hpes pe hpe)

/-- Of the processors that do not exist the first one is reported. -/
theorem forM_check_eq_error {pe : Nat} (h : pes.find? (g.processorCount ≤ ·) = some pe) :
    pes.forM g.check = .error (.unknownProcessor pe g.processorCount) := by
  refine forM_eq_error (fun other hother => check_eq_ok_iff.mpr ?_) h (check_eq_error ?_)
  · simpa using hother
  · simpa using List.find?_some h

/-- A call names processors and joins some of them by channels with a label.  If a named
processor does not exist, the first such processor is reported and the graph stays as it
is, with everything that it remembers.  Otherwise the processors are joined, and the
response tells how many channels there are more than before. -/
structure JoinsOrRefuses (g : ProcessorGraph) (change : GraphChange)
    (response : Nat → GraphAnswer) (named : List Nat) (label : String)
    (joined : Nat → Nat → Prop) : Prop where
  refuses : (∃ pe ∈ named, g.processorCount ≤ pe) →
    ∃ pe, named.find? (g.processorCount ≤ ·) = some pe ∧
      g.perform change = (.error (.unknownProcessor pe g.processorCount), g)
  joins : (∀ pe ∈ named, pe < g.processorCount) →
    ∃ k h, g.perform change = (.ok (response k), h) ∧
      h.channelCount = g.channelCount + k ∧ g.Joins label joined k h

/-- All such calls check what they name before they do anything. -/
theorem joinsOrRefuses_of_perform {α : Type} {change : GraphChange} {answer : α → GraphAnswer}
    {response : Nat → GraphAnswer} {result : α × ProcessorGraph}
    (hperform : g.perform change = g.settle answer (pes.forM g.check >>= fun _ => .ok result))
    (hanswer : response k = answer result.1)
    (hresult : (∀ pe ∈ pes, pe < g.processorCount) → g.Joins label joined k result.2) :
    g.JoinsOrRefuses change response pes label joined where
  refuses := by
    rintro ⟨pe, hpe, hmissing⟩
    have hsome : (pes.find? (g.processorCount ≤ ·)).isSome = true :=
      List.find?_isSome.mpr ⟨pe, hpe, decide_eq_true hmissing⟩
    obtain ⟨first, hfirst⟩ := Option.isSome_iff_exists.mp hsome
    refine ⟨first, hfirst, ?_⟩
    rw [hperform, forM_check_eq_error hfirst]
    rfl
  joins := by
    intro hpes
    refine ⟨k, result.2, ?_, (hresult hpes).channelCount_eq, hresult hpes⟩
    rw [hperform, forM_check_eq_ok hpes, hanswer]
    rfl

theorem WellFormed.joinsOrRefuses_connectAmong (hg : g.WellFormed) (pes : List Nat)
    (label : String) : g.JoinsOrRefuses (.connectAmong pes label) .added pes label
      fun a b => a ≠ b ∧ a ∈ pes ∧ b ∈ pes := by
  refine joinsOrRefuses_of_perform rfl rfl fun hpes => ?_
  have hpairs : ∀ pair ∈ g.distinctPairs pes,
      pair.1 < g.processorCount ∧ pair.2 < g.processorCount := by
    intro pair hpair
    obtain ⟨hsource, htarget⟩ := mem_of_mem_distinctPairs hpair
    exact ⟨hpes _ hsource, hpes _ htarget⟩
  obtain ⟨k, h, hconnect, hjoins⟩ := hg.exists_connect label hpairs
  rw [hconnect]
  exact hjoins.congr fun a b => exists_distinctPair_iff

theorem WellFormed.joinsOrRefuses_loopAmong (hg : g.WellFormed) (pes : List Nat)
    (label : String) : g.JoinsOrRefuses (.loopAmong pes label) .added pes label
      fun a b => a = b ∧ a ∈ pes := by
  refine joinsOrRefuses_of_perform rfl rfl fun hpes => ?_
  have hpairs : ∀ pair ∈ pes.map fun pe => (pe, pe),
      pair.1 < g.processorCount ∧ pair.2 < g.processorCount := by
    simpa using hpes
  obtain ⟨k, h, hconnect, hjoins⟩ := hg.exists_connect label hpairs
  rw [hconnect]
  exact hjoins.congr fun a b => exists_loop_iff

theorem addChannel_eq_bind (g : ProcessorGraph) (source target : Nat) (label : String) :
    g.addChannel source target label = [source, target].forM g.check >>= fun _ =>
      .ok ((g.internChannelLabel label).2.insertChannel
        ⟨source, target, (g.internChannelLabel label).1⟩) := by
  have hchecks : [source, target].forM g.check =
      g.check source >>= fun _ => g.check target >>= fun _ => .ok () := rfl
  simp only [hchecks, bind_assoc]
  rfl

theorem WellFormed.joinsOrRefuses_addChannel (hg : g.WellFormed) (source target : Nat)
    (label : String) : g.JoinsOrRefuses (.addChannel source target label)
      (fun k => .isNew (decide (0 < k))) [source, target] label
      fun a b => a = source ∧ b = target ∨ g.directed = false ∧ a = target ∧ b = source := by
  have hperform : g.perform (.addChannel source target label) =
      g.settle .isNew (g.addChannel source target label) := rfl
  rw [addChannel_eq_bind] at hperform
  have hanswer : ∀ new : Bool, GraphAnswer.isNew (decide (0 < new.toNat)) = .isNew new := by
    decide
  refine joinsOrRefuses_of_perform hperform (hanswer _) fun hends => ?_
  obtain ⟨hsource, htarget⟩ : source < g.processorCount ∧ target < g.processorCount := by
    simpa using hends
  have hinterned := hg.joins_internChannelLabel label
  have hinserted := (hg.internChannelLabel label).joins_insertChannel
    (c := ⟨source, target, (g.internChannelLabel label).1⟩) hsource htarget
    (internLabel_spec hg.channelLabels_nodup label).2.2
  rw [← Nat.zero_add (Bool.toNat _)]
  refine (hinterned.trans hinserted).congr fun a b => ?_
  rw [hinterned.sameProcessors.ends_eq, hinterned.sameProcessors.ends_eq, eq_comm,
    ends_eq_ends_iff, false_or]

/-! ## Calls on whole graphs -/

theorem perform_connectAmong (hpes : ∀ pe ∈ pes, pe < g.processorCount) :
    g.perform (.connectAmong pes label) =
      g.settle .added (.ok (g.connect label (g.distinctPairs pes))) := by
  rw [perform, connectAmong, forM_check_eq_ok hpes]
  rfl

theorem perform_loopAmong (hpes : ∀ pe ∈ pes, pe < g.processorCount) :
    g.perform (.loopAmong pes label) =
      g.settle .added (.ok (g.connect label (pes.map fun pe => (pe, pe)))) := by
  rw [perform, loopAmong, forM_check_eq_ok hpes]
  rfl

theorem perform_connectAll (g : ProcessorGraph) (label : String) :
    g.perform (.connectAll label) =
      g.perform (.connectAmong (List.range g.processorCount) label) :=
  (perform_connectAmong fun _ => List.mem_range.mp).symm

theorem perform_loopAll (g : ProcessorGraph) (label : String) :
    g.perform (.loopAll label) = g.perform (.loopAmong (List.range g.processorCount) label) :=
  (perform_loopAmong fun _ => List.mem_range.mp).symm

theorem perform_loopLabelled (g : ProcessorGraph) (kind label : String) :
    g.perform (.loopLabelled kind label) =
      g.perform (.loopAmong (g.processorsLabelled kind) label) :=
  (perform_loopAmong fun _ => processorsLabelled_lt).symm

/-! ## All or nothing -/

/-- Joining is all or nothing, whichever of the calls is made and whatever is repeated or
was there before: distinct processors of a list are all joined, in both directions if the
graph is directed; or each one is joined with itself; or a single channel is added. -/
theorem joining_all_or_nothing (hg : Built g) (label : String) :
    (∀ pes, g.JoinsOrRefuses (.connectAmong pes label) .added pes label
      fun a b => a ≠ b ∧ a ∈ pes ∧ b ∈ pes) ∧
    (∀ pes, g.JoinsOrRefuses (.loopAmong pes label) .added pes label
      fun a b => a = b ∧ a ∈ pes) ∧
    ∀ source target, g.JoinsOrRefuses (.addChannel source target label)
      (fun k => .isNew (decide (0 < k))) [source, target] label
      fun a b => a = source ∧ b = target ∨ g.directed = false ∧ a = target ∧ b = source :=
  ⟨fun pes => hg.wellFormed.joinsOrRefuses_connectAmong pes label,
    fun pes => hg.wellFormed.joinsOrRefuses_loopAmong pes label,
    fun source target => hg.wellFormed.joinsOrRefuses_addChannel source target label⟩

/-- Three processors with one channel and a remembered group.  A missing processor leaves
all of this as it is, a processor that is named twice is joined once, and the channel that
is there already is found either way round. -/
theorem joining_all_or_nothing_repeated :
    let g := ((empty false).performAll [.addProcessors 3 "P", .addChannel 2 0 "C"]).remember .search
    Built g ∧
      g.perform (.connectAmong [0, 7, 5] "C") = (.error (.unknownProcessor 7 3), g) ∧
      (∃ h, g.perform (.connectAmong [0, 2, 1, 0] "C") = (.ok (.added 2), h) ∧
        h.channelCount = 3 ∧ h.hasChannel 2 1 "C" = true) ∧
      (∃ h, g.perform (.loopAmong [1, 1] "C") = (.ok (.added 1), h) ∧ h.channelCount = 2) ∧
      ∃ h, g.perform (.addChannel 0 2 "C") = (.ok (.isNew false), h) ∧ h.channelCount = 1 := by
  intro g
  have hg : Built g := ((Built.empty false).performAll _).remember .search
  obtain ⟨hconnect, hloop, hadd⟩ := joining_all_or_nothing hg "C"
  have hone : g.channelCount = 1 := by decide +kernel
  refine ⟨hg, ?_, ?_, ?_, ?_⟩
  · obtain ⟨pe, hfirst, hrefused⟩ := (hconnect [0, 7, 5]).refuses ⟨7, by decide, by decide +kernel⟩
    have hseven : [0, 7, 5].find? (g.processorCount ≤ ·) = some 7 := by decide +kernel
    obtain rfl : pe = 7 := Option.some.inj (hfirst.symm.trans hseven)
    exact hrefused
  · obtain ⟨k, h, hperform, hcount, hjoins⟩ := (hconnect [0, 2, 1, 0]).joins (by decide +kernel)
    have htwo : (g.perform (.connectAmong [0, 2, 1, 0] "C")).1 = .ok (.added 2) := by
      decide +kernel
    rw [hperform] at htwo
    obtain rfl : k = 2 := GraphAnswer.added.inj (Except.ok.inj htwo)
    refine ⟨h, hperform, hcount.trans (by rw [hone]), ?_⟩
    exact (hjoins.hasChannel_iff 2 1 "C").mpr (.inr ⟨rfl, by decide, by decide, by decide⟩)
  · obtain ⟨k, h, hperform, hcount, -⟩ := (hloop [1, 1]).joins (by decide +kernel)
    have hnew : (g.perform (.loopAmong [1, 1] "C")).1 = .ok (.added 1) := by decide +kernel
    rw [hperform] at hnew
    obtain rfl : k = 1 := GraphAnswer.added.inj (Except.ok.inj hnew)
    exact ⟨h, hperform, hcount.trans (by rw [hone])⟩
  · obtain ⟨k, h, hperform, hcount, -⟩ := (hadd 0 2).joins (by decide +kernel)
    have hold : (g.perform (.addChannel 0 2 "C")).1 = .ok (.isNew false) := by decide +kernel
    rw [hperform] at hold
    have hzero : decide (0 < k) = false := GraphAnswer.isNew.inj (Except.ok.inj hold)
    obtain rfl : k = 0 := by simpa using hzero
    exact ⟨h, hperform, hcount.trans (by rw [hone])⟩

end ProcessorGraph
end ProcessorSymmetry

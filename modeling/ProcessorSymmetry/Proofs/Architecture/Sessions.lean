import ProcessorSymmetry.Proofs.Architecture.Queries
import ProcessorSymmetry.Proofs.ProcessorGraph.Changes

/-!
# Sessions

In a session, systems are made, copied, joined, changed in place and asked for their
automorphisms, in any order and with finders that change in between.  A copy takes
along what its original remembers, and a cluster remembers what its parts do.  Still
nothing in a session is ever out of date, so that every query is answered as if it
were the first.
-/

namespace ProcessorSymmetry

open Architecture

/-- The systems so far, and the finder in use. -/
structure Session where
  finder : AutomorphismFinder
  systems : List Architecture

/-- What can be done in a session.  Systems are numbered in the order in which they are made. -/
inductive Request where
  | useFinder (finder : AutomorphismFinder)
  | make (origin : GraphOrigin)
  | restore (form : Form)
  | present (G : PermGroup)
  /-- The system of copies of two graphs. -/
  | compose (clusters proto : Nat)
  /-- The cluster of copies of those systems that there are. -/
  | gather (parts : List Nat)
  /-- A copy of a part of a system. -/
  | copy (i : Nat) (path : List Nat)
  | change (i : Nat) (change : GraphChange)
  /-- A copy of a system as one more part of a cluster. -/
  | addPart (i part : Nat)
  | ask (i : Nat) (path : List Nat)

namespace Session

/-- The session at its beginning. -/
def start : Session :=
  ⟨.search, []⟩

/-- The session with one more system. -/
def add (s : Session) (a : Architecture) : Session :=
  { s with systems := s.systems ++ [a] }

/-- The session with another system in place of one. -/
def put (s : Session) (i : Nat) (a : Architecture) : Session :=
  { s with systems := s.systems.set i a }

/-- The graph with a number. -/
def graph? (s : Session) (i : Nat) : Option ProcessorGraph :=
  match s.systems[i]? with
  | some (.graph g) => some g
  | _ => none

/-- A part of a system. -/
def partAt? (s : Session) (i : Nat) (path : List Nat) : Option Architecture := do
  (← s.systems[i]?).partAt? path

/-- The answer to a query of a part of a system, and the session after it. -/
def ask (s : Session) (i : Nat) (path : List Nat) : Option (PermGroup × Session) := do
  let answer ← (← s.systems[i]?).askAt s.finder path
  return (answer.1, s.put i answer.2)

/-- The session after a request, unless it is refused. -/
def perform? (s : Session) : Request → Option Session
  | .useFinder finder => some { s with finder }
  | .make origin => do return s.add (.graph (← origin.make.toOption))
  | .restore form => do return s.add (← (ofForm form).toOption)
  | .present G => some (s.add (.group G))
  | .compose clusters proto => do
    let system ← (UniformSystem.ofGraphs (← s.graph? clusters) (← s.graph? proto)).toOption
    return s.add (.uniform system)
  | .gather parts => some (s.add (.ofParts (parts.filterMap (s.systems[·]?))))
  | .copy i path => do return s.add (← s.partAt? i path)
  | .change i change => do return s.put i (.graph ((← s.graph? i).perform change).2)
  | .addPart i part => do return s.put i (← (← s.systems[i]?).addPart? (← s.systems[part]?))
  | .ask i path => do return (← s.ask i path).2

/-- The session after a sequence of requests.  Those that are refused change nothing. -/
def run (s : Session) (requests : List Request) : Session :=
  requests.foldl (fun s request => (s.perform? request).getD s) s

/-! ## What requests preserve -/

variable {s t : Session} {a part : Architecture} {i : Nat} {path : List Nat}

/-- Nothing that is remembered in a session is out of date. -/
def UpToDate (s : Session) : Prop :=
  ∀ a ∈ s.systems, a.UpToDate

theorem upToDate_start : start.UpToDate := by
  simp [UpToDate, start]

theorem UpToDate.add (hs : s.UpToDate) (ha : a.UpToDate) : (s.add a).UpToDate := by
  intro b hb
  rcases List.mem_append.mp hb with hb | hb
  · exact hs b hb
  · rwa [List.mem_singleton.mp hb]

theorem UpToDate.put (hs : s.UpToDate) (ha : a.UpToDate) : (s.put i a).UpToDate := by
  intro b hb
  rcases List.mem_or_eq_of_mem_set hb with hb | rfl
  · exact hs b hb
  · exact ha

theorem UpToDate.getElem? (hs : s.UpToDate) (ha : s.systems[i]? = some a) : a.UpToDate :=
  hs a (List.mem_of_getElem? ha)

theorem UpToDate.graph? {g : ProcessorGraph} (hs : s.UpToDate) (hg : s.graph? i = some g) :
    g.Built := by
  rw [Session.graph?] at hg
  split at hg
  · rename_i k hk
    obtain ⟨hbuilt⟩ := UpToDate.getElem? hs hk
    exact Option.some.inj hg ▸ hbuilt
  · cases hg

theorem UpToDate.partAt? (hs : s.UpToDate) (hpart : s.partAt? i path = some part) :
    part.UpToDate := by
  obtain ⟨a, ha, hpart⟩ := Option.bind_eq_some_iff.mp hpart
  exact Architecture.UpToDate.partAt? (UpToDate.getElem? hs ha) hpart

theorem UpToDate.exists_ask (hs : s.UpToDate) (hpart : s.partAt? i path = some part) :
    ∃ a b, s.systems[i]? = some a ∧ a.OnlyRemembers b ∧
      s.ask i path = some ((part.ask s.finder).1, s.put i b) := by
  obtain ⟨a, ha, hpart⟩ := Option.bind_eq_some_iff.mp hpart
  obtain ⟨b, hb, hremembers⟩ := (UpToDate.getElem? hs ha).exists_askAt hpart s.finder
  refine ⟨a, b, ha, hremembers, ?_⟩
  rw [ask, ha, Option.bind_eq_bind, Option.bind_some, hb]
  rfl

theorem exists_partAt?_of_ask {answer : PermGroup × Session} (h : s.ask i path = some answer) :
    ∃ part, s.partAt? i path = some part := by
  obtain ⟨a, ha, h⟩ := Option.bind_eq_some_iff.mp h
  obtain ⟨answered, hanswered, -⟩ := Option.bind_eq_some_iff.mp h
  obtain ⟨part, hpart⟩ := Architecture.exists_partAt?_of_askAt hanswered
  exact ⟨part, Option.bind_eq_some_iff.mpr ⟨a, ha, hpart⟩⟩

/-- One request leads from a session with nothing out of date to another one. -/
theorem UpToDate.perform? (hs : s.UpToDate) {request : Request}
    (ht : s.perform? request = some t) : t.UpToDate := by
  cases request with
  | useFinder finder =>
      obtain rfl := Option.some.inj ht
      exact hs
  | make origin =>
      obtain ⟨g, hg, ht⟩ := Option.bind_eq_some_iff.mp ht
      obtain rfl := Option.some.inj ht
      exact hs.add (.graph (ProcessorGraph.built_make (ok_of_toOption hg)))
  | restore form =>
      obtain ⟨a, ha, ht⟩ := Option.bind_eq_some_iff.mp ht
      obtain rfl := Option.some.inj ht
      exact hs.add (built_ofForm form (ok_of_toOption ha)).upToDate
  | present G =>
      obtain rfl := Option.some.inj ht
      exact hs.add (.group G)
  | compose clusters proto =>
      obtain ⟨g, hg, ht⟩ := Option.bind_eq_some_iff.mp ht
      obtain ⟨k, hk, ht⟩ := Option.bind_eq_some_iff.mp ht
      obtain ⟨system, hsystem, ht⟩ := Option.bind_eq_some_iff.mp ht
      obtain rfl := Option.some.inj ht
      exact hs.add (upToDate_ofGraphs (UpToDate.graph? hs hg) (UpToDate.graph? hs hk)
        (ok_of_toOption hsystem))
  | gather parts =>
      obtain rfl := Option.some.inj ht
      refine hs.add (.cluster (fun a ha => ?_) (by simp))
      obtain ⟨i, -, hi⟩ := List.mem_filterMap.mp ha
      exact UpToDate.getElem? hs hi
  | copy i path =>
      obtain ⟨part, hpart, ht⟩ := Option.bind_eq_some_iff.mp ht
      obtain rfl := Option.some.inj ht
      exact hs.add (UpToDate.partAt? hs hpart)
  | change i change =>
      obtain ⟨g, hg, ht⟩ := Option.bind_eq_some_iff.mp ht
      obtain rfl := Option.some.inj ht
      exact hs.put (.graph ((UpToDate.graph? hs hg).perform change))
  | addPart i part =>
      obtain ⟨a, ha, ht⟩ := Option.bind_eq_some_iff.mp ht
      obtain ⟨b, hb, ht⟩ := Option.bind_eq_some_iff.mp ht
      obtain ⟨whole, hwhole, ht⟩ := Option.bind_eq_some_iff.mp ht
      obtain rfl := Option.some.inj ht
      exact hs.put ((UpToDate.getElem? hs ha).addPart (UpToDate.getElem? hs hb) hwhole)
  | ask i path =>
      obtain ⟨answer, hanswer, ht⟩ := Option.bind_eq_some_iff.mp ht
      obtain rfl := Option.some.inj ht
      obtain ⟨part, hpart⟩ := exists_partAt?_of_ask hanswer
      obtain ⟨_, b, -, hremembers, hask⟩ := hs.exists_ask hpart
      obtain rfl := Option.some.inj (hask.symm.trans hanswer)
      exact hs.put hremembers.upToDate

theorem UpToDate.run (hs : s.UpToDate) (requests : List Request) : (s.run requests).UpToDate := by
  induction requests generalizing s with
  | nil => exact hs
  | cons request rest ih =>
      have hnext : ((s.perform? request).getD s).UpToDate := by
        cases hperform : s.perform? request with
        | none => exact hs
        | some t => exact UpToDate.perform? hs hperform
      exact ih hnext

theorem forms_put {b : Architecture} (ha : s.systems[i]? = some a)
    (hremembers : a.OnlyRemembers b) :
    (s.put i b).systems.map toForm = s.systems.map toForm := by
  obtain ⟨hi, rfl⟩ := List.getElem?_eq_some_iff.mp ha
  have hlength : i < (s.systems.map toForm).length := by rwa [List.length_map]
  calc
    (s.put i b).systems.map toForm = (s.systems.map toForm).set i b.toForm := List.map_set
    _ = (s.systems.map toForm).set i (s.systems.map toForm)[i] := by
      rw [hremembers.toForm_eq, List.getElem_map]
    _ = s.systems.map toForm := List.set_getElem_self hlength

/-! ## Answers -/

/-- Whatever was made, copied, joined, changed and asked before, also if some of it was
refused, and whichever finders were used: a query of any part of any system is answered
by the group that any finder would find for this part as it is now, with nothing to rely
on.  The query leaves all systems as they are. -/
theorem exists_ask_same_afresh (requests : List Request)
    (hpart : (start.run requests).partAt? i path = some part) :
    let s := start.run requests
    ∃ G t, s.ask i path = some (G, t) ∧ (∀ finder, G.same (part.afresh finder) = true) ∧
      (s.finder = .search → G = part.automorphisms) ∧
      t.systems.map toForm = s.systems.map toForm := by
  intro s
  have hs : s.UpToDate := upToDate_start.run requests
  obtain ⟨a, b, ha, hremembers, hask⟩ := hs.exists_ask hpart
  refine ⟨_, _, hask, ?_, ?_, forms_put ha hremembers⟩
  · exact ((UpToDate.partAt? hs hpart).answers_ask s.finder).same
  · intro hsearch
    rw [hsearch, ask_search]

/-- A copy that takes along its group is changed, three times but only once in fact, and
joined with its original.  Their cluster has been asked before it gets another part. -/
theorem exists_ask_same_afresh_nested :
    let requests : List Request := [.make (.complete 3 "P" "C"), .ask 0 [], .copy 0 [],
      .useFinder .trial, .change 1 (.addChannel 1 0 "C"), .change 1 (.addChannel 0 1 "D"),
      .change 1 (.addChannel 0 9 "D"), .gather [0, 1], .ask 2 [1], .gather [2], .ask 3 [],
      .addPart 3 0, .ask 3 [0]]
    let s := start.run requests
    ∃ part, s.partAt? 3 [] = some part ∧ part.processorCount = 9 ∧ part.channelCount = 10 ∧
      ∃ G t, s.ask 3 [] = some (G, t) ∧ ∀ finder, G.same (part.afresh finder) = true := by
  intro requests s
  have hcounts : (s.partAt? 3 []).map (fun a => (a.processorCount, a.channelCount)) =
      some (9, 10) := by decide +kernel
  obtain ⟨part, hpart, hboth⟩ := Option.map_eq_some_iff.mp hcounts
  obtain ⟨hprocessors, hchannels⟩ := Prod.mk.inj hboth
  obtain ⟨G, t, hask, hsame, -⟩ := exists_ask_same_afresh requests hpart
  exact ⟨part, hpart, hprocessors, hchannels, G, t, hask, hsame⟩

end Session
end ProcessorSymmetry

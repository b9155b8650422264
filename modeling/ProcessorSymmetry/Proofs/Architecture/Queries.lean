import ProcessorSymmetry.Proofs.Architecture.Built
import ProcessorSymmetry.Proofs.ProcessorGraph.Automorphisms

/-!
# What queries remember

A query for the automorphism group uses the finder of its time for whatever is not
remembered yet, and then all of it is remembered, at every depth.  Different parts may
thus remember what different finders found.  This makes no difference: every answer is
the group that any finder would find with nothing to rely on.
-/

namespace ProcessorSymmetry

namespace UniformSystem

/-- The answer to a query and the system after it. -/
def ask (s : UniformSystem) (finder : AutomorphismFinder) : PermGroup × UniformSystem :=
  match s.cached with
  | some G => (G, s)
  | none =>
    let G := .wreathProduct (s.proto.automorphisms finder) (s.clusters.automorphisms finder)
    (G, { s with
      clusters := s.clusters.remember finder
      proto := s.proto.remember finder
      cached := some G })

theorem ask_search (s : UniformSystem) : (s.ask .search).1 = s.automorphisms := by
  rw [ask, automorphisms]
  cases s.cached with
  | none => rfl
  | some G => rfl

/-- The graph of clusters, then the proto graph. -/
def graphAt? (s : UniformSystem) : Nat → Option ProcessorGraph
  | 0 => some s.clusters
  | 1 => some s.proto
  | _ => none

/-- The system with another graph in one place, if it is undirected. -/
def withGraph (s : UniformSystem) (i : Nat) (g : ProcessorGraph) : UniformSystem :=
  if hg : g.directed = false then
    match i with
    | 0 => { s with clusters := g, clusters_undirected := hg }
    | 1 => { s with proto := g, proto_undirected := hg }
    | _ => s
  else s

theorem graphAt?_undirected {s : UniformSystem} {i : Nat} {g : ProcessorGraph}
    (hg : s.graphAt? i = some g) : g.directed = false := by
  match i with
  | 0 => exact Option.some.inj hg ▸ s.clusters_undirected
  | 1 => exact Option.some.inj hg ▸ s.proto_undirected

end UniformSystem

namespace Architecture

/-! ## Answers and fresh answers -/

mutual

/-- The answer to a query and the architecture after it. -/
def ask (finder : AutomorphismFinder) : Architecture → PermGroup × Architecture
  | .graph g => (g.automorphisms finder, .graph (g.remember finder))
  | .uniform s => ((s.ask finder).1, .uniform (s.ask finder).2)
  | .cluster parts (some G) => (G, .cluster parts (some G))
  | .cluster parts none =>
    let answers := askAll finder parts
    let G := .directProduct answers.1
    (G, .cluster answers.2 (some G))
  | .group G => (G, .group G)

/-- The answers to queries of all parts and the parts after them. -/
def askAll (finder : AutomorphismFinder) : List Architecture → List PermGroup × List Architecture
  | [] => ([], [])
  | a :: rest =>
    let answer := ask finder a
    let answers := askAll finder rest
    (answer.1 :: answers.1, answer.2 :: answers.2)

end

mutual

/-- The automorphism group found without anything that is remembered. -/
def afresh (finder : AutomorphismFinder) : Architecture → PermGroup
  | .graph g => g.automorphismsWith finder
  | .uniform s =>
    .wreathProduct (s.proto.automorphismsWith finder) (s.clusters.automorphismsWith finder)
  | .cluster parts _ => .directProduct (afreshAll finder parts)
  | .group G => G

/-- The automorphism group of each part found without anything that is remembered. -/
def afreshAll (finder : AutomorphismFinder) : List Architecture → List PermGroup
  | [] => []
  | a :: rest => afresh finder a :: afreshAll finder rest

end

variable {a b : Architecture} {parts others : List Architecture} {finder : AutomorphismFinder}

theorem askAll_eq (finder : AutomorphismFinder) (parts : List Architecture) :
    askAll finder parts =
      (parts.map fun a => (a.ask finder).1, parts.map fun a => (a.ask finder).2) := by
  induction parts with
  | nil => rfl
  | cons a rest ih => rw [askAll, ih, List.map_cons, List.map_cons]

theorem afreshAll_eq (finder : AutomorphismFinder) (parts : List Architecture) :
    afreshAll finder parts = parts.map (afresh finder) := by
  induction parts with
  | nil => rfl
  | cons a rest ih => rw [afreshAll, ih, List.map_cons]

theorem toFormAll_eq (parts : List Architecture) : toFormAll parts = parts.map toForm := by
  induction parts with
  | nil => rfl
  | cons a rest ih => rw [toFormAll, ih, List.map_cons]

mutual

/-- The automorphism group is the answer if the usual finder is in use. -/
theorem ask_search : ∀ a : Architecture, (a.ask .search).1 = a.automorphisms
  | .graph g => rfl
  | .uniform s => by rw [ask, automorphisms, s.ask_search]
  | .cluster parts (some G) => by rw [ask, automorphisms]
  | .cluster parts none => by rw [ask, automorphisms, askAll_search parts]
  | .group G => rfl

theorem askAll_search : ∀ parts : List Architecture,
    (askAll .search parts).1 = automorphismsAll parts
  | [] => rfl
  | a :: rest => by rw [askAll, automorphismsAll, ask_search a, askAll_search rest]

end

/-! ## What is remembered is up to date -/

/-- What is remembered at any depth is the group that any finder would find now. -/
inductive UpToDate : Architecture → Prop
  | graph {g : ProcessorGraph} (built : g.Built) : UpToDate (.graph g)
  | uniform {s : UniformSystem} (clusters_built : s.clusters.Built) (proto_built : s.proto.Built)
      (cached_same : ∀ G, s.cached = some G → ∀ finder,
        G.same (afresh finder (.uniform s)) = true) : UpToDate (.uniform s)
  | cluster {parts : List Architecture} {cached : Option PermGroup}
      (parts_upToDate : ∀ a ∈ parts, UpToDate a)
      (cached_same : ∀ G, cached = some G → ∀ finder,
        G.same (afresh finder (.cluster parts cached)) = true) :
      UpToDate (.cluster parts cached)
  | group (G : PermGroup) : UpToDate (.group G)

/-- `b` is `a` with something else remembered, which is up to date. -/
structure OnlyRemembers (a b : Architecture) : Prop where
  upToDate : b.UpToDate
  afresh_eq : ∀ finder, b.afresh finder = a.afresh finder
  toForm_eq : b.toForm = a.toForm

theorem UpToDate.onlyRemembers_self (ha : a.UpToDate) : a.OnlyRemembers a where
  upToDate := ha
  afresh_eq := fun _ => rfl
  toForm_eq := rfl

theorem onlyRemembers_graph {g : ProcessorGraph} (hg : g.Built) (finder : AutomorphismFinder) :
    (graph g).OnlyRemembers (.graph (g.remember finder)) where
  upToDate := .graph (hg.remember finder)
  afresh_eq := fun _ => rfl
  toForm_eq := rfl

theorem OnlyRemembers.exists_graph {g : ProcessorGraph} (h : (graph g).OnlyRemembers b) :
    ∃ k : ProcessorGraph, b = .graph k ∧ k.Built ∧ k.toRecord = g.toRecord ∧
      ∀ finder, k.automorphismsWith finder = g.automorphismsWith finder := by
  have hform := h.toForm_eq
  cases b with
  | graph k =>
      obtain ⟨hbuilt⟩ := h.upToDate
      exact ⟨k, rfl, hbuilt, Form.graph.inj hform, h.afresh_eq⟩
  | uniform _ => cases hform
  | cluster _ _ => cases hform
  | group _ => cases hform

theorem onlyRemembers_uniform {s t : UniformSystem}
    (hclusters : (graph s.clusters).OnlyRemembers (.graph t.clusters))
    (hproto : (graph s.proto).OnlyRemembers (.graph t.proto))
    (hcached : ∀ G, t.cached = some G → ∀ finder,
      G.same (afresh finder (.uniform s)) = true) :
    (uniform s).OnlyRemembers (.uniform t) := by
  obtain ⟨_, ⟨⟩, hclustersBuilt, hclustersRecord, hclustersAfresh⟩ := hclusters.exists_graph
  obtain ⟨_, ⟨⟩, hprotoBuilt, hprotoRecord, hprotoAfresh⟩ := hproto.exists_graph
  have hafresh : ∀ finder, afresh finder (.uniform t) = afresh finder (.uniform s) := by
    intro finder
    rw [afresh, afresh, hclustersAfresh, hprotoAfresh]
  constructor
  · refine .uniform hclustersBuilt hprotoBuilt fun G hG finder => ?_
    rw [hafresh]
    exact hcached G hG finder
  · exact hafresh
  · rw [toForm, toForm, hclustersRecord, hprotoRecord]

theorem map_eq_of_onlyRemembers {β : Type} {f : Architecture → β}
    (h : List.Forall₂ OnlyRemembers parts others)
    (hf : ∀ a b, a.OnlyRemembers b → f b = f a) : others.map f = parts.map f := by
  induction h with
  | nil => rfl
  | cons hab _ ih => rw [List.map_cons, List.map_cons, hf _ _ hab, ih]

theorem upToDate_of_onlyRemembers (h : List.Forall₂ OnlyRemembers parts others) :
    ∀ b ∈ others, b.UpToDate := by
  induction h with
  | nil => simp
  | cons hab _ ih => exact List.forall_mem_cons.mpr ⟨hab.upToDate, ih⟩

theorem onlyRemembers_cluster {cached cached' : Option PermGroup}
    (h : List.Forall₂ OnlyRemembers parts others)
    (hcached : ∀ G, cached' = some G → ∀ finder,
      G.same (afresh finder (.cluster parts cached)) = true) :
    (cluster parts cached).OnlyRemembers (.cluster others cached') := by
  have hafresh : ∀ finder,
      afresh finder (.cluster others cached') = afresh finder (.cluster parts cached) := by
    intro finder
    rw [afresh, afresh, afreshAll_eq, afreshAll_eq]
    rw [map_eq_of_onlyRemembers h fun _ _ hab => hab.afresh_eq finder]
  constructor
  · refine .cluster (upToDate_of_onlyRemembers h) fun G hG finder => ?_
    rw [hafresh]
    exact hcached G hG finder
  · exact hafresh
  · rw [toForm, toForm, toFormAll_eq, toFormAll_eq]
    rw [map_eq_of_onlyRemembers h fun _ _ hab => hab.toForm_eq]

/-! ## Answers -/

/-- The answer to a query is what any finder would find, and only what is remembered changes. -/
structure Answers (a : Architecture) (answer : PermGroup × Architecture) : Prop where
  same : ∀ finder, answer.1.same (a.afresh finder) = true
  onlyRemembers : a.OnlyRemembers answer.2

theorem answers_uniform {s : UniformSystem} (hs : (uniform s).UpToDate)
    (finder : AutomorphismFinder) : (uniform s).Answers ((uniform s).ask finder) := by
  obtain _ | ⟨hclusters, hproto, hcached⟩ := hs
  rw [ask, UniformSystem.ask]
  cases hremembered : s.cached with
  | some G =>
      have hself := (UpToDate.uniform hclusters hproto hcached).onlyRemembers_self
      exact ⟨hcached G hremembered, hself⟩
  | none =>
      have hsame : ∀ other, (PermGroup.wreathProduct (s.proto.automorphisms finder)
          (s.clusters.automorphisms finder)).same (afresh other (.uniform s)) = true := by
        intro other
        rw [afresh]
        exact PermGroup.same_wreathProduct (hproto.wellFormed.same_automorphisms_afresh finder other)
          (hclusters.wellFormed.same_automorphisms_afresh finder other)
      refine ⟨hsame, onlyRemembers_uniform (onlyRemembers_graph hclusters finder)
        (onlyRemembers_graph hproto finder) fun G hG => ?_⟩
      rw [← Option.some.inj hG]
      exact hsame

theorem answers_cluster_none (h : ∀ a ∈ parts, a.Answers (a.ask finder)) :
    (ofParts parts).Answers ((ofParts parts).ask finder) := by
  have hsame : ∀ other, (PermGroup.directProduct (askAll finder parts).1).same
      (afresh other (ofParts parts)) = true := by
    intro other
    rw [ofParts, afresh, askAll_eq, afreshAll_eq]
    apply PermGroup.same_directProduct
    rw [List.forall₂_map_left_iff, List.forall₂_map_right_iff, List.forall₂_same]
    exact fun a ha => (h a ha).same other
  have hparts : List.Forall₂ OnlyRemembers parts (askAll finder parts).2 := by
    rw [askAll_eq, List.forall₂_map_right_iff, List.forall₂_same]
    exact fun a ha => (h a ha).onlyRemembers
  rw [ofParts, ask]
  refine ⟨hsame, onlyRemembers_cluster hparts fun G hG => ?_⟩
  rw [← Option.some.inj hG]
  exact hsame

theorem UpToDate.answers_ask (ha : a.UpToDate) (finder : AutomorphismFinder) :
    a.Answers (a.ask finder) := by
  induction ha with
  | graph built =>
      exact ⟨built.wellFormed.same_automorphisms_afresh finder, onlyRemembers_graph built finder⟩
  | uniform hclusters hproto hcached =>
      exact answers_uniform (.uniform hclusters hproto hcached) finder
  | group G => exact ⟨fun _ => G.same_self, (UpToDate.group G).onlyRemembers_self⟩
  | @cluster parts cached hparts hcached ih =>
      cases cached with
      | none => exact answers_cluster_none ih
      | some G =>
          rw [ask]
          exact ⟨hcached G rfl, (UpToDate.cluster hparts hcached).onlyRemembers_self⟩

/-! ## Queries of parts -/

/-- A part of a cluster, or one of the two graphs of a system. -/
def child? : Architecture → Nat → Option Architecture
  | .cluster parts _, i => parts[i]?
  | .uniform s, i => (s.graphAt? i).map .graph
  | _, _ => none

/-- The architecture with another child. -/
def withChild : Architecture → Nat → Architecture → Architecture
  | .cluster parts cached, i, b => .cluster (parts.set i b) cached
  | .uniform s, i, .graph g => .uniform (s.withGraph i g)
  | a, _, _ => a

/-- What is found by going from child to child. -/
def partAt? (a : Architecture) (path : List Nat) : Option Architecture :=
  path.foldlM child? a

/-- The answer to a query of the part at the end of a path, and the architecture after it. -/
def askAt (a : Architecture) (finder : AutomorphismFinder) :
    List Nat → Option (PermGroup × Architecture)
  | [] => some (a.ask finder)
  | i :: path => do
    let answer ← (← a.child? i).askAt finder path
    return (answer.1, a.withChild i answer.2)

theorem UpToDate.child? (ha : a.UpToDate) {i : Nat} (hb : a.child? i = some b) : b.UpToDate := by
  cases ha with
  | graph _ => cases hb
  | group _ => cases hb
  | cluster hparts _ => exact hparts b (List.mem_of_getElem? hb)
  | @uniform s hclusters hproto _ =>
      obtain ⟨g, hg, rfl⟩ := Option.map_eq_some_iff.mp hb
      match i with
      | 0 =>
          obtain rfl := Option.some.inj hg
          exact .graph hclusters
      | 1 =>
          obtain rfl := Option.some.inj hg
          exact .graph hproto

theorem forall₂_set {R : Architecture → Architecture → Prop} {i : Nat} (ha : parts[i]? = some a)
    (hab : R a b) (hself : ∀ a ∈ parts, R a a) : List.Forall₂ R parts (parts.set i b) := by
  induction parts generalizing i with
  | nil => cases ha
  | cons first rest ih =>
      obtain ⟨hfirst, hrest⟩ := List.forall_mem_cons.mp hself
      cases i with
      | zero =>
          obtain rfl := Option.some.inj ha
          exact .cons hab (List.forall₂_same.mpr hrest)
      | succ i => exact .cons hfirst (ih ha hrest)

/-- If a child only remembers something else, then so does the whole. -/
theorem OnlyRemembers.withChild (ha : a.UpToDate) {i : Nat} {c : Architecture}
    (hc : a.child? i = some c) (h : c.OnlyRemembers b) : a.OnlyRemembers (a.withChild i b) := by
  cases ha with
  | graph _ => cases hc
  | group _ => cases hc
  | cluster hparts hcached =>
      refine onlyRemembers_cluster (forall₂_set hc h fun a ha => ?_) hcached
      exact (hparts a ha).onlyRemembers_self
  | @uniform s hclusters hproto hcached =>
      obtain ⟨g, hg, rfl⟩ := Option.map_eq_some_iff.mp hc
      obtain ⟨k, rfl, -, hrecord, -⟩ := h.exists_graph
      have hundirected : k.directed = false :=
        (congrArg GraphRecord.directed hrecord).trans (UniformSystem.graphAt?_undirected hg)
      rw [Architecture.withChild, UniformSystem.withGraph, dif_pos hundirected]
      match i with
      | 0 =>
          obtain rfl := Option.some.inj hg
          exact onlyRemembers_uniform h (UpToDate.graph hproto).onlyRemembers_self hcached
      | 1 =>
          obtain rfl := Option.some.inj hg
          exact onlyRemembers_uniform (UpToDate.graph hclusters).onlyRemembers_self h hcached

theorem UpToDate.partAt? (ha : a.UpToDate) {path : List Nat} (hb : a.partAt? path = some b) :
    b.UpToDate := by
  induction path generalizing a with
  | nil => exact Option.some.inj hb ▸ ha
  | cons i path ih =>
      obtain ⟨c, hc, hb⟩ := Option.bind_eq_some_iff.mp hb
      exact ih (UpToDate.child? ha hc) hb

/-- A query of a part is answered as if this part stood alone, and the whole only remembers
something else. -/
theorem UpToDate.exists_askAt (ha : a.UpToDate) {path : List Nat} {part : Architecture}
    (hpart : a.partAt? path = some part) (finder : AutomorphismFinder) :
    ∃ b, a.askAt finder path = some ((part.ask finder).1, b) ∧ a.OnlyRemembers b := by
  induction path generalizing a with
  | nil =>
      obtain rfl : a = part := Option.some.inj hpart
      exact ⟨(a.ask finder).2, rfl, (ha.answers_ask finder).onlyRemembers⟩
  | cons i path ih =>
      obtain ⟨c, hc, hpart⟩ := Option.bind_eq_some_iff.mp hpart
      obtain ⟨d, hd, hremembers⟩ := ih (UpToDate.child? ha hc) hpart
      refine ⟨a.withChild i d, ?_, hremembers.withChild ha hc⟩
      rw [askAt, hc, Option.bind_eq_bind, Option.bind_some, hd]
      rfl

theorem exists_partAt?_of_askAt {path : List Nat} {answer : PermGroup × Architecture}
    (h : a.askAt finder path = some answer) : ∃ part, a.partAt? path = some part := by
  induction path generalizing a answer with
  | nil => exact ⟨a, rfl⟩
  | cons i path ih =>
      obtain ⟨c, hc, h⟩ := Option.bind_eq_some_iff.mp h
      obtain ⟨d, hd, -⟩ := Option.bind_eq_some_iff.mp h
      obtain ⟨part, hpart⟩ := ih hd
      exact ⟨part, Option.bind_eq_some_iff.mpr ⟨c, hc, hpart⟩⟩

/-! ## Architectures that can be built -/

theorem UpToDate.remember (ha : a.UpToDate) : a.remember.UpToDate := by
  have hsame : ∀ finder, a.automorphisms.same (a.afresh finder) = true := by
    rw [← ask_search]
    exact (ha.answers_ask .search).same
  cases ha with
  | graph built => exact .graph (built.remember .search)
  | group G => exact .group G
  | uniform hclusters hproto _ =>
      refine .uniform hclusters hproto fun G hG => ?_
      rw [← Option.some.inj hG]
      exact hsame
  | cluster hparts _ =>
      refine .cluster hparts fun G hG => ?_
      rw [← Option.some.inj hG]
      exact hsame

theorem UpToDate.addPart (ha : a.UpToDate) {part whole : Architecture} (hpart : part.UpToDate)
    (hadded : a.addPart? part = some whole) : whole.UpToDate := by
  cases ha with
  | graph _ => cases hadded
  | uniform _ _ _ => cases hadded
  | group _ => cases hadded
  | cluster hparts _ =>
      obtain rfl := Option.some.inj hadded
      refine .cluster ?_ (by simp)
      simpa [or_imp, forall_and] using ⟨hparts, hpart⟩

theorem upToDate_ofGraphs {clusters proto : ProcessorGraph} {s : UniformSystem}
    (hclusters : clusters.Built) (hproto : proto.Built)
    (hs : UniformSystem.ofGraphs clusters proto = .ok s) : (uniform s).UpToDate := by
  obtain ⟨rfl, rfl, hnone⟩ := UniformSystem.ofGraphs_spec hs
  exact .uniform hclusters hproto (by simp [hnone])

theorem Built.upToDate (ha : Built a) : a.UpToDate := by
  induction ha with
  | graph built => exact .graph built
  | uniform hclusters hproto composed => exact upToDate_ofGraphs hclusters hproto composed
  | group G => exact .group G
  | ofParts _ ih => exact .cluster ih (by simp)
  | addPart _ _ added iha ihpart => exact iha.addPart ihpart added
  | remember _ ih => exact ih.remember

end Architecture
end ProcessorSymmetry

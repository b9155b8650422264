import ProcessorSymmetry.ColoredGraph.Basic
import ProcessorSymmetry.Proofs.Distinct
import ProcessorSymmetry.Proofs.Perm.Group

/-!
# Edges and automorphisms of colored graphs

If the targets of every vertex ascend, then the lists of edges say the same as
looking edges up.  In a well-formed graph the targets are vertices besides, so that
this also holds of the lists of edges to a vertex.  The relabellings of a graph onto
itself are its automorphisms.
-/

namespace ProcessorSymmetry

namespace ColoredGraph

variable {n : Nat} {g h k : ColoredGraph} {i j c : Nat}

/-- Every vertex has a list of its targets, and these ascend. -/
structure Arranged (g : ColoredGraph) : Prop where
  targets_size : g.targets.size = g.size
  ascending : ∀ i, (g.edgesFrom i).Pairwise fun a b => a.1 < b.1

/-- Targets ascend, and every edge leads from a vertex to a vertex. -/
structure WellFormed (g : ColoredGraph) : Prop where
  targets_size : g.targets.size = g.size
  ascending : ∀ i, (g.edgesFrom i).Pairwise fun a b => a.1 < b.1
  closed : ∀ i, ∀ entry ∈ g.edgesFrom i, entry.1 < g.size

theorem edgesFrom_of_le (hi : g.targets.size ≤ i) : g.edgesFrom i = [] := by
  simp [edgesFrom, Array.getD_eq_getD_getElem?, hi]

theorem WellFormed.arranged (hg : g.WellFormed) : g.Arranged :=
  ⟨hg.targets_size, hg.ascending⟩

namespace Arranged

theorem nodup_targets (hg : g.Arranged) (i : Nat) : ((g.edgesFrom i).map Prod.fst).Nodup :=
  List.pairwise_map.mpr ((hg.ascending i).imp Nat.ne_of_lt)

theorem mem_edgesFrom_iff (hg : g.Arranged) : (j, c) ∈ g.edgesFrom i ↔ g.edge? i j = some c :=
  (lookup_eq_some_iff_mem (hg.nodup_targets i)).symm

/-- Edges lead from vertices. -/
theorem lt_of_edge? (hg : g.Arranged) (h : g.edge? i j = some c) : i < g.size := by
  rw [← hg.mem_edgesFrom_iff] at h
  by_contra hi
  rw [edgesFrom_of_le (hg.targets_size ▸ Nat.not_lt.mp hi)] at h
  cases h

theorem mem_edges_iff (hg : g.Arranged) : ((i, j), c) ∈ g.edges ↔ g.edge? i j = some c := by
  rw [← hg.mem_edgesFrom_iff, edges, List.mem_flatMap]
  constructor
  · rintro ⟨i', -, hmem⟩
    obtain ⟨⟨j', c'⟩, hmem, heq⟩ := List.mem_map.mp hmem
    cases heq
    exact hmem
  · intro hmem
    have hi := hg.lt_of_edge? (hg.mem_edgesFrom_iff.mp hmem)
    exact ⟨i, List.mem_range.mpr hi, List.mem_map.mpr ⟨(j, c), hmem, rfl⟩⟩

/-- The graph is closed if looking edges up only finds those that lead to vertices. -/
theorem isClosed_iff (hg : g.Arranged) :
    g.isClosed = true ↔ ∀ i j c, g.edge? i j = some c → j < g.size := by
  rw [isClosed, List.all_eq_true]
  constructor
  · intro h i j c hedge
    simpa using h _ (hg.mem_edges_iff.mpr hedge)
  · rintro h ⟨⟨i, j⟩, c⟩ hmem
    simpa using h i j c (hg.mem_edges_iff.mp hmem)

theorem wellFormed (hg : g.Arranged) (hclosed : g.isClosed = true) : g.WellFormed where
  targets_size := hg.targets_size
  ascending := hg.ascending
  closed := fun i entry hentry =>
    hg.isClosed_iff.mp hclosed i entry.1 entry.2 (hg.mem_edgesFrom_iff.mp hentry)

end Arranged

namespace WellFormed

theorem nodup_targets (hg : g.WellFormed) (i : Nat) :
    ((g.edgesFrom i).map Prod.fst).Nodup :=
  hg.arranged.nodup_targets i

theorem mem_edgesFrom_iff (hg : g.WellFormed) :
    (j, c) ∈ g.edgesFrom i ↔ g.edge? i j = some c :=
  hg.arranged.mem_edgesFrom_iff

theorem lt_of_edge? (hg : g.WellFormed) (h : g.edge? i j = some c) :
    i < g.size ∧ j < g.size :=
  ⟨hg.arranged.lt_of_edge? h, hg.closed i _ (hg.mem_edgesFrom_iff.mpr h)⟩

theorem mem_edges_iff (hg : g.WellFormed) :
    ((i, j), c) ∈ g.edges ↔ g.edge? i j = some c :=
  hg.arranged.mem_edges_iff

theorem isClosed (hg : g.WellFormed) : g.isClosed = true :=
  hg.arranged.isClosed_iff.mpr fun _ _ _ h => (hg.lt_of_edge? h).2

theorem nodup_edgesFrom (hg : g.WellFormed) (i : Nat) : (g.edgesFrom i).Nodup :=
  (hg.nodup_targets i).of_map

theorem nodup_ends (hg : g.WellFormed) : (g.edges.map Prod.fst).Nodup := by
  have hends : g.edges.map Prod.fst =
      (List.range g.size).flatMap fun i => (g.edgesFrom i).map fun entry => (i, entry.1) := by
    simp [edges, List.map_flatMap, Function.comp_def]
  rw [hends, List.nodup_flatMap]
  constructor
  · intro i _
    have hnodup := (hg.nodup_targets i).map (f := Prod.mk i) fun _ _ h => (Prod.mk.inj h).2
    rwa [List.map_map] at hnodup
  · apply List.nodup_range.imp
    intro i i' hne pair hpair hpair'
    obtain ⟨entry, -, rfl⟩ := List.mem_map.mp hpair
    obtain ⟨entry', -, heq⟩ := List.mem_map.mp hpair'
    exact hne (Prod.mk.inj heq).1.symm

theorem nodup_edges (hg : g.WellFormed) : g.edges.Nodup :=
  hg.nodup_ends.of_map

end WellFormed

/-! ## Edges by target -/

/-- The edges to `j` among a list of edges, with their sources. -/
def towards (edges : List ((Nat × Nat) × Nat)) (j : Nat) : List (Nat × Nat) :=
  edges.filterMap fun ((i, j'), c) => if j' = j then some (i, c) else none

theorem towards_cons (edge : (Nat × Nat) × Nat) (edges : List ((Nat × Nat) × Nat)) (j : Nat) :
    towards (edge :: edges) j =
      (if edge.1.2 = j then [(edge.1.1, edge.2)] else []) ++ towards edges j := by
  rw [towards, List.filterMap_cons]
  by_cases hj : edge.1.2 = j
  · simp [hj, towards]
  · simp [hj, towards]

theorem mem_towards {edges : List ((Nat × Nat) × Nat)} :
    (i, c) ∈ towards edges j ↔ ((i, j), c) ∈ edges := by
  rw [towards, List.mem_filterMap]
  constructor
  · rintro ⟨⟨⟨i', j'⟩, c'⟩, hmem, hsome⟩
    dsimp only at hsome
    split at hsome
    · rename_i hj
      cases hsome
      rwa [← hj]
    · cases hsome
  · intro hmem
    exact ⟨_, hmem, if_pos rfl⟩

theorem nodup_towards {edges : List ((Nat × Nat) × Nat)} (h : edges.Nodup) (j : Nat) :
    (towards edges j).Nodup := by
  apply h.filterMap
  rintro ⟨⟨i, j'⟩, c⟩ ⟨⟨i', j''⟩, c'⟩ entry hentry hentry'
  simp only [Option.mem_def] at hentry hentry'
  split at hentry
  · split at hentry'
    · cases hentry
      cases hentry'
      simp_all
    · cases hentry'
  · cases hentry

theorem foldr_modify_getElem? (edges : List ((Nat × Nat) × Nat))
    (sources : Array (List (Nat × Nat))) (j : Nat) :
    (edges.foldr (fun ((i, j), c) sources => sources.modify j ((i, c) :: ·)) sources)[j]? =
      sources[j]?.map (towards edges j ++ ·) := by
  induction edges with
  | nil => simp [towards]
  | cons edge rest ih =>
      obtain ⟨⟨i, j'⟩, c⟩ := edge
      rw [List.foldr_cons, Array.getElem?_modify, ih, towards_cons]
      by_cases hj : j' = j
      · simp [hj, Function.comp_def]
      · simp [hj]

theorem getD_incoming (g : ColoredGraph) (j : Nat) :
    g.incoming.getD j [] = if j < g.size then towards g.edges j else [] := by
  rw [incoming, Array.getD_eq_getD_getElem?, foldr_modify_getElem?, Array.getElem?_replicate]
  split
  · simp
  · simp

theorem WellFormed.mem_incoming_iff (hg : g.WellFormed) :
    (i, c) ∈ g.incoming.getD j [] ↔ g.edge? i j = some c := by
  rw [getD_incoming]
  split
  · rw [mem_towards, hg.mem_edges_iff]
  · rename_i hj
    constructor
    · intro h
      cases h
    · intro h
      exact absurd (hg.lt_of_edge? h).2 hj

theorem WellFormed.nodup_incoming (hg : g.WellFormed) (j : Nat) :
    (g.incoming.getD j []).Nodup := by
  rw [getD_incoming]
  split
  · exact nodup_towards hg.nodup_edges j
  · exact .nil

/-! ## Relabellings -/

/-- Calling each vertex `i` of `g` by the name `p i` gives `h`. -/
structure Relabels (p : Perm n) (g h : ColoredGraph) : Prop where
  size_eq : g.size = n
  image_size_eq : h.size = n
  directed_eq : h.directed = g.directed
  color_eq : ∀ i, h.color (p i) = g.color i
  edge?_eq : ∀ i j, h.edge? (p i) (p j) = g.edge? i j

namespace Relabels

variable {p q : Perm n}

theorem one (hg : g.size = n) : Relabels (1 : Perm n) g g where
  size_eq := hg
  image_size_eq := hg
  directed_eq := rfl
  color_eq i := by rw [Perm.one_app]
  edge?_eq i j := by rw [Perm.one_app, Perm.one_app]

theorem mul (hp : Relabels p g h) (hq : Relabels q h k) : Relabels (p * q) g k where
  size_eq := hp.size_eq
  image_size_eq := hq.image_size_eq
  directed_eq := hq.directed_eq.trans hp.directed_eq
  color_eq i := by rw [Perm.mul_app, hq.color_eq, hp.color_eq]
  edge?_eq i j := by rw [Perm.mul_app, Perm.mul_app, hq.edge?_eq, hp.edge?_eq]

theorem inv (hp : Relabels p g h) : Relabels p⁻¹ h g where
  size_eq := hp.image_size_eq
  image_size_eq := hp.size_eq
  directed_eq := hp.directed_eq.symm
  color_eq i := by rw [← hp.color_eq, Perm.app_inv_app]
  edge?_eq i j := by rw [← hp.edge?_eq, Perm.app_inv_app, Perm.app_inv_app]

end Relabels

/-- The relabellings of a graph onto itself. -/
def automorphismGroup (g : ColoredGraph) : Subgroup (Perm g.size) where
  carrier := {p | Relabels p g g}
  one_mem' := .one rfl
  mul_mem' := Relabels.mul
  inv_mem' := Relabels.inv

/-- A permutation that moves edges to edges of the same color does not move
anything else to an edge, since some power of it undoes it. -/
theorem edge?_app_eq {p : Perm n}
    (hp : ∀ i j c, g.edge? i j = some c → g.edge? (p i) (p j) = some c) (i j : Nat) :
    g.edge? (p i) (p j) = g.edge? i j := by
  have hinv : p⁻¹ ∈ Perm.generated [p] :=
    Subgroup.inv_mem _ (Perm.subset_generated List.mem_cons_self)
  have hback : ∀ i j c, g.edge? i j = some c → g.edge? (p⁻¹ i) (p⁻¹ j) = some c := by
    refine Perm.generated_induction
      (P := fun q => ∀ i j c, g.edge? i j = some c → g.edge? (q i) (q j) = some c) ?_ ?_ hinv
    · intro i j c h
      rwa [Perm.one_app, Perm.one_app]
    · intro q hq g' hg' i j c h
      rw [List.mem_singleton.mp hg', Perm.mul_app, Perm.mul_app]
      exact hp _ _ _ (hq i j c h)
  apply Option.ext
  intro c
  constructor
  · intro h
    have hi := hback _ _ _ h
    rwa [Perm.inv_app_app, Perm.inv_app_app] at hi
  · exact hp i j c

/-- The decision procedure recognizes the automorphisms. -/
theorem WellFormed.isAutomorphism_iff (hg : g.WellFormed) {p : Perm g.size} :
    g.isAutomorphism p = true ↔ p ∈ g.automorphismGroup := by
  rw [isAutomorphism, Bool.and_eq_true, keepsColors, keepsEdges, List.all_eq_true,
    List.all_eq_true]
  constructor
  · rintro ⟨hcolors, hedges⟩
    refine ⟨rfl, rfl, rfl, ?_, ?_⟩
    · intro i
      by_cases hi : i < g.size
      · exact (beq_iff_eq.mp (hcolors i (List.mem_range.mpr hi))).symm
      · rw [p.app_of_le (Nat.not_lt.mp hi)]
    · apply edge?_app_eq
      intro i j c hc
      exact beq_iff_eq.mp (hedges _ (hg.mem_edges_iff.mpr hc))
  · intro hp
    constructor
    · intro i _
      rw [beq_iff_eq, hp.color_eq]
    · rintro ⟨⟨i, j⟩, c⟩ hmem
      rw [beq_iff_eq, hp.edge?_eq, hg.mem_edges_iff.mp hmem]

end ColoredGraph
end ProcessorSymmetry

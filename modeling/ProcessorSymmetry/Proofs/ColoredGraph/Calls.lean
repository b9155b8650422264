import ProcessorSymmetry.Proofs.ColoredGraph.Conjugation

/-!
# Colored graphs under calls

A graph starts without edges and changes by inserted edges and by relabelling.  Every
call that has an answer keeps the graph free of loops and an undirected graph
symmetric.  The vertices contain the targets of all edges exactly as long as no edge
was inserted towards another number, which a directed graph allows.
-/

namespace ProcessorSymmetry

/-- A call that changes a graph with `n` vertices. -/
inductive GraphCall (n : Nat) where
  | insert (i j color : Nat)
  | permute (p : Perm n)

/-- An inserted edge leads to a vertex. -/
def GraphCall.NamesVertex {n : Nat} : GraphCall n → Prop
  | insert _ j _ => j < n
  | permute _ => True

namespace ColoredGraph

variable {n : Nat} {g h k : ColoredGraph} {calls : List (GraphCall n)}

/-- The graph after a call, if the call has an answer. -/
def perform? (g : ColoredGraph) : GraphCall n → Option ColoredGraph
  | .insert i j color => (g.insertEdge? i j color).map Prod.snd
  | .permute p => g.permuted? ⟨n, p⟩

/-- The graph after some calls in turn, if all of them have answers. -/
def performAll? (g : ColoredGraph) (calls : List (GraphCall n)) : Option ColoredGraph :=
  calls.foldlM perform? g

/-- No edge leads back to its vertex, and in an undirected graph all edges lead in both
directions with one color. -/
structure Sound (g : ColoredGraph) : Prop extends Arranged g where
  noLoop : ∀ i, g.edge? i i = none
  symmetric : g.directed = false → ∀ i j, g.edge? i j = g.edge? j i

namespace Sound

/-- In an undirected graph, targets are sources as well. -/
theorem isClosed (hg : g.Sound) (hdirected : g.directed = false) : g.isClosed = true := by
  rw [hg.isClosed_iff]
  intro i j c hedge
  rw [hg.symmetric hdirected] at hedge
  exact hg.lt_of_edge? hedge

theorem ofColors (directed : Bool) (colors : List Nat) : (ofColors directed colors).Sound where
  toArranged := (wellFormed_ofColors directed colors).arranged
  noLoop := fun i => edge?_ofColors directed colors i i
  symmetric := fun _ i j => by rw [edge?_ofColors, edge?_ofColors]

/-- The assertion about the edge back can only fail for numbers that are no vertices. -/
theorem insertEdge?_isSome_iff (hg : g.Sound) {i j c : Nat} :
    (g.insertEdge? i j c).isSome = true ↔
      i ≠ j ∧ i < g.size ∧ (g.directed = true ∨ j < g.size) := by
  rw [Option.isSome_iff_exists]
  constructor
  · rintro ⟨⟨old, h⟩, hinsert⟩
    obtain ⟨⟨hne, hi⟩, hback, -⟩ := insertEdge?_eq_some_iff.mp hinsert
    exact ⟨hne, hi, hback.imp_right And.left⟩
  · rintro ⟨hne, hi, hj⟩
    refine ⟨(g.edge? i j, g.addEdge i j c), insertEdge?_eq_some_iff.mpr ⟨⟨hne, hi⟩, ?_, rfl, rfl⟩⟩
    cases hdirected : g.directed with
    | true => exact .inl rfl
    | false =>
        rw [hdirected] at hj
        exact .inr ⟨hj.resolve_left (by decide), hg.symmetric hdirected j i⟩

end Sound

/-! ## Answers about closed graphs -/

theorem incoming?_isSome_iff : g.incoming?.isSome = true ↔ g.isClosed = true := by
  simp [incoming?]

theorem refine?_isSome_iff {coloring : List Nat} :
    (g.refine? coloring).isSome = true ↔ g.isClosed = true ∧ g.size ≤ coloring.length := by
  by_cases hclosed : g.isClosed = true
  · by_cases hlength : g.size ≤ coloring.length
    · simp [refine?, refiner?, hclosed, guard, hlength]
    · simp [refine?, refiner?, hclosed, guard, hlength]
  · simp [refine?, refiner?, hclosed]

/-- The identity keeps all colors, so that its test follows the edges. -/
theorem isAutomorphism?_isSome_iff :
    (∀ p, (g.isAutomorphism? p).isSome = true) ↔ g.isClosed = true := by
  constructor
  · intro hanswers
    have hdegree : (1 : Perm g.size).ofDegree? g.size = some 1 := by simp [Perm.ofDegree?]
    have hcolors : g.keepsColors 1 = true := by simp [keepsColors, Perm.one_app]
    have hone := hanswers ⟨g.size, 1⟩
    by_contra hclosed
    simp [isAutomorphism?, hdegree, hcolors, hclosed] at hone
  · intro hclosed p
    rw [isAutomorphism?]
    simp only [hclosed, if_true]
    split
    · rfl
    · split <;> rfl

theorem permuted?_isSome_iff (hsize : g.size = n) (p : Perm n) :
    (g.permuted? ⟨n, p⟩).isSome = true ↔ g.isClosed = true := by
  subst hsize
  rw [permuted?_eq_ite]
  simp

/-! ## Calls in turn -/

/-- What calls with answers keep, where all edges still lead to vertices if the new ones do. -/
structure Continues (named : Prop) (g h : ColoredGraph) : Prop where
  sound : h.Sound
  size_eq : h.size = g.size
  directed_eq : h.directed = g.directed
  isClosed_iff : h.isClosed = true ↔ g.isClosed = true ∧ named

theorem Continues.trans {first second : Prop} (hfirst : Continues first g h)
    (hsecond : Continues second h k) : Continues (first ∧ second) g k where
  sound := hsecond.sound
  size_eq := hsecond.size_eq.trans hfirst.size_eq
  directed_eq := hsecond.directed_eq.trans hfirst.directed_eq
  isClosed_iff := by rw [hsecond.isClosed_iff, hfirst.isClosed_iff, and_assoc]

namespace Sound

theorem continues_insert (hg : g.Sound) {i j : Nat} (c : Nat) (hne : i ≠ j) (hi : i < g.size)
    (hj : g.directed = true ∨ j < g.size) : Continues (j < g.size) g (g.addEdge i j c) where
  sound.toArranged := hg.addEdge i j c
  sound.noLoop := by
    intro a
    rw [hg.edge?_addEdge hi hj, if_neg (by omega)]
    exact hg.noLoop a
  sound.symmetric := by
    intro hdirected a b
    rw [directed_addEdge] at hdirected
    rw [hg.edge?_addEdge hi hj, hg.edge?_addEdge hi hj, hg.symmetric hdirected a b]
    simp only [hdirected, true_and]
    exact if_congr (by omega) rfl rfl
  size_eq := size_addEdge g i j c
  directed_eq := directed_addEdge g i j c
  isClosed_iff := by
    rw [(hg.addEdge i j c).isClosed_iff, hg.isClosed_iff, size_addEdge]
    constructor
    · intro hclosed
      have hnew : j < g.size := hclosed i j c (by rw [hg.edge?_addEdge hi hj]; simp)
      refine ⟨?_, hnew⟩
      -- An edge that the new one replaces leads to the same vertex.
      intro a b d hedge
      by_cases hends : a = i ∧ b = j ∨ g.directed = false ∧ a = j ∧ b = i
      · omega
      · exact hclosed a b d (by rw [hg.edge?_addEdge hi hj, if_neg hends, hedge])
    · rintro ⟨hclosed, hnew⟩ a b d hedge
      rw [hg.edge?_addEdge hi hj] at hedge
      split at hedge
      · omega
      · exact hclosed a b d hedge

theorem continues_permute (hg : g.Sound) (hsize : g.size = n) (hclosed : g.isClosed = true)
    (p : Perm n) : Continues True g (g.permuted p) := by
  have hformed := hg.wellFormed hclosed
  have hp := hformed.relabels_permuted_of_size hsize p
  have hpermuted := hformed.permuted_of_size hsize p
  refine ⟨⟨hpermuted.arranged, ?_, ?_⟩, ?_, hp.directed_eq, ?_⟩
  · intro i
    rw [← p.app_inv_app i, hp.edge?_eq]
    exact hg.noLoop _
  · intro hdirected i j
    rw [← p.app_inv_app i, ← p.app_inv_app j, hp.edge?_eq, hp.edge?_eq]
    exact hg.symmetric (hp.directed_eq ▸ hdirected) _ _
  · exact hp.image_size_eq.trans hsize.symm
  · exact iff_of_true hpermuted.isClosed ⟨hclosed, trivial⟩

/-- Every call with an answer keeps the graph sound. -/
theorem continues_perform (hg : g.Sound) (hsize : g.size = n) {call : GraphCall n}
    (hcall : g.perform? call = some h) : Continues call.NamesVertex g h := by
  cases call with
  | insert i j c =>
      obtain ⟨⟨old, h'⟩, hinsert, rfl⟩ := Option.map_eq_some_iff.mp hcall
      obtain ⟨⟨hne, hi⟩, hback, -, rfl⟩ := insertEdge?_eq_some_iff.mp hinsert
      have hstep := hg.continues_insert c hne hi (hback.imp_right And.left)
      rwa [hsize] at hstep
  | permute p =>
      have hclosed : g.isClosed = true :=
        (permuted?_isSome_iff hsize p).mp (Option.isSome_of_eq_some hcall)
      have hpermuted := (hg.wellFormed hclosed).permuted?_of_size hsize p
      cases hpermuted.symm.trans hcall
      exact hg.continues_permute hsize hclosed p

theorem continues_performAll (hg : g.Sound) (hsize : g.size = n)
    (hcalls : g.performAll? calls = some h) :
    Continues (∀ call ∈ calls, call.NamesVertex) g h := by
  induction calls generalizing g with
  | nil =>
      cases hcalls
      exact ⟨hg, rfl, rfl, by simp⟩
  | cons call rest ih =>
      rw [performAll?, List.foldlM_cons] at hcalls
      obtain ⟨g', hfirst, hrest⟩ := Option.bind_eq_some_iff.mp hcalls
      have hstep := hg.continues_perform hsize hfirst
      have hrun := hstep.trans (ih hstep.sound (hstep.size_eq.trans hsize) hrest)
      rwa [← List.forall_mem_cons] at hrun

end Sound

/-- The graphs that calls make have no loops, their edges lead from vertices, and if they
are undirected then both directions of an edge have its color, so that edges between
different vertices can always be inserted.  All edges lead to vertices exactly if the
inserted ones do, as they have to in an undirected graph, and exactly then the edges by
target, tests of automorphisms, refinements and relabellings have answers. -/
theorem performAll?_ofColors_sound (directed : Bool) (colors : List Nat)
    {calls : List (GraphCall colors.length)}
    (hcalls : (ofColors directed colors).performAll? calls = some g) :
    let named := ∀ call ∈ calls, call.NamesVertex
    g.size = colors.length ∧ g.directed = directed ∧
    (∀ i, g.edge? i i = none) ∧
    (∀ i j c, g.edge? i j = some c → i < g.size) ∧
    (directed = false → named ∧ ∀ i j, g.edge? i j = g.edge? j i) ∧
    (∀ i j c, (g.insertEdge? i j c).isSome = true ↔
      i ≠ j ∧ i < g.size ∧ (directed = true ∨ j < g.size)) ∧
    ((∀ i j c, g.edge? i j = some c → j < g.size) ↔ named) ∧
    (g.incoming?.isSome = true ↔ named) ∧
    ((∀ p, (g.isAutomorphism? p).isSome = true) ↔ named) ∧
    (∀ coloring, (g.refine? coloring).isSome = true ↔ named ∧ g.size ≤ coloring.length) ∧
    ∀ p : Perm colors.length, (g.permuted? ⟨colors.length, p⟩).isSome = true ↔ named := by
  intro named
  have hrun := (Sound.ofColors directed colors).continues_performAll rfl hcalls
  have hg := hrun.sound
  have hsize : g.size = colors.length := hrun.size_eq
  have hdirected : g.directed = directed := hrun.directed_eq
  have hnamed : g.isClosed = true ↔ named := by
    rw [hrun.isClosed_iff]
    exact and_iff_right (wellFormed_ofColors directed colors).isClosed
  refine ⟨hsize, hdirected, hg.noLoop, fun _ _ _ => hg.lt_of_edge?, ?_, ?_, ?_, ?_, ?_, ?_, ?_⟩
  · intro hfalse
    have hundirected := hdirected.trans hfalse
    exact ⟨hnamed.mp (hg.isClosed hundirected), hg.symmetric hundirected⟩
  · intro i j c
    rw [hg.insertEdge?_isSome_iff, hdirected]
  · rw [← hg.isClosed_iff, hnamed]
  · rw [incoming?_isSome_iff, hnamed]
  · rw [isAutomorphism?_isSome_iff, hnamed]
  · intro coloring
    rw [refine?_isSome_iff, hnamed]
  · intro p
    rw [permuted?_isSome_iff hsize, hnamed]

/-- A color replaced in both directions on a path, which is then turned around. -/
theorem performAll?_ofColors_sound_path :
    let calls : List (GraphCall 3) :=
      [.insert 0 1 5, .insert 1 2 5, .insert 2 1 8, .permute (Perm.swap 3 0 2)]
    ∃ g, (ofColors false [0, 0, 0]).performAll? calls = some g ∧
      g.edges = [((0, 1), 8), ((1, 0), 8), ((1, 2), 5), ((2, 1), 5)] ∧
      (∀ i, g.edge? i i = none) ∧ (∀ i j, g.edge? i j = g.edge? j i) ∧
      ∀ p, (g.isAutomorphism? p).isSome = true := by
  intro calls
  have hedges : ((ofColors false [0, 0, 0]).performAll? calls).map edges =
      some [((0, 1), 8), ((1, 0), 8), ((1, 2), 5), ((2, 1), 5)] := by decide +kernel
  obtain ⟨g, hcalls, heq⟩ := Option.map_eq_some_iff.mp hedges
  obtain ⟨-, -, hloop, -, hundirected, -, -, -, hautomorphism, -⟩ :=
    performAll?_ofColors_sound false [0, 0, 0] hcalls
  obtain ⟨hnamed, hsymmetric⟩ := hundirected rfl
  exact ⟨g, hcalls, heq, hloop, hsymmetric, hautomorphism.mpr hnamed⟩

/-- A directed edge from the only vertex to the number 1 is inserted, and the edges by
target have no answer any more. -/
theorem performAll?_ofColors_not_closed :
    ¬∀ (directed : Bool) (colors : List Nat) (calls : List (GraphCall colors.length)) g,
      (ofColors directed colors).performAll? calls = some g →
        (∀ i, g.edge? i i = none) ∧
        (∀ i j c, g.edge? i j = some c → i < g.size ∧ j < g.size) ∧
        (directed = false → ∀ i j, g.edge? i j = g.edge? j i) ∧
        g.incoming?.isSome = true ∧
        (∀ p, (g.isAutomorphism? p).isSome = true) ∧ g.refiner?.isSome = true := by
  intro hclaim
  let g := (ofColors true [0]).addEdge 0 1 7
  have hcalls : (ofColors true [0]).performAll? [(.insert 0 1 7 : GraphCall 1)] = some g := rfl
  obtain ⟨-, -, -, hincoming, -⟩ := hclaim true [0] [.insert 0 1 7] g hcalls
  exact absurd hincoming (by decide)

end ColoredGraph
end ProcessorSymmetry

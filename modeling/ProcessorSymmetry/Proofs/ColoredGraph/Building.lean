import ProcessorSymmetry.Proofs.ColoredGraph.Edges

/-!
# Building colored graphs

Putting edges between vertices keeps a graph well-formed, and afterwards these
edges are found with their new colors while all others are as before.
-/

namespace ProcessorSymmetry
namespace ColoredGraph

variable {g h : ColoredGraph} {i j a b c : Nat}

/-! ## Entries of adjacency lists -/

theorem fst_mem_putTarget {entries : List (Nat × Nat)} {entry : Nat × Nat}
    (h : entry ∈ putTarget j c entries) : entry.1 = j ∨ entry ∈ entries := by
  induction entries with
  | nil =>
      rw [List.mem_singleton.mp h]
      exact .inl rfl
  | cons first rest ih =>
      rw [putTarget] at h
      split at h
      · rcases List.mem_cons.mp h with rfl | h
        · exact .inl rfl
        · exact .inr h
      · split at h
        · rcases List.mem_cons.mp h with rfl | h
          · exact .inl rfl
          · exact .inr (List.mem_cons_of_mem _ h)
        · rcases List.mem_cons.mp h with rfl | h
          · exact .inr List.mem_cons_self
          · exact (ih h).imp_right (List.mem_cons_of_mem _)

theorem putTarget_ascending {entries : List (Nat × Nat)}
    (h : entries.Pairwise fun a b => a.1 < b.1) :
    (putTarget j c entries).Pairwise fun a b => a.1 < b.1 := by
  induction entries with
  | nil => exact List.pairwise_singleton _ _
  | cons first rest ih =>
      obtain ⟨hfirst, hrest⟩ := List.pairwise_cons.mp h
      rw [putTarget]
      split
      · rename_i hlt
        refine List.pairwise_cons.mpr ⟨?_, h⟩
        intro entry hentry
        rcases List.mem_cons.mp hentry with rfl | hentry
        · exact hlt
        · exact Nat.lt_trans hlt (hfirst entry hentry)
      · rename_i hge
        split
        · rename_i heq
          subst heq
          exact List.pairwise_cons.mpr ⟨hfirst, hrest⟩
        · rename_i hne
          refine List.pairwise_cons.mpr ⟨?_, ih hrest⟩
          intro entry hentry
          rcases fst_mem_putTarget hentry with heq | hentry
          · rw [heq]
            exact Nat.lt_of_le_of_ne (Nat.not_lt.mp hge) (Ne.symm hne)
          · exact hfirst entry hentry

theorem lookup_putTarget (entries : List (Nat × Nat)) (k : Nat) :
    (putTarget j c entries).lookup k = if k = j then some c else entries.lookup k := by
  induction entries with
  | nil =>
      by_cases hk : k = j
      · simp [putTarget, hk]
      · simp [putTarget, List.lookup_cons, beq_false_of_ne hk, hk]
  | cons first rest ih =>
      obtain ⟨k', c'⟩ := first
      by_cases hk : k = j
      · subst hk
        rw [putTarget]
        split
        · simp
        · split
          · simp
          · rename_i hne
            simp [List.lookup_cons, beq_false_of_ne hne, ih]
      · rw [putTarget]
        rw [if_neg hk] at ih ⊢
        split
        · rw [List.lookup_cons, beq_false_of_ne hk]
        · split
          · rename_i heq
            subst heq
            rw [List.lookup_cons, List.lookup_cons, beq_false_of_ne hk]
          · rw [List.lookup_cons, List.lookup_cons, ih]

/-! ## Single edges -/

theorem edgesFrom_setEdge (g : ColoredGraph) (i j c a : Nat) :
    (g.setEdge i j c).edgesFrom a =
      if a = i ∧ i < g.targets.size then putTarget j c (g.edgesFrom i) else g.edgesFrom a := by
  rw [edgesFrom, setEdge, Array.getD_eq_getD_getElem?, Array.getElem?_modify]
  by_cases hai : a = i
  · subst hai
    by_cases ha : a < g.targets.size
    · simp [ha, edgesFrom, Array.getD_eq_getD_getElem?]
    · simp [ha, edgesFrom, Array.getD_eq_getD_getElem?]
  · simp [hai, Ne.symm hai, edgesFrom, Array.getD_eq_getD_getElem?]

theorem edge?_setEdge (hi : i < g.targets.size) :
    (g.setEdge i j c).edge? a b = if a = i ∧ b = j then some c else g.edge? a b := by
  rw [edge?, edgesFrom_setEdge]
  by_cases hai : a = i
  · subst hai
    rw [if_pos ⟨rfl, hi⟩, lookup_putTarget]
    simp [edge?]
  · simp [hai, edge?]

theorem Arranged.setEdge (hg : g.Arranged) (i j c : Nat) : (g.setEdge i j c).Arranged where
  targets_size := by
    rw [ColoredGraph.setEdge, Array.size_modify]
    exact hg.targets_size
  ascending := by
    intro a
    rw [edgesFrom_setEdge]
    split
    · exact putTarget_ascending (hg.ascending i)
    · exact hg.ascending a

theorem WellFormed.setEdge (hg : g.WellFormed) (hj : j < g.size) :
    (g.setEdge i j c).WellFormed where
  targets_size := (hg.arranged.setEdge i j c).targets_size
  ascending := (hg.arranged.setEdge i j c).ascending
  closed := by
    intro a entry hentry
    rw [edgesFrom_setEdge] at hentry
    split at hentry
    · rcases fst_mem_putTarget hentry with heq | hentry
      · rw [heq]
        exact hj
      · exact hg.closed i entry hentry
    · exact hg.closed a entry hentry

/-! ## Edges with their directions -/

@[simp] theorem size_addEdge (g : ColoredGraph) (i j c : Nat) :
    (g.addEdge i j c).size = g.size := by
  rw [addEdge]
  split <;> rfl

@[simp] theorem directed_addEdge (g : ColoredGraph) (i j c : Nat) :
    (g.addEdge i j c).directed = g.directed := by
  rw [addEdge]
  split <;> rfl

@[simp] theorem color_addEdge (g : ColoredGraph) (i j c a : Nat) :
    (g.addEdge i j c).color a = g.color a := by
  rw [addEdge]
  split <;> rfl

theorem WellFormed.addEdge (hg : g.WellFormed) (hi : i < g.size) (hj : j < g.size) :
    (g.addEdge i j c).WellFormed := by
  rw [ColoredGraph.addEdge]
  split
  · exact hg.setEdge hj
  · exact (hg.setEdge hj).setEdge hi

theorem Arranged.addEdge (hg : g.Arranged) (i j c : Nat) : (g.addEdge i j c).Arranged := by
  rw [ColoredGraph.addEdge]
  split
  · exact hg.setEdge i j c
  · exact (hg.setEdge i j c).setEdge j i c

/-- The new edge is found in one direction, and also in the other one if the graph is
undirected.  A directed edge may lead anywhere. -/
theorem Arranged.edge?_addEdge (hg : g.Arranged) (hi : i < g.size)
    (hj : g.directed = true ∨ j < g.size) :
    (g.addEdge i j c).edge? a b =
      if a = i ∧ b = j ∨ g.directed = false ∧ a = j ∧ b = i then some c else g.edge? a b := by
  rw [ColoredGraph.addEdge]
  have hi' : i < g.targets.size := hg.targets_size.symm ▸ hi
  split
  · rename_i hdirected
    rw [edge?_setEdge hi']
    simp [hdirected]
  · rename_i hdirected
    have hj' : j < (g.setEdge i j c).targets.size :=
      (hg.setEdge i j c).targets_size.symm ▸ hj.resolve_left hdirected
    rw [edge?_setEdge hj', edge?_setEdge hi']
    simp only [hdirected, true_and]
    by_cases hback : a = j ∧ b = i
    · rw [if_pos hback, if_pos (.inr hback)]
    · simp [hback]

theorem WellFormed.edge?_addEdge (hg : g.WellFormed) (hi : i < g.size) (hj : j < g.size) :
    (g.addEdge i j c).edge? a b =
      if a = i ∧ b = j ∨ g.directed = false ∧ a = j ∧ b = i then some c else g.edge? a b :=
  hg.arranged.edge?_addEdge hi (.inr hj)

theorem edgesFrom_ofColors (directed : Bool) (colors : List Nat) (i : Nat) :
    (ofColors directed colors).edgesFrom i = [] := by
  by_cases hi : i < colors.length
  · simp [ofColors, edgesFrom, Array.getD_eq_getD_getElem?, hi]
  · simp [ofColors, edgesFrom, Array.getD_eq_getD_getElem?, hi]

theorem edge?_ofColors (directed : Bool) (colors : List Nat) (i j : Nat) :
    (ofColors directed colors).edge? i j = none := by
  rw [edge?, edgesFrom_ofColors]
  rfl

@[simp] theorem size_ofColors (directed : Bool) (colors : List Nat) :
    (ofColors directed colors).size = colors.length :=
  rfl

theorem color_ofColors (directed : Bool) (colors : List Nat) (i : Nat) :
    (ofColors directed colors).color i = colors.getD i 0 := by
  rw [color, ofColors, Array.getD_eq_getD_getElem?, List.getElem?_toArray,
    List.getD_eq_getElem?_getD]

theorem wellFormed_ofColors (directed : Bool) (colors : List Nat) :
    (ofColors directed colors).WellFormed where
  targets_size := by simp [ofColors, size]
  ascending := by
    intro i
    rw [edgesFrom_ofColors]
    exact .nil
  closed := by
    intro i entry hentry
    rw [edgesFrom_ofColors] at hentry
    cases hentry

/-! ## Many edges -/

/-- The graph with the edges of a list, which has their ends with their colors. -/
def addEdges (g : ColoredGraph) (entries : List ((Nat × Nat) × Nat)) : ColoredGraph :=
  entries.foldr (fun entry h => h.addEdge entry.1.1 entry.1.2 entry.2) g

@[simp] theorem size_addEdges (g : ColoredGraph) (entries : List ((Nat × Nat) × Nat)) :
    (g.addEdges entries).size = g.size := by
  induction entries with
  | nil => rfl
  | cons entry rest ih => exact (size_addEdge _ _ _ _).trans ih

@[simp] theorem directed_addEdges (g : ColoredGraph) (entries : List ((Nat × Nat) × Nat)) :
    (g.addEdges entries).directed = g.directed := by
  induction entries with
  | nil => rfl
  | cons entry rest ih => exact (directed_addEdge _ _ _ _).trans ih

@[simp] theorem color_addEdges (g : ColoredGraph) (entries : List ((Nat × Nat) × Nat))
    (i : Nat) : (g.addEdges entries).color i = g.color i := by
  induction entries with
  | nil => rfl
  | cons entry rest ih => exact (color_addEdge _ _ _ _ _).trans ih

theorem WellFormed.addEdges (hg : g.WellFormed) {entries : List ((Nat × Nat) × Nat)}
    (hentries : ∀ entry ∈ entries, entry.1.1 < g.size ∧ entry.1.2 < g.size) :
    (g.addEdges entries).WellFormed := by
  induction entries with
  | nil => exact hg
  | cons entry rest ih =>
      obtain ⟨hfirst, hrest⟩ := List.forall_mem_cons.mp hentries
      have hmade := ih hrest
      apply hmade.addEdge
      · rw [size_addEdges]
        exact hfirst.1
      · rw [size_addEdges]
        exact hfirst.2

/-! ## Checked edges -/

/-- An edge is inserted from a vertex to something else, which has to be a vertex with the
same edge back if the graph is undirected. -/
theorem insertEdge?_eq_some_iff {old : Option Nat} :
    g.insertEdge? i j c = some (old, h) ↔
      (i ≠ j ∧ i < g.size) ∧
        (g.directed = true ∨ j < g.size ∧ g.edge? j i = g.edge? i j) ∧
        g.edge? i j = old ∧ g.addEdge i j c = h := by
  cases hdirected : g.directed
  · simp [ColoredGraph.insertEdge?, guard, Option.bind_eq_some_iff, hdirected]
  · simp [ColoredGraph.insertEdge?, guard, Option.bind_eq_some_iff, hdirected]

end ColoredGraph
end ProcessorSymmetry

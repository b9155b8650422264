import ProcessorSymmetry.Proofs.ColoredGraph.Leaves
import ProcessorSymmetry.Proofs.Group.Orbit

/-!
# The search for automorphisms

The nodes along the first path have stabilizers, each of which is the subgroup
of the one above that fixes the individualized vertex.  What the search finds at
a node generates the stabilizer of the node: whatever keeps the node and moves
the individualized vertex is found, up to what has been found before.
-/

namespace ProcessorSymmetry

open Perm Coloring

/-! ## Nodes and the first path -/

namespace Refiner

variable {r : Refiner} {colors : Coloring} {path deeper : List Coloring} {v : Nat}

/-- The colorings that the search meets: all vertices have colors, without gaps. -/
structure IsNode (r : Refiner) (colors : Coloring) : Prop where
  size_eq : colors.size = r.graph.size
  dense : colors.IsDense

theorem IsNode.individualize (h : r.IsNode colors) (v : Nat) :
    r.IsNode (r.individualize colors v) :=
  ⟨size_individualize h.size_eq v, individualize_isDense h.size_eq v⟩

/-- The target cell consists of the vertices with the color of its first one. -/
theorem IsNode.mem_target_iff (h : r.IsNode colors) {rest : List Nat}
    (hsome : colors.targetCell? = some (v :: rest)) {w : Nat} :
    w ∈ v :: rest ↔ w < r.graph.size ∧ colors.getD w 0 = colors.getD v 0 := by
  obtain ⟨c, hcell, -⟩ := Coloring.targetCell?_eq_some hsome
  have hvc : colors.getD v 0 = c := (mem_cell.mp (hcell ▸ List.mem_cons_self)).2
  rw [hcell, mem_cell, h.size_eq, hvc]

theorem isNode_initial (g : ColoredGraph) : g.refiner.IsNode g.refiner.initial :=
  ⟨size_initial g, initial_isDense g⟩

/-- Colorings from a node down to a leaf.  Each one individualizes the first
vertex of the target cell of the one before. -/
inductive IsPath (r : Refiner) : List Coloring → Prop
  | leaf {colors : Coloring} (none : colors.targetCell? = none) : IsPath r [colors]
  | node {colors : Coloring} {v : Nat} {rest : List Nat} {deeper : List Coloring}
      (some : colors.targetCell? = some (v :: rest))
      (next : IsPath r (r.individualize colors v :: deeper)) :
      IsPath r (colors :: r.individualize colors v :: deeper)

theorem firstPath_eq_cons (r : Refiner) (bound : Nat) (colors : Coloring) :
    ∃ deeper, ColoredGraph.firstPath r bound colors = colors :: deeper := by
  cases bound with
  | zero => exact ⟨[], rfl⟩
  | succ bound =>
      rw [ColoredGraph.firstPath]
      split
      · exact ⟨_, rfl⟩
      · exact ⟨[], rfl⟩

/-- The first path reaches a leaf, because every step adds a color. -/
theorem isPath_firstPath (hcolors : r.IsNode colors) {bound : Nat}
    (hbound : r.graph.size ≤ colors.colorCount + bound) :
    IsPath r (ColoredGraph.firstPath r bound colors) := by
  induction bound generalizing colors with
  | zero =>
      apply IsPath.leaf
      cases htarget : colors.targetCell? with
      | none => rfl
      | some target =>
          -- There are as many colors as vertices, and splitting a cell would add another one.
          obtain ⟨c, -, v, w, rest, rfl⟩ := Coloring.targetCell?_eq_some htarget
          have hlt := colorCount_lt_individualize (r := r) hcolors.size_eq hcolors.dense htarget
            List.mem_cons_self
          have hnext := hcolors.individualize v
          have hle := hnext.dense.colorCount_le_size
          rw [hnext.size_eq] at hle
          omega
  | succ bound ih =>
      rw [ColoredGraph.firstPath]
      split
      · rename_i v rest htarget
        have hlt := colorCount_lt_individualize (r := r) hcolors.size_eq hcolors.dense htarget
          List.mem_cons_self
        have hpath := ih (hcolors.individualize v) (by omega)
        obtain ⟨deeper, hdeeper⟩ := firstPath_eq_cons r bound (r.individualize colors v)
        rw [hdeeper] at hpath ⊢
        exact .node htarget hpath
      · rename_i hnone
        apply IsPath.leaf
        cases htarget : colors.targetCell? with
        | none => rfl
        | some target =>
            obtain ⟨c, -, v, w, rest, rfl⟩ := Coloring.targetCell?_eq_some htarget
            exact absurd htarget (hnone v (w :: rest))

/-- Cells of the same sizes have a target among them or not. -/
theorem targetCell?_eq_none_congr {others : Coloring} (h : colors.cellSizes = others.cellSizes) :
    colors.targetCell? = none ↔ others.targetCell? = none := by
  rw [Coloring.targetCell?, Coloring.targetCell?, Option.map_eq_none_iff, Option.map_eq_none_iff,
    h]

end Refiner

namespace ColoredGraph

open Refiner

variable {g : ColoredGraph} {reference colors : Coloring} {deeper : List Coloring}
  {p q : Perm g.size} {v w : Nat}

theorem leafMap?_of_nodes (hreference : g.refiner.IsNode reference)
    (hcolors : g.refiner.IsNode colors) (hnone : colors.targetCell? = none) :
    g.leafMap? reference colors = some p ↔ Carries p reference colors :=
  leafMap?_eq_some_iff hreference.dense hreference.size_eq hcolors.dense
    (targetCell?_eq_none_iff.mp hnone) hcolors.size_eq

/-! ## Looking for one automorphism -/

/-- A permutation that is found is an automorphism and carries a leaf below the
reference to a leaf below the node. -/
theorem findAutomorphism?_spec (hpath : IsPath g.refiner (reference :: deeper))
    (hreference : g.refiner.IsNode reference) (hcolors : g.refiner.IsNode colors)
    (hp : g.findAutomorphism? g.refiner (reference :: deeper) colors = some p) :
    g.isAutomorphism p = true ∧ ∃ final leaf, final.IsLeafOf reference ∧
      leaf.IsLeafOf colors ∧ Carries p final leaf := by
  generalize hwhole : reference :: deeper = path at hpath hp
  induction hpath generalizing reference deeper colors with
  | @leaf reference' hnone =>
      obtain ⟨rfl, rfl⟩ := List.cons.inj hwhole
      rw [findAutomorphism?] at hp
      split at hp
      · split at hp
        · rename_i hnone'
          obtain ⟨hmap, hauto⟩ := Option.filter_eq_some_iff.mp hp
          exact ⟨hauto, reference, colors,
            ⟨.refl _, hreference.dense, targetCell?_eq_none_iff.mp hnone⟩,
            ⟨.refl _, hcolors.dense, targetCell?_eq_none_iff.mp hnone'⟩,
            (leafMap?_of_nodes hreference hcolors hnone').mp hmap⟩
        · obtain ⟨x, -, hx⟩ := List.exists_of_findSome?_eq_some hp
          cases hx
      · cases hp
  | @node reference' v rest deeper' hsome next ih =>
      obtain ⟨rfl, rfl⟩ := List.cons.inj hwhole
      rw [findAutomorphism?] at hp
      split at hp
      · rename_i hsizes
        split at hp
        · rename_i hnone
          rw [targetCell?_eq_none_congr hsizes, hsome] at hnone
          cases hnone
        · rename_i target htarget
          obtain ⟨x, -, hx⟩ := List.exists_of_findSome?_eq_some hp
          obtain ⟨hauto, final, leaf, hfinal, hleaf, hcarries⟩ :=
            ih (hreference.individualize v) (hcolors.individualize x) rfl hx
          exact ⟨hauto, final, leaf, hfinal.trans (individualize_isBelow hreference.size_eq v),
            hleaf.trans (individualize_isBelow hcolors.size_eq x), hcarries⟩
      · cases hp

/-- No automorphism that carries the reference to the node is missed. -/
theorem findAutomorphism?_isSome (hg : g.WellFormed)
    (hpath : IsPath g.refiner (reference :: deeper)) (hreference : g.refiner.IsNode reference)
    (hcolors : g.refiner.IsNode colors) (hp : p ∈ g.automorphismGroup)
    (hcarries : Carries p reference colors) :
    (g.findAutomorphism? g.refiner (reference :: deeper) colors).isSome = true := by
  generalize hwhole : reference :: deeper = path at hpath
  induction hpath generalizing reference deeper colors with
  | @leaf reference' hnone =>
      obtain ⟨rfl, rfl⟩ := List.cons.inj hwhole
      have hnone' := hcarries.targetCell?_eq_none hnone
      have hmap := (leafMap?_of_nodes hreference hcolors hnone').mpr hcarries
      rw [findAutomorphism?, if_pos hcarries.cellSizes_eq]
      split
      · rw [hmap, Option.filter_some, hg.isAutomorphism_iff.mpr hp]
        rfl
      · rename_i target htarget
        rw [hnone'] at htarget
        cases htarget
  | @node reference' v rest deeper' hsome next ih =>
      obtain ⟨rfl, rfl⟩ := List.cons.inj hwhole
      obtain ⟨image, himage, hmem⟩ := hcarries.targetCell?_eq_some hsome
      rw [findAutomorphism?, if_pos hcarries.cellSizes_eq]
      split
      · rename_i hnone
        rw [himage] at hnone
        cases hnone
      · rename_i target htarget
        obtain rfl : image = target := Option.some.inj (himage.symm.trans htarget)
        -- The automorphism itself shows which branch to take.
        rw [List.findSome?_isSome_iff]
        refine ⟨p v, (hmem v).mpr List.mem_cons_self, ?_⟩
        exact ih (hreference.individualize v) (hcolors.individualize (p v))
          (carries_individualize hg hg hp hcarries v) rfl

/-! ## Stabilizers of nodes -/

/-- The automorphisms that keep the colors of a node. -/
def nodeStabilizer (g : ColoredGraph) (colors : Coloring) : Subgroup (Perm g.size) where
  carrier := {p | p ∈ g.automorphismGroup ∧
    ∀ i < g.size, colors.getD (p i) 0 = colors.getD i 0}
  one_mem' := ⟨Subgroup.one_mem _, fun i _ => by rw [one_app]⟩
  mul_mem' := by
    rintro p q ⟨hp, hpc⟩ ⟨hq, hqc⟩
    refine ⟨Subgroup.mul_mem _ hp hq, ?_⟩
    intro i hi
    rw [mul_app, hqc _ (p.app_lt hi), hpc i hi]
  inv_mem' := by
    rintro p ⟨hp, hpc⟩
    refine ⟨Subgroup.inv_mem _ hp, ?_⟩
    intro i hi
    rw [← hpc _ (p⁻¹.app_lt hi), app_inv_app]

theorem mem_nodeStabilizer (hcolors : g.refiner.IsNode colors) :
    p ∈ g.nodeStabilizer colors ↔ p ∈ g.automorphismGroup ∧ Carries p colors colors := by
  constructor
  · rintro ⟨hp, hpc⟩
    exact ⟨hp, hcolors.size_eq, hcolors.size_eq, hpc⟩
  · rintro ⟨hp, hcarries⟩
    exact ⟨hp, hcarries.getD_eq⟩

theorem nodeStabilizer_initial (hg : g.WellFormed) :
    g.nodeStabilizer g.refiner.initial = g.automorphismGroup := by
  ext p
  rw [mem_nodeStabilizer (isNode_initial g)]
  constructor
  · exact And.left
  · intro hp
    exact ⟨hp, carries_initial hg hg hp⟩

theorem nodeStabilizer_of_leaf (hcolors : g.refiner.IsNode colors)
    (hnone : colors.targetCell? = none) : g.nodeStabilizer colors = ⊥ := by
  rw [eq_bot_iff]
  intro p hp
  obtain ⟨-, hcarries⟩ := (mem_nodeStabilizer hcolors).mp hp
  exact Subgroup.mem_bot.mpr (hcarries.eq_one (targetCell?_eq_none_iff.mp hnone))

/-- Individualizing a vertex leaves the automorphisms that fix it. -/
theorem nodeStabilizer_individualize (hg : g.WellFormed) (hcolors : g.refiner.IsNode colors)
    (hv : v < g.size) :
    g.nodeStabilizer (g.refiner.individualize colors v) =
      g.nodeStabilizer colors ⊓ fixing v := by
  have hnext := hcolors.individualize v
  have hsize : colors.size = g.size := hcolors.size_eq
  ext p
  rw [Subgroup.mem_inf, mem_fixing, mem_nodeStabilizer hnext, mem_nodeStabilizer hcolors]
  constructor
  · rintro ⟨hp, hcarries⟩
    have hkeeps : ∀ i < g.size, colors.getD (p i) 0 = colors.getD i 0 := by
      intro i hi
      apply (individualize_isBelow hcolors.size_eq v).eq
      · exact hsize.symm ▸ p.app_lt hi
      · exact hsize.symm ▸ hi
      · exact hcarries.getD_eq i hi
    refine ⟨⟨hp, hsize, hsize, hkeeps⟩, ?_⟩
    by_contra hmoved
    have hlt := individualize_lt hcolors.size_eq (hsize.symm ▸ hv) (hsize.symm ▸ p.app_lt hv)
      hmoved (hkeeps v hv)
    rw [hcarries.getD_eq v hv] at hlt
    exact Nat.lt_irrefl _ hlt
  · rintro ⟨⟨hp, hcarries⟩, hfix⟩
    have hindividualized := carries_individualize hg hg hp hcarries v
    rw [hfix] at hindividualized
    exact ⟨hp, hindividualized⟩

/-- An automorphism that is found in the branch of `w` keeps the node and takes
the individualized vertex to `w`. -/
theorem findAutomorphism?_individualize (hg : g.WellFormed) (hcolors : g.refiner.IsNode colors)
    (hpath : IsPath g.refiner (g.refiner.individualize colors v :: deeper))
    (hv : v < g.size) (hw : w < g.size) (hvw : colors.getD v 0 = colors.getD w 0)
    (hp : g.findAutomorphism? g.refiner (g.refiner.individualize colors v :: deeper)
      (g.refiner.individualize colors w) = some p) :
    p ∈ g.nodeStabilizer colors ∧ p v = w := by
  have hsize : colors.size = g.size := hcolors.size_eq
  obtain ⟨hauto, final, leaf, hfinal, hleaf, hcarries⟩ :=
    findAutomorphism?_spec hpath (hcolors.individualize v) (hcolors.individualize w) hp
  have hfinal' := hfinal.trans (individualize_isBelow hcolors.size_eq v)
  have hleaf' := hleaf.trans (individualize_isBelow hcolors.size_eq w)
  -- Leaves keep the individualized vertex in front of the rest of its cell.
  have hfirst : ∀ {final : Coloring} {v : Nat},
      final.IsLeafOf (g.refiner.individualize colors v) → v < g.size →
      ∀ j < g.size, j ≠ v → colors.getD j 0 = colors.getD v 0 →
        final.getD v 0 < final.getD j 0 := by
    intro final v hfinal hv j hj hjv hcolor
    have hnext : (g.refiner.individualize colors v).size = g.size :=
      size_individualize hcolors.size_eq v
    apply hfinal.lt
    · exact hnext.symm ▸ hv
    · exact hnext.symm ▸ hj
    · exact individualize_lt hcolors.size_eq (hsize.symm ▸ hv) (hsize.symm ▸ hj) hjv hcolor
  constructor
  · rw [mem_nodeStabilizer hcolors]
    exact ⟨hg.isAutomorphism_iff.mp hauto, hcarries.carries_of_leaves hfinal' hleaf'⟩
  · exact hcarries.app_eq_of_leaves hfinal' hleaf' hv hw hvw (hfirst hfinal hv) (hfirst hleaf hw)

/-! ## Generators along the first path -/

/-- What is known at a node after the branches of some vertices have been tried. -/
structure Tried (g : ColoredGraph) (colors : Coloring) (v : Nat) (tried : List Nat)
    (found : List (Perm g.size) × List Nat) : Prop where
  members : ∀ q ∈ found.1, q ≠ 1 ∧ q ∈ g.nodeStabilizer colors
  deeper : g.nodeStabilizer (g.refiner.individualize colors v) ≤ generated found.1
  orbit : found.2 = (Level.ofGenerators v found.1).orbit
  complete : ∀ w ∈ tried, ∀ q ∈ g.nodeStabilizer colors, q v = w → w ∈ found.2

/-- Before any vertex is tried, the generators generate the stabilizer of `v`. -/
theorem Tried.start (hg : g.WellFormed) (hcolors : g.refiner.IsNode colors) (hv : v < g.size)
    {generators : List (Perm g.size)} (hne : ∀ q ∈ generators, q ≠ 1)
    (hgenerated : generated generators = g.nodeStabilizer (g.refiner.individualize colors v)) :
    Tried g colors v [] (generators, (Level.ofGenerators v generators).orbit) where
  members := by
    intro q hq
    have hmem := subset_generated hq
    rw [hgenerated, nodeStabilizer_individualize hg hcolors hv] at hmem
    exact ⟨hne q hq, hmem.1⟩
  deeper := hgenerated.ge
  orbit := rfl
  complete := by simp

theorem Tried.mem_orbit_iff {tried : List Nat} {found : List (Perm g.size) × List Nat}
    (h : Tried g colors v tried found) : w ∈ found.2 ↔ ∃ q ∈ generated found.1, q v = w := by
  rw [h.orbit]
  exact (Level.isOrbitOf_ofGenerators v found.1).mem_orbit_iff

/-- Nothing is missed at a vertex that is skipped if the orbit contains what leads there. -/
theorem Tried.skip {tried : List Nat} {found : List (Perm g.size) × List Nat}
    (h : Tried g colors v tried found)
    (hw : ∀ q ∈ g.nodeStabilizer colors, q v = w → w ∈ found.2) :
    Tried g colors v (w :: tried) found where
  members := h.members
  deeper := h.deeper
  orbit := h.orbit
  complete := List.forall_mem_cons.mpr ⟨hw, h.complete⟩

/-- An automorphism that leads to a new vertex is added. -/
theorem Tried.add {tried : List Nat} {found : List (Perm g.size) × List Nat}
    (h : Tried g colors v tried found) (hnew : w ∉ found.2) {p : Perm g.size}
    (hp : p ∈ g.nodeStabilizer colors) (hpv : p v = w) :
    Tried g colors v (w :: tried)
      (found.1 ++ [p], (Level.ofGenerators v (found.1 ++ [p])).orbit) := by
  have hgrow : generated found.1 ≤ generated (found.1 ++ [p]) :=
    generated_mono fun q hq => List.mem_append_left _ hq
  have horbit := Level.isOrbitOf_ofGenerators v (found.1 ++ [p])
  have hpne : p ≠ 1 := by
    rintro rfl
    rw [one_app] at hpv
    apply hnew
    rw [h.mem_orbit_iff]
    exact ⟨1, Subgroup.one_mem _, by rw [one_app, hpv]⟩
  refine ⟨?_, h.deeper.trans hgrow, rfl, ?_⟩
  · intro q hq
    rcases List.mem_append.mp hq with hq | hq
    · exact h.members q hq
    · rw [List.mem_singleton.mp hq]
      exact ⟨hpne, hp⟩
  · intro x hx q hq hqv
    rw [horbit.mem_orbit_iff]
    rcases List.mem_cons.mp hx with rfl | hx
    · exact ⟨p, subset_generated (List.mem_append_right _ List.mem_cons_self), hpv⟩
    · obtain ⟨s, hs, hsv⟩ := h.mem_orbit_iff.mp (h.complete x hx q hq hqv)
      exact ⟨s, hgrow hs, hsv⟩

/-- A vertex that is tried is in the orbit or out of reach, or an automorphism that takes
`v` there is added. -/
theorem tryVertex_cases (hg : g.WellFormed) (hcolors : g.refiner.IsNode colors)
    (hpath : IsPath g.refiner (g.refiner.individualize colors v :: deeper))
    (hv : v < g.size) (hw : w < g.size) (hwv : colors.getD w 0 = colors.getD v 0)
    (found : List (Perm g.size) × List Nat) :
    (g.tryVertex g.refiner colors (g.refiner.individualize colors v :: deeper) v found w = found ∧
      ∀ q ∈ g.nodeStabilizer colors, q v = w → w ∈ found.2) ∨
    ∃ p ∈ g.nodeStabilizer colors, p v = w ∧ w ∉ found.2 ∧
      g.tryVertex g.refiner colors (g.refiner.individualize colors v :: deeper) v found w =
        (found.1 ++ [p], (Level.ofGenerators v (found.1 ++ [p])).orbit) := by
  rw [tryVertex]
  split
  · rename_i hmem
    exact .inl ⟨rfl, fun q _ _ => List.contains_iff_mem.mp hmem⟩
  · rename_i hnew
    split
    · rename_i hnone
      refine .inl ⟨rfl, ?_⟩
      intro q hq hqv
      -- An automorphism to `w` would carry the first path to one that the search finds.
      obtain ⟨hauto, hcarries⟩ := (mem_nodeStabilizer hcolors).mp hq
      have hbranch := carries_individualize hg hg hauto hcarries v
      rw [hqv] at hbranch
      have hsome := findAutomorphism?_isSome hg hpath (hcolors.individualize v)
        (hcolors.individualize w) hauto hbranch
      rw [hnone] at hsome
      cases hsome
    · rename_i p hp
      obtain ⟨hmem, hpv⟩ :=
        findAutomorphism?_individualize hg hcolors hpath hv hw hwv.symm hp
      exact .inr ⟨p, hmem, hpv, fun hold => hnew (List.contains_iff_mem.mpr hold), rfl⟩

theorem Tried.tryVertex (hg : g.WellFormed) (hcolors : g.refiner.IsNode colors)
    (hpath : IsPath g.refiner (g.refiner.individualize colors v :: deeper))
    (hv : v < g.size) (hw : w < g.size) (hwv : colors.getD w 0 = colors.getD v 0)
    {tried : List Nat} {found : List (Perm g.size) × List Nat}
    (h : Tried g colors v tried found) :
    Tried g colors v (w :: tried) (g.tryVertex g.refiner colors
      (g.refiner.individualize colors v :: deeper) v found w) := by
  rcases tryVertex_cases hg hcolors hpath hv hw hwv found with
    ⟨hkept, hold⟩ | ⟨p, hp, hpv, hnew, hadded⟩
  · rw [hkept]
    exact h.skip hold
  · rw [hadded]
    exact h.add hnew hp hpv

theorem Tried.foldl (hg : g.WellFormed) (hcolors : g.refiner.IsNode colors)
    (hpath : IsPath g.refiner (g.refiner.individualize colors v :: deeper))
    (hv : v < g.size) (ws : List Nat)
    (hws : ∀ w ∈ ws, w < g.size ∧ colors.getD w 0 = colors.getD v 0)
    {tried : List Nat} {found : List (Perm g.size) × List Nat}
    (h : Tried g colors v tried found) :
    Tried g colors v (ws.reverse ++ tried) (ws.foldl (g.tryVertex g.refiner colors
      (g.refiner.individualize colors v :: deeper) v) found) := by
  induction ws generalizing tried found with
  | nil => exact h
  | cons w ws ih =>
      obtain ⟨hw, hwv⟩ := hws w List.mem_cons_self
      have hnext := ih (fun x hx => hws x (List.mem_cons_of_mem _ hx))
        (h.tryVertex hg hcolors hpath hv hw hwv)
      rw [List.reverse_cons, List.append_assoc, List.singleton_append]
      exact hnext

/-- If every vertex that `v` can be taken to has been tried, everything has been found. -/
theorem Tried.generated_eq (hg : g.WellFormed) (hcolors : g.refiner.IsNode colors)
    (hv : v < g.size) {tried : List Nat} {found : List (Perm g.size) × List Nat}
    (h : Tried g colors v tried found)
    (htried : ∀ q ∈ g.nodeStabilizer colors, q v ∈ tried) :
    generated found.1 = g.nodeStabilizer colors := by
  apply le_antisymm
  · exact generated_le.mpr fun q hq => (h.members q hq).2
  · intro q hq
    obtain ⟨s, hs, hsv⟩ := h.mem_orbit_iff.mp (h.complete (q v) (htried q hq) q hq rfl)
    have hsmem : s ∈ g.nodeStabilizer colors :=
      generated_le.mpr (fun q hq => (h.members q hq).2) hs
    -- Followed by the way back, `q` fixes the vertex.
    have hback : q * s⁻¹ ∈ g.nodeStabilizer (g.refiner.individualize colors v) := by
      rw [nodeStabilizer_individualize hg hcolors hv]
      refine ⟨Subgroup.mul_mem _ hq (Subgroup.inv_mem _ hsmem), ?_⟩
      change (q * s⁻¹) v = v
      rw [mul_app, ← hsv, inv_app_app]
    have hprod := Subgroup.mul_mem _ (h.deeper hback) hs
    rwa [inv_mul_cancel_right] at hprod

/-- The generators found along a path generate the stabilizer of its first node. -/
theorem generatorsAlong_spec (hg : g.WellFormed) (hcolors : g.refiner.IsNode colors)
    (hpath : IsPath g.refiner (colors :: deeper)) :
    (∀ q ∈ g.generatorsAlong g.refiner (colors :: deeper), q ≠ 1) ∧
      generated (g.generatorsAlong g.refiner (colors :: deeper)) = g.nodeStabilizer colors := by
  generalize hwhole : colors :: deeper = path at hpath
  induction hpath generalizing colors deeper with
  | @leaf colors' hnone =>
      obtain ⟨rfl, rfl⟩ := List.cons.inj hwhole
      rw [nodeStabilizer_of_leaf hcolors hnone, generatorsAlong, hnone]
      exact ⟨by simp [generatorsAlong], generated_nil⟩
  | @node colors' v rest deeper' hsome next ih =>
      obtain ⟨rfl, rfl⟩ := List.cons.inj hwhole
      obtain ⟨hne, hgenerated⟩ := ih (hcolors.individualize v) rfl
      obtain ⟨hv, -⟩ := (hcolors.mem_target_iff hsome).mp List.mem_cons_self
      have hstart := Tried.start hg hcolors hv hne hgenerated
      have hend := hstart.foldl hg hcolors next hv (v :: rest) fun _ hw =>
        (hcolors.mem_target_iff hsome).mp hw
      rw [generatorsAlong, hsome]
      constructor
      · intro q hq
        exact (hend.members q hq).1
      · apply hend.generated_eq hg hcolors hv
        intro q hq
        rw [List.append_nil, List.mem_reverse, hcolors.mem_target_iff hsome]
        exact ⟨q.app_lt hv, hq.2 v hv⟩

/-- The search follows a path down from the initial coloring. -/
theorem exists_isPath_generatorsBySearch (g : ColoredGraph) :
    ∃ deeper, IsPath g.refiner (g.refiner.initial :: deeper) ∧
      g.generatorsBySearch = g.generatorsAlong g.refiner (g.refiner.initial :: deeper) := by
  obtain ⟨deeper, hdeeper⟩ := firstPath_eq_cons g.refiner g.size g.refiner.initial
  have hpath : IsPath g.refiner (firstPath g.refiner g.size g.refiner.initial) :=
    isPath_firstPath (isNode_initial g) (Nat.le_add_left _ _)
  exact ⟨deeper, hdeeper ▸ hpath, congrArg (g.generatorsAlong g.refiner) hdeeper⟩

/-- The search finds generators of the automorphism group other than the identity. -/
theorem generatorsBySearch_spec (hg : g.WellFormed) :
    (∀ q ∈ g.generatorsBySearch, q ≠ 1) ∧
      generated g.generatorsBySearch = g.automorphismGroup := by
  obtain ⟨deeper, hpath, hsearch⟩ := exists_isPath_generatorsBySearch g
  rw [hsearch, ← nodeStabilizer_initial hg]
  exact generatorsAlong_spec hg (isNode_initial g) hpath

end ColoredGraph
end ProcessorSymmetry

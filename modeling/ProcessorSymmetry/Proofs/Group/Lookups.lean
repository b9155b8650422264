import ProcessorSymmetry.Proofs.Group.GeneratedChain

/-!
# Chains that are built with checks

Building a chain relies on moved points that exist, on points that have been found
before, on ways back that reach the base point and on levels that are there.  Here
everything of this kind is checked, and the whole construction fails where a check
does, or where steps are left at the end.  No check ever does, and the result is the
chain that is built without them.
-/

namespace ProcessorSymmetry

/-! ## Steps that may fail -/

/-- Takes steps until there is none left, at most `bound` of them, unless one fails. -/
def exhaustChecked {σ : Type} (step : σ → Option (Option σ)) : Nat → σ → Option σ
  | 0, state => some state
  | bound + 1, state => do
    match ← step state with
    | none => return state
    | some next => exhaustChecked step bound next

theorem exhaustChecked_eq {σ : Type} {checked : σ → Option (Option σ)} {step : σ → Option σ}
    {P : σ → Prop} (hchecked : ∀ s, P s → checked s = some (step s))
    (hstep : ∀ s t, P s → step s = some t → P t) (bound : Nat) {state : σ} (h : P state) :
    exhaustChecked checked bound state = some (exhaust step bound state) := by
  induction bound generalizing state with
  | zero => rfl
  | succ bound ih =>
      rw [exhaustChecked, exhaust, hchecked state h, Option.bind_eq_bind, Option.bind_some]
      cases hnext : step state with
      | none => rfl
      | some next => exact ih (hstep state next h hnext)

theorem findSomeM?_map_eq {α β γ : Type} {checked : γ → Option (Option β)} {find : α → Option β}
    {key : α → γ} {entries : List α} (h : ∀ a ∈ entries, checked (key a) = some (find a)) :
    (entries.map key).findSomeM? checked = some (entries.findSome? find) := by
  induction entries with
  | nil => rfl
  | cons a rest ih =>
      obtain ⟨hfirst, hrest⟩ := List.forall_mem_cons.mp h
      rw [List.map_cons, List.findSomeM?, List.findSome?, hfirst, Option.bind_eq_bind,
        Option.bind_some]
      cases find a with
      | none => exact ih hrest
      | some b => rfl

variable {n : Nat}

open Perm

/-! ## Levels -/

namespace Level

/-- Adds the image of a point, whose way back is looked up, unless the image is known. -/
def meetChecked (base x : Nat) (found : List (Nat × Perm n)) (g : Perm n) :
    Option (List (Nat × Perm n)) :=
  if found.any (·.1 == g x) then
    some found
  else do
    let back ← found.lookup x
    guard ((g⁻¹ * back) (g x) = base)
    return found ++ [(g x, g⁻¹ * back)]

/-- Visits the next orbit point that has not been visited. -/
def visitChecked (base : Nat) (generators : List (Perm n)) :
    Nat × List (Nat × Perm n) → Option (Option (Nat × List (Nat × Perm n)))
  | (visited, found) =>
    match found[visited]? with
    | none => some none
    | some entry => do
      let found ← generators.foldlM (meetChecked base entry.1) found
      return some (visited + 1, found)

/-- The level of a base point. -/
def ofGeneratorsChecked (base : Nat) (generators : List (Perm n)) : Option (Level n) := do
  let walk ← exhaustChecked (visitChecked base generators) (n + 1) (0, [(base, 1)])
  return ⟨base, generators, walk.2⟩

theorem WaysBack.foldlM_meetChecked {base : Nat} {generators : List (Perm n)}
    {entry : Nat × Perm n} {found : List (Nat × Perm n)} (h : WaysBack base generators found)
    (hentry : entry ∈ found) (gs : List (Perm n)) (hgs : ∀ g ∈ gs, g ∈ generators) :
    gs.foldlM (meetChecked base entry.1) found = some (gs.foldl (Level.meet entry) found) := by
  induction gs generalizing found with
  | nil => rfl
  | cons g gs ih =>
      obtain ⟨hg, hrest⟩ := List.forall_mem_cons.mp hgs
      have hback := h.back entry.1 entry.2 hentry
      have hmeet : meetChecked base entry.1 found g = some (Level.meet entry found g) := by
        have hlookup : found.lookup entry.1 = some entry.2 :=
          (lookup_eq_some_iff_mem h.nodup).mpr hentry
        rw [meetChecked, Level.meet]
        split
        · rfl
        · simp [hlookup, hback.2, guard]
      obtain ⟨new, hnew, hways, -⟩ := h.meet hback hg
      rw [List.foldlM_cons, hmeet, List.foldl_cons, Option.bind_eq_bind, Option.bind_some]
      exact ih (hnew ▸ hways) (hnew ▸ List.mem_append_left _ hentry) hrest

theorem Walked.visitChecked_eq {base : Nat} {generators : List (Perm n)}
    {state : Nat × List (Nat × Perm n)} (h : Walked base generators state) :
    visitChecked base generators state = some (visit? generators state) := by
  obtain ⟨visited, found⟩ := state
  rw [visitChecked, visit?]
  cases hentry : found[visited]? with
  | none => rfl
  | some entry =>
      have hfold := h.toWaysBack.foldlM_meetChecked (List.mem_of_getElem? hentry) generators
        fun _ hg => hg
      simp only [hfold]
      rfl

/-- Every point whose way back is needed has been found, and its way back is right. -/
theorem ofGeneratorsChecked_eq (base : Nat) (generators : List (Perm n)) :
    ofGeneratorsChecked base generators = some (ofGenerators base generators) := by
  rw [ofGeneratorsChecked, exhaustChecked_eq (P := Walked base generators)
    (fun _ hs => hs.visitChecked_eq) (fun s t hs hst => (hs.visit hst).1) (n + 1)
    (walked_start base generators)]
  rfl

end Level

namespace Chain

variable {level : Level n} {residue : Perm n} {passed : Nat} {points : List Nat}
  {G : Subgroup (Perm n)}

/-! ## Starting -/

/-- Lengthens a base until every generator moves one of its points. -/
def completeBaseChecked (generators : List (Perm n)) (points : List Nat) : Option (List Nat) :=
  generators.foldlM (fun base g =>
    if base.all fun b => g b == b then do
      let b ← g.firstMoved?
      return base ++ [b]
    else
      return base) points

/-- One level per base point. -/
def levelsOnChecked (generators : List (Perm n)) : List Nat → Option (List (Level n))
  | [] => some []
  | b :: rest => do
    let level ← Level.ofGeneratorsChecked b generators
    let deeper ← levelsOnChecked (generators.filter fun g => g b == b) rest
    return level :: deeper

theorem completeBaseChecked_eq {generators : List (Perm n)} (hne : ∀ g ∈ generators, g ≠ 1)
    (points : List Nat) :
    completeBaseChecked generators points = some (completeBase generators points) := by
  induction generators generalizing points with
  | nil => rfl
  | cons g generators ih =>
      obtain ⟨hg, hrest⟩ := List.forall_mem_cons.mp hne
      rw [completeBase_cons, ← ih hrest, completeBaseChecked, List.foldlM_cons]
      split
      · cases hmoved : g.firstMoved? with
        | none => exact absurd (firstMoved?_eq_none_iff.mp hmoved) hg
        | some b => rfl
      · rfl

theorem levelsOnChecked_eq (generators : List (Perm n)) (points : List Nat) :
    levelsOnChecked generators points = some (levelsOn generators points) := by
  induction points generalizing generators with
  | nil => rfl
  | cons b rest ih =>
      rw [levelsOnChecked, Level.ofGeneratorsChecked_eq, ih]
      rfl

/-! ## Verifying and mending -/

/-- The first Schreier generator of a level that does not sift through the levels below it. -/
def failingChecked (level : Level n) (deeper : List (Level n)) :
    Option (Option (Perm n × Nat)) :=
  level.orbit.findSomeM? fun x => do
    let wayBack ← level.toBase? x
    level.generators.findSomeM? fun g => do
      let back ← level.toBase? (g x)
      let h := wayBack⁻¹ * g * back
      if h.isIdentity then
        return none
      let (residue, passed) := siftThrough deeper h
      return if passed < deeper.length || !residue.isIdentity then some (residue, passed) else none

/-- Adds a residue to the first levels, as many as are given, which have to be there. -/
def mendChecked (residue : Perm n) (count : Nat) (levels : List (Level n)) :
    Option (List (Level n)) := do
  guard (count ≤ levels.length)
  let mended ← (levels.take count).mapM fun level =>
    Level.ofGeneratorsChecked level.base (level.generators ++ [residue])
  return mended ++ levels.drop count

/-- Adds a residue to the levels that it passed and to the one where it got stuck.  If it passed
them all, it has to move a point for one more level. -/
def insertResidueChecked (residue : Perm n) (passed : Nat) (deeper : List (Level n)) :
    Option (List (Level n)) :=
  if passed < deeper.length then
    mendChecked residue (passed + 1) deeper
  else do
    let b ← residue.firstMoved?
    let level ← Level.ofGeneratorsChecked b []
    mendChecked residue (passed + 1) (deeper ++ [level])

/-- Verifies the deepest pending level, or mends the levels below it. -/
def Verification.stepChecked (v : Verification n) : Option (Option (Verification n)) :=
  match v.pending with
  | [] => some none
  | level :: above => do
    match ← failingChecked level v.verified with
    | none => return some ⟨above, level :: v.verified⟩
    | some (residue, passed) =>
      let deeper ← insertResidueChecked residue passed v.verified
      return some ⟨(deeper.take (passed + 1)).reverse ++ level :: above, deeper.drop (passed + 1)⟩

/-- The chain of the group that the permutations generate. -/
def ofGeneratorsChecked (generators : List (Perm n)) (points : List Nat) : Option (Chain n) := do
  let generators := distinctBy Perm.toList (generators.filter (!·.isIdentity))
  let base ← completeBaseChecked generators points.eraseDups
  let levels ← levelsOnChecked generators base
  let final ← exhaustChecked Verification.stepChecked (verificationBound n (base.length + n))
    ⟨levels.reverse, []⟩
  guard final.pending.isEmpty
  return ⟨final.verified⟩

theorem failingChecked_eq (horbit : level.IsOrbitOf (generated level.generators))
    (deeper : List (Level n)) :
    failingChecked level deeper = some (failing? level deeper) := by
  rw [failingChecked, failing?, Level.orbit]
  refine findSomeM?_map_eq fun entry hentry => ?_
  rw [horbit.toBase?_eq_some_iff.mpr hentry, Option.bind_eq_bind, Option.bind_some]
  conv_lhs => rw [← List.map_id level.generators]
  refine findSomeM?_map_eq fun g hg => ?_
  -- The image of an orbit point under a generator is an orbit point.
  obtain ⟨p, hp, hpoint⟩ := horbit.mem_orbit_iff.mp (List.mem_map_of_mem hentry)
  have himage : g entry.1 ∈ level.orbit := by
    rw [← hpoint, ← mul_app]
    exact horbit.complete _ (Subgroup.mul_mem _ hp (subset_generated hg))
  obtain ⟨back, hback⟩ := Level.exists_toBase? himage
  simp only [id, Level.schreierGenerator?, hback, Option.map_some, Option.bind_eq_bind,
    Option.bind_some]
  cases (entry.2⁻¹ * g * back).isIdentity with
  | true => rfl
  | false =>
      by_cases hstuck : ((siftThrough deeper (entry.2⁻¹ * g * back)).2 < deeper.length ||
          !(siftThrough deeper (entry.2⁻¹ * g * back)).1.isIdentity) = true
      · simp [hstuck, guard]
      · simp [hstuck, guard]

theorem mendChecked_eq {levels : List (Level n)} {count : Nat} (h : count ≤ levels.length) :
    mendChecked residue count levels =
      some ((levels.take count).map (·.addGenerator residue) ++ levels.drop count) := by
  have hmapM : ((levels.take count).mapM fun level =>
      Level.ofGeneratorsChecked level.base (level.generators ++ [residue])) =
      some ((levels.take count).map (·.addGenerator residue)) := by
    simp only [Level.ofGeneratorsChecked_eq]
    exact List.mapM_pure
  rw [mendChecked, hmapM]
  simp [guard, h]

theorem insertResidueChecked_eq {deeper : List (Level n)} (hle : passed ≤ deeper.length)
    (hne : passed < deeper.length ∨ residue ≠ 1) :
    insertResidueChecked residue passed deeper = some (insertResidue residue passed deeper) := by
  rw [insertResidueChecked, insertResidue]
  by_cases hlt : passed < deeper.length
  · rw [if_pos hlt, if_pos hlt, mendChecked_eq hlt]
  · obtain rfl : passed = deeper.length := Nat.le_antisymm hle (Nat.not_lt.mp hlt)
    rw [if_neg hlt, if_neg hlt]
    cases hmoved : residue.firstMoved? with
    | none => exact absurd (firstMoved?_eq_none_iff.mp hmoved) (hne.resolve_left hlt)
    | some b =>
        rw [Option.bind_eq_bind, Option.bind_some, Level.ofGeneratorsChecked_eq,
          Option.bind_eq_bind, Option.bind_some, mendChecked_eq (by simp)]
        rfl

theorem Verification.Valid.stepChecked_eq {v : Verification n} (hv : v.Valid points G) :
    v.stepChecked = some v.step? := by
  rw [stepChecked, step?]
  cases hpending : v.pending with
  | nil => rfl
  | cons level above =>
      simp only [failingChecked_eq (hv.isOrbitOf hpending), Option.bind_eq_bind,
        Option.bind_some]
      cases hfailing : failing? level v.verified with
      | none => rfl
      | some found =>
          obtain ⟨residue, passed⟩ := found
          obtain ⟨hle, hne, -⟩ := hv.residue_spec hpending hfailing
          simp only [insertResidueChecked_eq hle hne, Option.bind_some]
          rfl

/-- No check fails while a chain is built, and no step is left when it is finished. -/
theorem ofGeneratorsChecked_eq (generators : List (Perm n)) (points : List Nat) :
    ofGeneratorsChecked generators points = some (ofGenerators generators points) := by
  have hne : ∀ g ∈ distinctBy toList (generators.filter (!·.isIdentity)), g ≠ 1 :=
    fun g hg => (mem_distinct_generators.mp hg).2
  have hvalid := Verification.valid_start generators points
  have hpending := hvalid.pending_run
  rw [ofGeneratorsChecked]
  simp only [completeBaseChecked_eq hne, levelsOnChecked_eq, Option.bind_eq_bind,
    Option.bind_some]
  rw [← firstBase, ← Verification.start, exhaustChecked_eq (P := Verification.Valid _ _)
    (fun v hv => hv.stepChecked_eq) (fun v w hv h => (hv.step h).1) _ hvalid]
  simp only [Option.bind_some, hpending]
  rfl

end Chain
end ProcessorSymmetry

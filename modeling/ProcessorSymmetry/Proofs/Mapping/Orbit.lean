import Mathlib.Data.List.Lex
import Mathlib.Order.Bounds.Basic
import ProcessorSymmetry.Mapping.Orbit
import ProcessorSymmetry.Proofs.Group.Orbit

/-!
# Orbits of task mappings

The walk through the images of a mapping never lists an image twice and never
leaves the orbit.  It ends by itself after at most as many visits as there are
mappings of that length, and then every image has been found.
-/

namespace ProcessorSymmetry

open Perm

variable {n : Nat} {H : Subgroup (Perm n)} {mapping current image : TaskMapping}

namespace Perm

@[simp] theorem permute_one (mapping : TaskMapping) :
    (1 : Perm n).permute mapping = mapping := by
  rw [permute, List.map_congr_left fun x _ => one_app x, List.map_id']

@[simp] theorem permute_mul (p q : Perm n) (mapping : TaskMapping) :
    (p * q).permute mapping = q.permute (p.permute mapping) := by
  simp [permute]

@[simp] theorem length_permute (p : Perm n) (mapping : TaskMapping) :
    (p.permute mapping).length = mapping.length :=
  List.length_map _

theorem permute_lt {p : Perm n} (h : ∀ x ∈ mapping, x < n) :
    ∀ x ∈ p.permute mapping, x < n := by
  intro x hx
  obtain ⟨y, hy, rfl⟩ := List.mem_map.mp hx
  exact p.app_lt (h y hy)

end Perm

/-- The images of a mapping under the members of a subgroup. -/
def imagesUnder (H : Subgroup (Perm n)) (mapping : TaskMapping) : Set TaskMapping :=
  {image | ∃ g ∈ H, g.permute mapping = image}

theorem self_mem_imagesUnder : mapping ∈ imagesUnder H mapping :=
  ⟨1, H.one_mem, permute_one mapping⟩

theorem permute_mem_imagesUnder (h : current ∈ imagesUnder H mapping)
    {g : Perm n} (hg : g ∈ H) : g.permute current ∈ imagesUnder H mapping := by
  obtain ⟨p, hp, rfl⟩ := h
  exact ⟨p * g, H.mul_mem hp hg, permute_mul p g mapping⟩

/-! ## The number of mappings -/

/-- All mappings of a length. -/
def mappingsOf (degree : Nat) : Nat → List TaskMapping
  | 0 => [[]]
  | length + 1 =>
    (List.range degree).flatMap fun x => (mappingsOf degree length).map (x :: ·)

theorem length_mappingsOf (degree length : Nat) :
    (mappingsOf degree length).length = mappingCount degree length := by
  induction length with
  | zero => rfl
  | succ length ih =>
      rw [mappingsOf, List.length_flatMap]
      simp only [List.length_map, ih, List.map_const', List.length_range,
        List.sum_replicate, smul_eq_mul, mappingCount]
      exact Nat.pow_succ'.symm

theorem mem_mappingsOf_iff {degree length : Nat} :
    mapping ∈ mappingsOf degree length ↔ mapping.length = length ∧ ∀ x ∈ mapping, x < degree := by
  induction length generalizing mapping with
  | zero =>
      rw [mappingsOf, List.mem_singleton, List.length_eq_zero_iff]
      constructor
      · rintro rfl
        simp
      · exact And.left
  | succ length ih =>
      cases mapping with
      | nil => simp [mappingsOf]
      | cons x rest =>
          simp only [mappingsOf, List.mem_flatMap, List.mem_map, List.cons.injEq, List.mem_range,
            List.length_cons, Nat.add_right_cancel_iff, List.forall_mem_cons]
          constructor
          · rintro ⟨_, hx, _, hrest, rfl, rfl⟩
            exact ⟨(ih.mp hrest).1, hx, (ih.mp hrest).2⟩
          · rintro ⟨hlength, hx, hrest⟩
            exact ⟨x, hx, rest, ih.mpr ⟨hlength, hrest⟩, rfl, rfl⟩

theorem length_le_mappingCount {entries : List TaskMapping} (hnodup : entries.Nodup)
    (hmapping : ∀ x ∈ mapping, x < n)
    (hentries : ∀ image ∈ entries, image ∈ imagesUnder H mapping) :
    entries.length ≤ mappingCount n mapping.length := by
  rw [← length_mappingsOf]
  apply List.Subperm.length_le
  apply List.subperm_of_subset hnodup
  intro image himage
  obtain ⟨g, -, rfl⟩ := hentries image himage
  exact mem_mappingsOf_iff.mpr ⟨length_permute g mapping, permute_lt hmapping⟩

/-! ## The walk -/

namespace OrbitWalk

variable {generators : List (Perm n)} {walk : OrbitWalk}

/-- Nothing that was found is lost. -/
theorem meet_keeps (walk : OrbitWalk) (image : TaskMapping) :
    (walk.meet image).visited = walk.visited ∧
      walk.found.toList <+: (walk.meet image).found.toList := by
  obtain ⟨visited, found, seen⟩ := walk
  rw [meet]
  split
  · exact ⟨rfl, List.prefix_refl _⟩
  · rw [Array.toList_push]
    exact ⟨rfl, List.prefix_append _ _⟩

theorem foldl_meet_keeps (gs : List (Perm n)) (current : TaskMapping) (walk : OrbitWalk) :
    let next := gs.foldl (fun walk g => walk.meet (g.permute current)) walk
    next.visited = walk.visited ∧ walk.found.toList <+: next.found.toList := by
  induction gs generalizing walk with
  | nil => exact ⟨rfl, List.prefix_refl _⟩
  | cons g gs ih =>
      obtain ⟨hvisited, hlonger⟩ := walk.meet_keeps (g.permute current)
      obtain ⟨hvisited', hlonger'⟩ := ih (walk.meet (g.permute current))
      exact ⟨hvisited'.trans hvisited, hlonger.trans hlonger'⟩

theorem visit_keeps (generators : List (Perm n)) (current : TaskMapping) (walk : OrbitWalk) :
    (walk.visit generators current).visited = walk.visited + 1 ∧
      walk.found.toList <+: (walk.visit generators current).found.toList := by
  obtain ⟨visited, found, seen⟩ := walk
  exact foldl_meet_keeps generators current ⟨visited + 1, found, seen⟩

/-- The images that a walk has found are distinct members of the orbit, and the
walk recognizes them. -/
structure Listed (H : Subgroup (Perm n)) (mapping : TaskMapping) (walk : OrbitWalk) :
    Prop where
  start : mapping ∈ walk.found.toList
  nodup : walk.found.toList.Nodup
  seen : ∀ image, walk.seen.contains image = true ↔ image ∈ walk.found.toList
  images : ∀ image ∈ walk.found.toList, image ∈ imagesUnder H mapping

/-- Moreover the images that have been visited lead to found ones only. -/
structure Explored (generators : List (Perm n)) (mapping : TaskMapping)
    (walk : OrbitWalk) : Prop
    extends listed : Listed (generated generators) mapping walk where
  visited_le : walk.visited ≤ walk.found.toList.length
  closed : ∀ current ∈ walk.found.toList.take walk.visited, ∀ g ∈ generators,
    g.permute current ∈ walk.found.toList

theorem Listed.meet (h : walk.Listed H mapping) (himage : image ∈ imagesUnder H mapping) :
    (walk.meet image).Listed H mapping ∧ image ∈ (walk.meet image).found.toList := by
  obtain ⟨visited, found, seen⟩ := walk
  rw [OrbitWalk.meet]
  split
  · rename_i hseen
    exact ⟨h, (h.seen image).mp hseen⟩
  · rename_i hseen
    have hnew : image ∉ found.toList := fun hmem => hseen ((h.seen image).mpr hmem)
    refine ⟨⟨?_, ?_, ?_, ?_⟩, ?_⟩
    · simpa using Or.inl h.start
    · rw [Array.toList_push, ← List.concat_eq_append]
      exact h.nodup.concat hnew
    · intro other
      have hother := h.seen other
      simp only at hother
      rw [Std.TreeSet.contains_insert, Bool.or_eq_true, hother, Array.toList_push,
        List.mem_append, List.mem_singleton, beq_iff_eq, Std.LawfulEqOrd.compare_eq_iff_eq]
      exact or_comm.trans (or_congr_right eq_comm)
    · intro other hother
      rw [Array.toList_push] at hother
      rcases List.mem_append.mp hother with hother | hother
      · exact h.images other hother
      · rwa [List.mem_singleton.mp hother]
    · simp

/-- Meeting the images of one mapping under some generators leaves none of them out. -/
theorem Listed.foldl_meet (h : walk.Listed H mapping)
    (hcurrent : current ∈ imagesUnder H mapping) (gs : List (Perm n))
    (hgs : ∀ g ∈ gs, g ∈ H) :
    let next := gs.foldl (fun walk g => walk.meet (g.permute current)) walk
    next.Listed H mapping ∧ ∀ g ∈ gs, g.permute current ∈ next.found.toList := by
  induction gs generalizing walk with
  | nil => exact ⟨h, by simp⟩
  | cons g gs ih =>
      have hg := permute_mem_imagesUnder hcurrent (hgs g List.mem_cons_self)
      obtain ⟨hmet, hmem⟩ := h.meet hg
      obtain ⟨hnext, hall⟩ := ih hmet fun g' hg' => hgs g' (List.mem_cons_of_mem _ hg')
      refine ⟨hnext, ?_⟩
      intro g' hg'
      rcases List.mem_cons.mp hg' with rfl | hg'
      · exact (foldl_meet_keeps gs current _).2.subset hmem
      · exact hall g' hg'

theorem Explored.visit (h : walk.Explored generators mapping)
    (hcurrent : walk.found[walk.visited]? = some current) :
    (walk.visit generators current).Explored generators mapping := by
  obtain ⟨hvisited, hlonger⟩ := walk.visit_keeps generators current
  have hget : walk.found.toList[walk.visited]? = some current := by
    rwa [Array.getElem?_toList]
  obtain ⟨hlt, hvalue⟩ := List.getElem?_eq_some_iff.mp hget
  have hmoved : Listed (generated generators) mapping ⟨walk.visited + 1, walk.found, walk.seen⟩ :=
    ⟨h.start, h.nodup, h.seen, h.images⟩
  obtain ⟨hlisted, hall⟩ :=
    hmoved.foldl_meet (h.images current (List.mem_of_getElem? hget)) generators
      fun g hg => subset_generated hg
  refine ⟨hlisted, ?_, ?_⟩
  · rw [hvisited]
    exact Nat.le_trans hlt hlonger.length_le
  · -- What was visited before keeps its images, and `current` has just met its own.
    intro other hother g hg
    rw [hvisited] at hother
    obtain ⟨new, hnew⟩ := hlonger
    rw [← hnew, List.take_append_of_le_length hlt,
      List.take_succ_eq_append_getElem hlt] at hother
    rcases List.mem_append.mp hother with hother | hother
    · rw [← hnew]
      exact List.mem_append_left _ (h.closed other hother g hg)
    · rw [List.mem_singleton.mp hother, hvalue]
      exact hall g hg

theorem explored_start (generators : List (Perm n)) (mapping : TaskMapping) :
    (start mapping).Explored generators mapping where
  start := by simp [start]
  nodup := by simp [start]
  seen := by
    intro image
    rw [start, Std.TreeSet.contains_insert]
    simpa [Std.TreeSet.empty_eq_emptyc] using eq_comm
  images := by
    intro image himage
    obtain rfl : image = mapping := by simpa [start] using himage
    exact self_mem_imagesUnder
  visited_le := Nat.zero_le _
  closed := by simp [start]

/-- However a walk is stopped, what it has found is explored. -/
theorem Explored.run (h : walk.Explored generators mapping) (stop : TaskMapping → Bool)
    (bound : Nat) : (walk.run generators stop bound).Explored generators mapping := by
  induction bound generalizing walk with
  | zero => exact h
  | succ bound ih =>
      rw [OrbitWalk.run]
      split
      · exact h
      · rename_i current hcurrent
        split
        · exact h
        · exact ih (h.visit hcurrent)

/-- A walk through all mappings of a length ends by itself: nothing is left to
visit, or it has met a mapping at which to stop. -/
theorem Explored.run_ends (h : walk.Explored generators mapping)
    (hmapping : ∀ x ∈ mapping, x < n) (stop : TaskMapping → Bool) {bound : Nat}
    (hbound : mappingCount n mapping.length ≤ walk.visited + bound) :
    let final := walk.run generators stop bound
    final.found[final.visited]? = none ∨
      ∃ current, final.found[final.visited]? = some current ∧ stop current = true := by
  induction bound generalizing walk with
  | zero =>
      have hcount := length_le_mappingCount h.nodup hmapping h.images
      rw [Array.length_toList] at hcount
      exact .inl (Array.getElem?_eq_none (hcount.trans hbound))
  | succ bound ih =>
      rw [OrbitWalk.run]
      split
      · exact .inl ‹_›
      · rename_i current hcurrent
        split
        · exact .inr ⟨current, hcurrent, ‹_›⟩
        · have hvisited := (walk.visit_keeps generators current).1
          exact ih (h.visit hcurrent) (by omega)

/-- Once nothing is left to visit, the images found are all images. -/
theorem Explored.mem_found_iff (h : walk.Explored generators mapping)
    (hdone : walk.found[walk.visited]? = none) :
    image ∈ walk.found.toList ↔ image ∈ imagesUnder (generated generators) mapping := by
  constructor
  · exact h.images image
  · rintro ⟨g, hg, rfl⟩
    have hall : walk.found.toList.take walk.visited = walk.found.toList := by
      rw [List.take_eq_self_iff, Array.length_toList]
      exact Array.getElem?_eq_none_iff.mp hdone
    refine generated_induction (P := fun p => p.permute mapping ∈ walk.found.toList) ?_ ?_ hg
    · rw [permute_one]
      exact h.start
    · intro p hp g hg
      rw [permute_mul]
      exact h.closed _ (hall.symm ▸ hp) g hg

end OrbitWalk

/-! ## The least image -/

/-- A fold that keeps the smaller of two entries ends with a least one. -/
theorem foldl_least {α β : Type} [LinearOrder β] [DecidableLT β] (f : α → β)
    (entries : List α) (start : α) :
    let least := entries.foldl (fun best a => if f a < f best then a else best) start
    least ∈ start :: entries ∧ ∀ a ∈ start :: entries, f least ≤ f a := by
  induction entries generalizing start with
  | nil => simp
  | cons a entries ih =>
      rw [List.foldl_cons]
      split
      · rename_i hlt
        obtain ⟨hmem, hleast⟩ := ih a
        refine ⟨List.mem_cons_of_mem _ hmem, ?_⟩
        intro b hb
        rcases List.mem_cons.mp hb with rfl | hb
        · exact (hleast a List.mem_cons_self).trans hlt.le
        · exact hleast b hb
      · rename_i hlt
        obtain ⟨hmem, hleast⟩ := ih start
        have hstart := hleast start List.mem_cons_self
        constructor
        · rcases List.mem_cons.mp hmem with heq | hmem
          · rw [heq]
            exact List.mem_cons_self
          · exact List.mem_cons_of_mem _ (List.mem_cons_of_mem _ hmem)
        · intro b hb
          rcases List.mem_cons.mp hb with rfl | hb
          · exact hstart
          · rcases List.mem_cons.mp hb with rfl | hb
            · exact hstart.trans (not_lt.mp hlt)
            · exact hleast b (List.mem_cons_of_mem _ hb)

theorem foldl_least_of_mem {α β : Type} [LinearOrder β] [DecidableLT β] (f : α → β)
    {entries : List α} {start : α} (hstart : start ∈ entries) :
    let least := entries.foldl (fun best a => if f a < f best then a else best) start
    least ∈ entries ∧ ∀ a ∈ entries, f least ≤ f a := by
  obtain ⟨hmem, hleast⟩ := foldl_least f entries start
  constructor
  · rcases List.mem_cons.mp hmem with heq | hmem
    · rwa [heq]
    · exact hmem
  · intro a ha
    exact hleast a (List.mem_cons_of_mem _ ha)

end ProcessorSymmetry

import ProcessorSymmetry.Proofs.Group.Membership
import ProcessorSymmetry.Proofs.Mapping.Orbit

/-!
# Images one after the other

Call after call, a walk answers the images of a mapping in the order of their
discovery, from the mapping itself on.  It answers each image once and then has no
more answers.  It only ever applies the given generators: because the group is
finite, products of them reach the images under all members, without any inverses.
-/

namespace ProcessorSymmetry

open Perm

variable {n : Nat} {mapping : TaskMapping}

namespace OrbitWalk

variable {generators : List (Perm n)} {walk rest : OrbitWalk} {current : TaskMapping}
  {images : List TaskMapping}

/-! ## One answer -/

theorem next?_eq_none_iff :
    walk.next? generators = none ↔ walk.found.toList.length ≤ walk.visited := by
  rw [next?, Option.map_eq_none_iff, Array.getElem?_eq_none_iff, Array.length_toList]

theorem next?_eq_some_iff :
    walk.next? generators = some (current, rest) ↔
      walk.found[walk.visited]? = some current ∧ walk.visit generators current = rest := by
  rw [next?, Option.map_eq_some_iff]
  constructor
  · rintro ⟨_, hcurrent, heq⟩
    obtain ⟨rfl, rfl⟩ := Prod.mk.inj heq
    exact ⟨hcurrent, rfl⟩
  · rintro ⟨hcurrent, rfl⟩
    exact ⟨current, hcurrent, rfl⟩

/-- The answer is the first image that was found and not visited. -/
theorem next?_spec (h : walk.next? generators = some (current, rest)) :
    rest.visited = walk.visited + 1 ∧ walk.found.toList <+: rest.found.toList ∧
      walk.found.toList[walk.visited]? = some current := by
  obtain ⟨hcurrent, rfl⟩ := next?_eq_some_iff.mp h
  obtain ⟨hvisited, hlonger⟩ := walk.visit_keeps generators current
  exact ⟨hvisited, hlonger, Array.getElem?_toList.trans hcurrent⟩

theorem Explored.next? (h : walk.Explored generators mapping)
    (hnext : walk.next? generators = some (current, rest)) :
    rest.Explored generators mapping := by
  obtain ⟨hcurrent, rfl⟩ := next?_eq_some_iff.mp hnext
  exact h.visit hcurrent

/-! ## The run of a walk that does not stop early -/

theorem run_of_next?_eq_none (h : walk.next? generators = none) (bound : Nat) :
    walk.run generators (fun _ => false) bound = walk := by
  have hcurrent : walk.found[walk.visited]? = none := Option.map_eq_none_iff.mp h
  cases bound with
  | zero => rfl
  | succ bound => simp only [OrbitWalk.run, hcurrent]

theorem run_of_next?_eq_some (h : walk.next? generators = some (current, rest)) (bound : Nat) :
    walk.run generators (fun _ => false) (bound + 1) =
      rest.run generators (fun _ => false) bound := by
  obtain ⟨hcurrent, rfl⟩ := next?_eq_some_iff.mp h
  simp only [OrbitWalk.run, hcurrent]
  rfl

theorem prefix_run (generators : List (Perm n)) (bound : Nat) (walk : OrbitWalk) :
    walk.found.toList <+: (walk.run generators (fun _ => false) bound).found.toList := by
  induction bound generalizing walk with
  | zero => exact List.prefix_refl _
  | succ bound ih =>
      cases hnext : walk.next? generators with
      | none => rw [run_of_next?_eq_none hnext]
      | some answer =>
          rw [run_of_next?_eq_some hnext]
          exact (next?_spec hnext).2.1.trans (ih answer.2)

/-! ## All answers -/

/-- The answers of a walk until it has none. -/
inductive Yields (generators : List (Perm n)) : OrbitWalk → List TaskMapping → Prop
  | done {walk : OrbitWalk} (answer : walk.next? generators = none) : Yields generators walk []
  | next {walk rest : OrbitWalk} {image : TaskMapping} {images : List TaskMapping}
      (answer : walk.next? generators = some (image, rest))
      (others : Yields generators rest images) : Yields generators walk (image :: images)

/-- A list goes on in every longer one. -/
theorem prefix_take_drop {α : Type} {xs ys : List α} {i : Nat} {x : α} (h : xs <+: ys)
    (hx : xs[i]? = some x) :
    ys.take (i + 1) = xs.take i ++ [x] ∧ ys.drop i = x :: ys.drop (i + 1) := by
  obtain ⟨hlt, rfl⟩ := List.getElem?_eq_some_iff.mp hx
  obtain ⟨more, rfl⟩ := h
  constructor
  · rw [List.take_append_of_le_length hlt, List.take_succ_eq_append_getElem hlt]
  · rw [List.drop_eq_getElem_cons (by simp; omega), List.getElem_append_left hlt]

/-- A walk that goes on to its end answers what it finds, except for what it has
visited before. -/
theorem Explored.yields_run (h : walk.Explored generators mapping)
    (hmapping : ∀ x ∈ mapping, x < n) {bound : Nat}
    (hbound : mappingCount n mapping.length ≤ walk.visited + bound) :
    walk.Yields generators
      ((walk.run generators (fun _ => false) bound).found.toList.drop walk.visited) := by
  induction bound generalizing walk with
  | zero =>
      have hcount : walk.found.toList.length ≤ walk.visited :=
        (length_le_mappingCount h.nodup hmapping h.images).trans hbound
      rw [OrbitWalk.run, List.drop_eq_nil_of_le hcount]
      exact .done (next?_eq_none_iff.mpr hcount)
  | succ bound ih =>
      cases hnext : walk.next? generators with
      | none =>
          rw [run_of_next?_eq_none hnext, List.drop_eq_nil_of_le (next?_eq_none_iff.mp hnext)]
          exact .done hnext
      | some answer =>
          obtain ⟨current, rest⟩ := answer
          obtain ⟨hvisited, hlonger, hcurrent⟩ := next?_spec hnext
          have hothers := ih (h.next? hnext) (by omega)
          rw [run_of_next?_eq_some hnext,
            (prefix_take_drop (hlonger.trans (prefix_run generators bound rest)) hcurrent).2,
            ← hvisited]
          exact .next hnext hothers

/-- After `count` visits a walk has found the first `count` of its answers. -/
theorem Yields.take_found_run (h : walk.Yields generators images) (count : Nat) :
    (walk.run generators (fun _ => false) count).found.toList.take (walk.visited + count) =
      walk.found.toList.take walk.visited ++ images.take count := by
  induction h generalizing count with
  | done answer =>
      have hcount := next?_eq_none_iff.mp answer
      rw [run_of_next?_eq_none answer, List.take_of_length_le (by omega),
        List.take_of_length_le hcount, List.take_nil, List.append_nil]
  | next answer _ ih =>
      cases count with
      | zero => simp [OrbitWalk.run]
      | succ count =>
          obtain ⟨hvisited, hlonger, hcurrent⟩ := next?_spec answer
          have hrest := ih count
          rw [hvisited, (prefix_take_drop hlonger hcurrent).1] at hrest
          rw [run_of_next?_eq_some answer, Nat.add_comm count 1, ← Nat.add_assoc, hrest,
            Nat.add_comm 1 count, List.take_succ_cons, List.append_assoc, List.singleton_append]

end OrbitWalk

namespace PermGroup

open OrbitWalk

variable {G : PermGroup} {image : TaskMapping}

/-- The images that a walk from the mapping finds if it goes on to its end. -/
def imagesFound (G : PermGroup) (mapping : TaskMapping) : List TaskMapping :=
  ((start mapping).run G.generators (fun _ => false)
    (mappingCount G.degree mapping.length)).found.toList

theorem nodup_imagesFound (G : PermGroup) (mapping : TaskMapping) :
    (G.imagesFound mapping).Nodup :=
  ((explored_start G.generators mapping).run _ _).nodup

theorem head?_imagesFound (G : PermGroup) (mapping : TaskMapping) :
    (G.imagesFound mapping).head? = some mapping := by
  obtain ⟨others, hothers⟩ := prefix_run G.generators
    (mappingCount G.degree mapping.length) (start mapping)
  rw [imagesFound, ← hothers]
  rfl

theorem mem_imagesFound_iff (h : ∀ x ∈ mapping, x < G.degree) :
    image ∈ G.imagesFound mapping ↔ image ∈ imagesUnder G.members mapping := by
  have hstart := explored_start G.generators mapping
  apply (hstart.run _ _).mem_found_iff
  rcases hstart.run_ends h (fun _ => false) (Nat.le_add_left _ _) with hdone | ⟨_, -, hstop⟩
  · exact hdone
  · cases hstop

theorem yields_imagesFound (h : ∀ x ∈ mapping, x < G.degree) :
    (start mapping).Yields G.generators (G.imagesFound mapping) :=
  (explored_start G.generators mapping).yields_run h (Nat.le_add_left _ _)

theorem firstImages_eq (h : ∀ x ∈ mapping, x < G.degree) (count : Nat) :
    G.firstImages mapping count = .ok ((G.imagesFound mapping).take count) := by
  have htake := (yields_imagesFound h).take_found_run count
  rw [show (start mapping).visited = 0 from rfl, Nat.zero_add, List.take_zero,
    List.nil_append] at htake
  rw [firstImages, checkPoints_eq_ok_iff.mpr h, ← htake]
  rfl

theorem orbit_eq (h : ∀ x ∈ mapping, x < G.degree) :
    G.orbit mapping = .ok (G.imagesFound mapping) := by
  have hcount : (G.imagesFound mapping).length ≤ mappingCount G.degree mapping.length :=
    length_le_mappingCount (G.nodup_imagesFound mapping) h fun _ => (mem_imagesFound_iff h).mp
  rw [orbit, firstImages_eq h, List.take_of_length_le hcount]

/-- The images of a mapping are enumerated from the mapping itself on, each of them
once, and then the enumeration has come to its end.  They are the images under the
elements of the group, and also those under mere products of the given generators. -/
theorem orbit_enumerated (G : PermGroup) {mapping : TaskMapping}
    (h : ∀ x ∈ mapping, x < G.degree) :
    ∃ images, (start mapping).Yields G.generators images ∧ G.orbit mapping = .ok images ∧
      (∀ count, G.firstImages mapping count = .ok (images.take count)) ∧
      images.head? = some mapping ∧ images.Nodup ∧
      (∀ image, image ∈ images ↔
        ∃ p : Perm G.degree, G.contains p = true ∧ p.permute mapping = image) ∧
      ∀ image, image ∈ images ↔
        ∃ p, IsProductOf G.generators p ∧ p.permute mapping = image := by
  refine ⟨G.imagesFound mapping, yields_imagesFound h, orbit_eq h, firstImages_eq h,
    G.head?_imagesFound mapping, G.nodup_imagesFound mapping, fun image => ?_, fun image => ?_⟩
  · rw [mem_imagesFound_iff h]
    exact exists_congr fun p => and_congr_left fun _ => G.contains_iff_mem.symm
  · rw [mem_imagesFound_iff h]
    exact exists_congr fun p => and_congr_left fun _ => mem_generated_iff

/-- A rotation of four points, given twice and beside the identity, moves two tasks
on opposite points and a third one with the first. -/
theorem orbit_enumerated_rotation :
    let G := generatedBy [1, rotation 4 0, rotation 4 0]
    let images := [[2, 0, 2], [3, 1, 3], [0, 2, 0], [1, 3, 1]]
    (∀ x ∈ [2, 0, 2], x < G.degree) ∧ (start [2, 0, 2]).Yields G.generators images ∧
      G.orbit [2, 0, 2] = .ok images ∧ images.Nodup ∧
      ∀ image, image ∈ images ↔
        ∃ p : Perm G.degree, G.contains p = true ∧ p.permute [2, 0, 2] = image := by
  intro G images
  have h : ∀ x ∈ [2, 0, 2], x < G.degree := by decide
  obtain ⟨found, hyields, horbit, -, -, hnodup, hmem, -⟩ := orbit_enumerated G h
  have himages : G.orbit [2, 0, 2] = .ok images := by decide +kernel
  obtain rfl : found = images := Except.ok.inj (horbit.symm.trans himages)
  exact ⟨h, hyields, himages, hnodup, hmem⟩

end PermGroup
end ProcessorSymmetry

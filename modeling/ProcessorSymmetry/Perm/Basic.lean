import ProcessorSymmetry.Error

/-!
# Permutations of a finite domain

A permutation of degree `n` rearranges the points `0, ..., n - 1` and fixes every other number.
Products are read from left to right: `(p * q) x = q (p x)`.
-/

namespace ProcessorSymmetry

/-- A permutation of `0..n`, stored with its inverse. -/
structure Perm (n : Nat) where
  images : Vector (Fin n) n
  preimages : Vector (Fin n) n
  preimage_image : ∀ i : Fin n, preimages[images[i]] = i
  image_preimage : ∀ i : Fin n, images[preimages[i]] = i

namespace Perm

variable {n : Nat}

/-- The image of a point. Points outside of the domain stay where they are. -/
def app (p : Perm n) (x : Nat) : Nat :=
  if h : x < n then p.images[x] else x

instance : CoeFun (Perm n) fun _ => Nat → Nat := ⟨app⟩

theorem app_of_lt (p : Perm n) {x : Nat} (h : x < n) : p x = p.images[x] := by
  simp [app, h]

theorem app_of_le (p : Perm n) {x : Nat} (h : n ≤ x) : p x = x := by
  simp [app, Nat.not_lt.mpr h]

theorem app_lt_iff (p : Perm n) {x : Nat} : p x < n ↔ x < n := by
  by_cases h : x < n
  · simp [app, h]
  · simp [app, h]

theorem app_lt (p : Perm n) {x : Nat} (h : x < n) : p x < n :=
  p.app_lt_iff.mpr h

/-- The permutation that undoes `p`. -/
def inverse (p : Perm n) : Perm n where
  images := p.preimages
  preimages := p.images
  preimage_image := p.image_preimage
  image_preimage := p.preimage_image

instance : Inv (Perm n) := ⟨inverse⟩

@[simp] theorem inv_app_app (p : Perm n) (x : Nat) : p⁻¹ (p x) = x := by
  by_cases h : x < n
  · have key := congrArg Fin.val (p.preimage_image ⟨x, h⟩)
    rw [app_of_lt p h, app_of_lt p⁻¹ (p.images[x]).isLt]
    exact key
  · rw [app_of_le p (Nat.not_lt.mp h), app_of_le p⁻¹ (Nat.not_lt.mp h)]

@[simp] theorem inv_inv (p : Perm n) : p⁻¹⁻¹ = p := rfl

@[simp] theorem app_inv_app (p : Perm n) (x : Nat) : p (p⁻¹ x) = x :=
  inv_app_app p⁻¹ x

theorem app_injective (p : Perm n) {x y : Nat} (h : p x = p y) : x = y := by
  rw [← inv_app_app p x, h, inv_app_app]

/-- Permutations that move every point alike are equal. -/
@[ext] theorem ext {p q : Perm n} (h : ∀ x, x < n → p x = q x) : p = q := by
  have himages : p.images = q.images := by
    apply Vector.ext
    intro x hx
    apply Fin.ext
    have key := h x hx
    rwa [app_of_lt p hx, app_of_lt q hx] at key
  have happ : ∀ x, p x = q x := by
    intro x
    by_cases hx : x < n
    · exact h x hx
    · rw [app_of_le p (Nat.not_lt.mp hx), app_of_le q (Nat.not_lt.mp hx)]
  have hpreimages : p.preimages = q.preimages := by
    apply Vector.ext
    intro x hx
    apply Fin.ext
    have key : p⁻¹ x = q⁻¹ x := by
      apply p.app_injective
      rw [app_inv_app, happ, app_inv_app]
    rwa [app_of_lt p⁻¹ hx, app_of_lt q⁻¹ hx] at key
  cases p
  cases q
  simp_all

instance : DecidableEq (Perm n) := fun p q =>
  decidable_of_iff (p.images = q.images) ⟨fun h => by
    apply ext
    intro x hx
    rw [app_of_lt p hx, app_of_lt q hx, h], congrArg images⟩

/-- The permutation that acts on the domain as `f`, given a map `g` that undoes `f` there. -/
def ofFn (f g : Nat → Nat) (hf : ∀ x, x < n → f x < n) (hg : ∀ x, x < n → g x < n)
    (hgf : ∀ x, x < n → g (f x) = x) (hfg : ∀ x, x < n → f (g x) = x) : Perm n where
  images := Vector.ofFn fun i => ⟨f i, hf i i.isLt⟩
  preimages := Vector.ofFn fun i => ⟨g i, hg i i.isLt⟩
  preimage_image := by
    intro i
    apply Fin.ext
    simpa using hgf i i.isLt
  image_preimage := by
    intro i
    apply Fin.ext
    simpa using hfg i i.isLt

theorem ofFn_app {f g : Nat → Nat} {hf : ∀ x, x < n → f x < n} {hg : ∀ x, x < n → g x < n}
    {hgf : ∀ x, x < n → g (f x) = x} {hfg : ∀ x, x < n → f (g x) = x} {x : Nat} (h : x < n) :
    ofFn f g hf hg hgf hfg x = f x := by
  rw [app_of_lt _ h]
  simp [ofFn]

/-- The identity. -/
def identity (n : Nat) : Perm n :=
  ofFn id id (fun _ h => h) (fun _ h => h) (fun _ _ => rfl) (fun _ _ => rfl)

instance : One (Perm n) := ⟨identity n⟩

@[simp] theorem one_app (x : Nat) : (1 : Perm n) x = x := by
  by_cases h : x < n
  · change identity n x = x
    rw [identity, ofFn_app h]
    rfl
  · exact app_of_le _ (Nat.not_lt.mp h)

/-- First `p`, then `q`. -/
def mul (p q : Perm n) : Perm n where
  images := p.images.map (q.images[·])
  preimages := q.preimages.map (p.preimages[·])
  preimage_image := by
    intro i
    have hq := q.preimage_image p.images[i]
    have hp := p.preimage_image i
    simp_all
  image_preimage := by
    intro i
    have hp := p.image_preimage q.preimages[i]
    have hq := q.image_preimage i
    simp_all

instance : Mul (Perm n) := ⟨mul⟩

theorem images_mul (p q : Perm n) : (p * q).images = p.images.map (q.images[·]) := rfl

@[simp] theorem mul_app (p q : Perm n) (x : Nat) : (p * q) x = q (p x) := by
  by_cases h : x < n
  · rw [app_of_lt p h, app_of_lt q (p.images[x]).isLt, app_of_lt _ h]
    simp [images_mul]
  · have hx := Nat.not_lt.mp h
    rw [app_of_le _ hx, app_of_le p hx, app_of_le q hx]

/-- Decides whether every point stays where it is. -/
def isIdentity (p : Perm n) : Bool :=
  (List.range n).all fun x => p x == x

theorem isIdentity_iff {p : Perm n} : p.isIdentity = true ↔ p = 1 := by
  constructor
  · intro h
    apply ext
    intro x hx
    rw [one_app]
    simpa using List.all_eq_true.mp h x (List.mem_range.mpr hx)
  · rintro rfl
    simp [isIdentity]

/-- The exchange of two points of the domain; the identity if one of them lies outside. -/
def swap (n i j : Nat) : Perm n :=
  let f : Nat → Nat := fun x =>
    if i < n ∧ j < n then if x = i then j else if x = j then i else x else x
  have hf : ∀ x, x < n → f x < n := by
    intro x hx
    simp only [f]
    split <;> (repeat' split) <;> omega
  have hff : ∀ x, x < n → f (f x) = x := by
    intro x _
    simp only [f]
    (repeat' split) <;> omega
  ofFn f f hf hf hff hff

theorem swap_app {i j x : Nat} (hi : i < n) (hj : j < n) :
    swap n i j x = if x = i then j else if x = j then i else x := by
  by_cases h : x < n
  · rw [swap, ofFn_app h]
    simp [hi, hj]
  · rw [app_of_le _ (Nat.not_lt.mp h)]
    split <;> (repeat' split) <;> omega

/-- The exchange of two points, refused if one of them lies outside of the domain. -/
def swap? (n i j : Nat) : Option (Perm n) :=
  if i < n ∧ j < n then some (swap n i j) else none

/-- The images of all points, in order. -/
def toList (p : Perm n) : List Nat :=
  (List.range n).map p

/-- The image of a point, refused outside of the domain. -/
def apply (p : Perm n) (x : Nat) : Except Error Nat :=
  if x < n then .ok (p x) else .error (.outOfDomain x n)

/-- The points that do not stay where they are, in increasing order. -/
def movedPoints (p : Perm n) : List Nat :=
  (List.range n).filter fun x => p x ≠ x

/-- The lowest point that does not stay where it is. -/
def firstMoved? (p : Perm n) : Option Nat :=
  (List.range n).find? fun x => p x ≠ x

end Perm

/-- A permutation together with its degree. -/
abbrev AnyPerm := (n : Nat) × Perm n

end ProcessorSymmetry

import Mathlib.Logic.Basic
import ProcessorSymmetry.Error

/-!
# Checks in a row

A sequence of steps that may be refused is accepted exactly if each step is, and
a list if each of its entries is.
-/

namespace ProcessorSymmetry

theorem bind_eq_ok_iff {α β ε : Type} {x : Except ε α} {f : α → Except ε β} {b : β} :
    x >>= f = .ok b ↔ ∃ a, x = .ok a ∧ f a = .ok b := by
  cases x with
  | error cause =>
      constructor
      · intro h
        cases h
      · rintro ⟨a, h, -⟩
        cases h
  | ok a =>
      constructor
      · intro h
        exact ⟨a, rfl, h⟩
      · rintro ⟨_, ⟨⟩, h⟩
        exact h

theorem mapError_eq_ok_iff {α ε ε' : Type} {f : ε → ε'} {x : Except ε α} {a : α} :
    x.mapError f = .ok a ↔ x = .ok a := by
  cases x with
  | error cause =>
      constructor
      · intro h
        cases h
      · intro h
        cases h
  | ok b =>
      constructor
      · intro h
        exact congrArg Except.ok (Except.ok.inj h)
      · intro h
        exact congrArg Except.ok (Except.ok.inj h)

theorem map_eq_error_iff {α β ε : Type} {f : α → β} {x : Except ε α} {cause : ε} :
    x.map f = .error cause ↔ x = .error cause := by
  cases x with
  | error other => rw [Except.map, Except.error.injEq, Except.error.injEq]
  | ok a =>
      constructor
      · intro h
        cases h
      · intro h
        cases h

theorem ok_of_toOption {α ε : Type} {x : Except ε α} {a : α} (h : x.toOption = some a) :
    x = .ok a := by
  cases x with
  | error cause => cases h
  | ok b => rw [Option.some.inj h]

theorem mapM_eq_ok {α β ε : Type} {f : α → Except ε β} {entries : List α} {out : List β}
    (h : entries.mapM f = .ok out) : ∀ a ∈ entries, ∃ b ∈ out, f a = .ok b := by
  induction entries generalizing out with
  | nil => simp
  | cons a rest ih =>
      rw [List.mapM_cons] at h
      obtain ⟨b, hb, h⟩ := bind_eq_ok_iff.mp h
      obtain ⟨others, hothers, h⟩ := bind_eq_ok_iff.mp h
      obtain rfl := Except.ok.inj h
      refine List.forall_mem_cons.mpr ⟨⟨b, List.mem_cons_self, hb⟩, fun c hc => ?_⟩
      obtain ⟨d, hd, hcd⟩ := ih hothers c hc
      exact ⟨d, List.mem_cons_of_mem b hd, hcd⟩

/-- If no entry is refused, then mapping them one after the other is mapping the list. -/
theorem mapM_eq_pure_map {m : Type → Type} [Monad m] [LawfulMonad m] {α β : Type} {f : α → m β}
    {g : α → β} {entries : List α} (h : ∀ a ∈ entries, f a = pure (g a)) :
    entries.mapM f = pure (entries.map g) := by
  induction entries with
  | nil => rfl
  | cons a rest ih =>
      obtain ⟨hfirst, hrest⟩ := List.forall_mem_cons.mp h
      rw [List.mapM_cons, hfirst, ih hrest, pure_bind, pure_bind, List.map_cons]

theorem mapM_map_eq_ok {α β ε : Type} {f : α → Except ε β} {g : β → α}
    {entries : List β} (h : ∀ b ∈ entries, f (g b) = .ok b) :
    (entries.map g).mapM f = .ok entries := by
  rw [List.mapM_map]
  exact (mapM_eq_pure_map h).trans (congrArg Except.ok (List.map_id entries))

/-- Entries that are mapped one after the other fail at the first one that is refused. -/
theorem mapM_ite_eq {α β ε : Type} {accepted : α → Prop} [DecidablePred accepted] (f : α → β)
    (cause : α → ε) (entries : List α) :
    (entries.mapM fun a => if accepted a then Except.ok (f a) else .error (cause a)) =
      match entries.find? fun a => ¬accepted a with
      | none => .ok (entries.map f)
      | some a => .error (cause a) := by
  induction entries with
  | nil => rfl
  | cons a rest ih =>
      rw [List.mapM_cons, ih]
      by_cases ha : accepted a
      · rw [if_pos ha, List.find?_cons_of_neg (by simpa using ha)]
        cases rest.find? fun a => ¬accepted a with
        | none => rfl
        | some b => rfl
      · rw [if_neg ha, List.find?_cons_of_pos (by simpa using ha)]
        rfl

theorem forM_eq_ok_iff {α ε : Type} {check : α → Except ε Unit} {entries : List α} :
    entries.forM check = .ok () ↔ ∀ a ∈ entries, check a = .ok () := by
  induction entries with
  | nil => simp [pure, Except.pure]
  | cons a rest ih =>
      rw [List.forM_eq_forM] at ih
      rw [List.forM_eq_forM, List.forM_cons, List.forall_mem_cons, ← ih]
      cases hcheck : check a with
      | error cause =>
          constructor
          · intro h
            cases h
          · rintro ⟨h, -⟩
            cases h
      | ok _ => exact (and_iff_right rfl).symm

theorem checkPoints_eq_ok_iff {degree : Nat} {points : List Nat} :
    checkPoints degree points = .ok () ↔ ∀ x ∈ points, x < degree := by
  rw [checkPoints, forM_eq_ok_iff]
  refine forall₂_congr fun x _ => ?_
  rw [checkPoint]
  split
  · rename_i hx
    simp [hx]
  · rename_i hx
    simp [hx]

/-- A list is refused for the reason of the first entry that is refused. -/
theorem forM_eq_error {α ε : Type} {check : α → Except ε Unit} {refused : α → Bool}
    {entries : List α} {a : α} {cause : ε}
    (haccepted : ∀ b, refused b = false → check b = .ok ())
    (hfirst : entries.find? refused = some a) (ha : check a = .error cause) :
    entries.forM check = .error cause := by
  induction entries with
  | nil => cases hfirst
  | cons b rest ih =>
      rw [List.forM_eq_forM] at ih ⊢
      rw [List.forM_cons]
      cases hb : refused b with
      | false =>
          rw [List.find?_cons_of_neg (by simp [hb])] at hfirst
          rw [haccepted b hb]
          exact ih hfirst
      | true =>
          rw [List.find?_cons_of_pos hb] at hfirst
          rw [Option.some.inj hfirst, ha]
          rfl

/-- Of the points outside of the domain the first one is reported. -/
theorem checkPoints_eq_error {degree x : Nat} {points : List Nat}
    (h : points.find? (degree ≤ ·) = some x) :
    checkPoints degree points = .error (.outOfDomain x degree) := by
  refine forM_eq_error (fun y hy => if_pos ?_) h (if_neg ?_)
  · simpa using hy
  · simpa using List.find?_some h

end ProcessorSymmetry

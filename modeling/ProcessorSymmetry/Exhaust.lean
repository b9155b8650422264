/-!
# Steps until nothing is left to do

A step on states either offers the next state or has nothing to offer. Taking steps is bounded by a
number that a decreasing measure of the states justifies.
-/

namespace ProcessorSymmetry

variable {σ : Type}

/-- Takes steps until there is none left, at most `bound` of them. -/
def exhaust (step : σ → Option σ) : Nat → σ → σ
  | 0, state => state
  | bound + 1, state =>
    match step state with
    | none => state
    | some next => exhaust step bound next

/-- What holds at first and survives every step holds at the end. -/
theorem exhaust_induction {step : σ → Option σ} {P : σ → Prop}
    (hstep : ∀ s t, P s → step s = some t → P t) (bound : Nat) {state : σ} (hstart : P state) :
    P (exhaust step bound state) := by
  induction bound generalizing state with
  | zero => exact hstart
  | succ bound ih =>
    rw [exhaust]
    split
    · exact hstart
    · rename_i next hnext
      exact ih (hstep state next hstart hnext)

/-- A bound that covers a decreasing measure is never reached: no step is left at the end. -/
theorem step_exhaust {step : σ → Option σ} {P : σ → Prop} {μ : σ → Nat}
    (hstep : ∀ s t, P s → step s = some t → P t ∧ μ t < μ s) {bound : Nat} {state : σ}
    (hstart : P state) (hbound : μ state ≤ bound) :
    step (exhaust step bound state) = none := by
  induction bound generalizing state with
  | zero =>
    rw [exhaust]
    cases hnext : step state with
    | none => rfl
    | some next =>
      have := (hstep state next hstart hnext).2
      omega
  | succ bound ih =>
    rw [exhaust]
    split
    · assumption
    · rename_i next hnext
      obtain ⟨hnextStart, hlt⟩ := hstep state next hstart hnext
      exact ih hnextStart (by omega)

/-- Once no step is left, a larger bound changes nothing. -/
theorem exhaust_eq_of_le {step : σ → Option σ} {bound more : Nat} {state : σ}
    (hdone : step (exhaust step bound state) = none) (hle : bound ≤ more) :
    exhaust step more state = exhaust step bound state := by
  induction bound generalizing state more with
  | zero =>
    rw [exhaust] at hdone ⊢
    cases more with
    | zero => rfl
    | succ more => rw [exhaust, hdone]
  | succ bound ih =>
    cases more with
    | zero => simp at hle
    | succ more =>
      rw [exhaust] at hdone ⊢
      rw [exhaust]
      split
      · rfl
      · rename_i next hnext
        rw [hnext] at hdone
        exact ih hdone (Nat.le_of_succ_le_succ hle)

end ProcessorSymmetry

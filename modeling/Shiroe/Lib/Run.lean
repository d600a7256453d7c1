import Mathlib.Data.List.Basic

/-!
# Runs of a deterministic machine

A machine takes inputs one after the other.  `Run.Throughout step ok s l` says that every input
of `l` meets `ok` at the state in which it is taken.

* `Run.Throughout.mono` : an invariant that the steps meeting one condition keep gives another
  condition throughout the run;
* `Run.stateAt` : the states of a run by their number, for what relates several of them.
-/

namespace Shiroe

namespace Run

variable {σ ι : Type*} (step : σ → ι → σ)

/-- Every input meets `ok` at the state in which it is taken. -/
def Throughout (ok : σ → ι → Prop) : σ → List ι → Prop
  | _, [] => True
  | s, i :: l => ok s i ∧ Throughout ok (step s i) l

variable {step}

/-- The state after a run is where the invariant leads. -/
theorem Throughout.foldl {ok : σ → ι → Prop} {I : σ → Prop}
    (hstep : ∀ s i, I s → ok s i → I (step s i)) {s : σ} {l : List ι} (hI : I s)
    (h : Throughout step ok s l) : I (l.foldl step s) := by
  induction l generalizing s with
  | nil => exact hI
  | cons i l ih => exact ih (hstep s i hI h.1) h.2

/-- A condition that holds at each input of a run under an invariant that the run keeps. -/
theorem Throughout.mono {ok ok' : σ → ι → Prop} {I : σ → Prop}
    (hstep : ∀ s i, I s → ok s i → I (step s i) ∧ ok' s i) {s : σ} {l : List ι} (hI : I s)
    (h : Throughout step ok s l) : Throughout step ok' s l := by
  induction l generalizing s with
  | nil => trivial
  | cons i l ih => exact ⟨(hstep s i hI h.1).2, ih (hstep s i hI h.1).1 h.2⟩

/-! ### The states of a run -/

variable (step) in
/-- The state after the first `k` inputs. -/
def stateAt (s : σ) (l : List ι) (k : ℕ) : σ := (l.take k).foldl step s

variable {s : σ} {l : List ι} {k : ℕ}

@[simp] theorem stateAt_zero : stateAt step s l 0 = s := rfl

theorem stateAt_succ (h : k < l.length) :
    stateAt step s l (k + 1) = step (stateAt step s l k) l[k] := by
  rw [stateAt, List.take_succ_eq_append_getElem h, List.foldl_append]
  rfl

/-- After its last input a run stands still. -/
theorem stateAt_of_length_le (h : l.length ≤ k) :
    stateAt step s l (k + 1) = stateAt step s l k := by
  rw [stateAt, stateAt, List.take_of_length_le h, List.take_of_length_le (by omega)]

theorem Throughout.at {ok : σ → ι → Prop} (h : Throughout step ok s l) (hk : k < l.length) :
    ok (stateAt step s l k) l[k] := by
  induction l generalizing s k with
  | nil => cases hk
  | cons i l ih =>
    cases k with
    | zero => exact h.1
    | succ k => exact ih h.2 (by simpa using hk)

/-- What each input does from one state to the next. -/
theorem Throughout.stateAt {ok : σ → ι → Prop} {R : σ → σ → Prop} (hrefl : ∀ s, R s s)
    (hstep : ∀ s i, ok s i → R s (step s i)) (h : Throughout step ok s l) (k : ℕ) :
    R (Run.stateAt step s l k) (Run.stateAt step s l (k + 1)) := by
  by_cases hk : k < l.length
  · rw [stateAt_succ hk]
    exact hstep _ _ (h.at hk)
  · rw [stateAt_of_length_le (by omega)]
    exact hrefl _

/-- What each input does adds up from one state to a later one. -/
theorem Throughout.stateAt_le {ok : σ → ι → Prop} {R : σ → σ → Prop} (hrefl : ∀ s, R s s)
    (htrans : ∀ s₁ s₂ s₃, R s₁ s₂ → R s₂ s₃ → R s₁ s₃) (hstep : ∀ s i, ok s i → R s (step s i))
    (h : Throughout step ok s l) {k' : ℕ} (hk : k ≤ k') :
    R (Run.stateAt step s l k) (Run.stateAt step s l k') := by
  induction hk with
  | refl => exact hrefl _
  | @step n _ ih => exact htrans _ _ _ ih (h.stateAt hrefl hstep n)

end Run

end Shiroe

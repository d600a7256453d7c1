import Shiroe.Storage.Schema

/-!
# The lifecycle of a capability

`capabilities/lifecycle.py`: the states, the transitions between them, and the state after the
source has changed.  A stored state is a text, so every test first reads the text as a state.

* `not_canTransition_revoked` : nothing leads out of `revoked`;
* `cleared_of_mem_transitions` : only `approved` is entered from outside the cleared states.
-/

namespace Shiroe

/-- `LIFECYCLE_STATES`. -/
inductive Lifecycle where
  | discovered | quarantined | inspected | approved | benchmarked | active | stale | revoked
  | compromised
  deriving DecidableEq, Repr

namespace Lifecycle

/-- The text of a state. -/
def value : Lifecycle → String
  | discovered => "discovered"
  | quarantined => "quarantined"
  | inspected => "inspected"
  | approved => "approved"
  | benchmarked => "benchmarked"
  | active => "active"
  | stale => "stale"
  | revoked => "revoked"
  | compromised => "compromised"

/-- All states. -/
def all : List Lifecycle :=
  [discovered, quarantined, inspected, approved, benchmarked, active, stale, revoked, compromised]

/-- The state that a text names. -/
def ofText? (s : String) : Option Lifecycle := all.find? (·.value = s)

/-- The state that a column holds. -/
def ofColumn? (v : SqlVal) : Option Lifecycle := v.text?.bind ofText?

/-- `_TRANSITIONS`. -/
def transitions : Lifecycle → List Lifecycle
  | discovered => [quarantined]
  | quarantined => [inspected, revoked]
  | inspected => [approved, revoked, quarantined]
  | approved => [benchmarked, active, stale, revoked, compromised, quarantined]
  | benchmarked => [active, stale, revoked, compromised, quarantined]
  | active => [stale, revoked, compromised, quarantined]
  | stale => [active, revoked, quarantined]
  | revoked => []
  | compromised => [revoked, quarantined]

/-- `EXECUTABLE_STATES`. -/
def executableStates : List Lifecycle := [approved, benchmarked, active]

/-- `_LIFECYCLE_EVENT_TYPE`. -/
def eventType : Lifecycle → String
  | discovered => "capability.discovered"
  | quarantined => "capability.quarantined"
  | inspected => "capability.inspected"
  | approved => "capability.approved"
  | benchmarked => "capability.benchmarked"
  | active => "capability.activated"
  | stale => "capability.stale"
  | revoked => "capability.revoked"
  | compromised => "capability.compromised"

@[simp] theorem ofText?_value (s : Lifecycle) : ofText? s.value = some s := by
  cases s <;> decide

theorem value_of_ofText? {t : String} {s : Lifecycle} (h : ofText? t = some s) : s.value = t := by
  simpa using List.find?_some h

@[simp] theorem ofColumn?_text (t : String) : ofColumn? (.text t) = ofText? t := rfl

/-- A column that holds a state holds its text. -/
theorem eq_of_ofColumn? {v : SqlVal} {s : Lifecycle} (h : ofColumn? v = some s) :
    v = .text s.value := by
  cases v with
  | text t =>
    rw [ofColumn?_text] at h
    rw [value_of_ofText? h]
  | _ => cases h

theorem value_injective : Function.Injective value := by
  intro s t h
  exact Option.some.inj (by rw [← ofText?_value s, h, ofText?_value])

end Lifecycle

open Lifecycle

/-- `can_transition`. -/
def canTransition (current : SqlVal) (target : Lifecycle) : Bool :=
  (ofColumn? current).any fun s => s.transitions.contains target

/-- `is_executable`. -/
def isExecutable (state : SqlVal) : Bool := (ofColumn? state).any executableStates.contains

/-- `next_state_for_digest_change`. -/
def nextStateForDigestChange (current : SqlVal) : Lifecycle :=
  if ofColumn? current = some revoked then revoked else quarantined

/-- The states that only an approval opens: those that can be executed, and `stale`, which leads
back to `active`. -/
def Lifecycle.Cleared (s : Lifecycle) : Prop := s ∈ [approved, benchmarked, active, stale]

instance (s : Lifecycle) : Decidable s.Cleared := inferInstanceAs (Decidable (_ ∈ _))

theorem canTransition_iff {current : SqlVal} {target : Lifecycle} :
    canTransition current target = true ↔
      ∃ s : Lifecycle, current = .text s.value ∧ target ∈ s.transitions := by
  unfold canTransition
  constructor
  · intro h
    obtain ⟨s, hs, ht⟩ := Option.any_eq_true _ _ |>.1 h
    exact ⟨s, eq_of_ofColumn? hs, by simpa using ht⟩
  · rintro ⟨s, rfl, ht⟩
    simpa using ht

/-- Nothing leads out of `revoked`. -/
theorem not_canTransition_revoked (target : Lifecycle) :
    canTransition (.text revoked.value) target = false := by
  simp [canTransition, transitions]

/-- **Only `approved` is entered from outside the cleared states.** -/
theorem cleared_of_mem_transitions {s target : Lifecycle} (ht : target ∈ s.transitions)
    (hc : target.Cleared) : target = approved ∨ s.Cleared := by
  revert ht hc
  cases s <;> cases target <;> decide

theorem cleared_of_isExecutable {v : SqlVal} (h : isExecutable v = true) :
    ∃ s : Lifecycle, v = .text s.value ∧ s.Cleared := by
  obtain ⟨s, hs, he⟩ := Option.any_eq_true _ _ |>.1 h
  refine ⟨s, eq_of_ofColumn? hs, ?_⟩
  cases s <;> first | decide | exact absurd he (by decide)

end Shiroe

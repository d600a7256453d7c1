import Mathlib.Logic.Function.Basic
import Shiroe.Lib.Run

/-!
# Processes that take turns

A program issues statements one after the other and goes on by their answers.  Each statement is
executed at once on a state that the processes share; between two statements of one process the
others may execute any number of theirs, and a process may die.

* `Prog.All` : every statement that a program may issue has a property; `Prog.All.bind`;
* `Pool.step_shared` : a turn changes the shared state by the statement that it executes;
* `Pool.stmt_all` : in a run of a pool only such statements are executed.
-/

namespace Shiroe

/-- A program over statements `μ` with answers in `ρ`: it returns an `α`, raises an `ε`, or issues a
statement and goes on by its answer. -/
inductive Prog (μ : Type) (ρ : μ → Type) (ε α : Type) where
  | ret (a : α)
  | raise (e : ε)
  | stmt (m : μ) (next : ρ m → Prog μ ρ ε α)

namespace Prog

variable {μ : Type} {ρ : μ → Type} {ε α β : Type}

/-- One program after the other. -/
def bind : Prog μ ρ ε α → (α → Prog μ ρ ε β) → Prog μ ρ ε β
  | .ret a, f => f a
  | .raise e, _ => .raise e
  | .stmt m next, f => .stmt m fun r => (next r).bind f

instance : Monad (Prog μ ρ ε) where
  pure := .ret
  bind := bind

/-- Issue one statement. -/
def issue (m : μ) : Prog μ ρ ε (ρ m) := .stmt m .ret

/-- The program has returned or raised. -/
def isDone : Prog μ ρ ε α → Bool
  | .stmt _ _ => false
  | _ => true

/-- Every statement that the program may issue has the property. -/
def All (P : μ → Prop) : Prog μ ρ ε α → Prop
  | .ret _ => True
  | .raise _ => True
  | .stmt m next => P m ∧ ∀ r, (next r).All P

variable {P : μ → Prop}

theorem All.pure (a : α) : All P (Pure.pure a : Prog μ ρ ε α) := trivial

theorem All.raise (e : ε) : All P (Prog.raise e : Prog μ ρ ε α) := trivial

theorem All.issue {m : μ} (h : P m) : All P (issue m : Prog μ ρ ε (ρ m)) := ⟨h, fun _ => trivial⟩

theorem All.bind {x : Prog μ ρ ε α} {f : α → Prog μ ρ ε β} (hx : All P x) (hf : ∀ a, All P (f a)) :
    All P (x >>= f) := by
  change All P (Prog.bind x f)
  induction x with
  | ret a => exact hf a
  | raise e => trivial
  | stmt m next ih => exact ⟨hx.1, fun r => ih r (hx.2 r)⟩

theorem All.ite {c : Prop} [Decidable c] {x y : Prog μ ρ ε α} (hx : c → All P x)
    (hy : ¬ c → All P y) : All P (if c then x else y) := by
  split_ifs with h
  · exact hx h
  · exact hy h

end Prog

/-- Processes, by their numbers, and the state that they share. -/
structure Pool (μ : Type) (ρ : μ → Type) (ε α σ : Type) where
  shared : σ
  procs : ℕ → Option (Prog μ ρ ε α) := fun _ => none

/-- What happens next: a process that has nothing to do calls an operation, a process executes its
next statement, or it dies. -/
inductive Turn (κ : Type) where
  | call (i : ℕ) (c : κ)
  | next (i : ℕ)
  | die (i : ℕ)
  deriving DecidableEq

namespace Pool

variable {μ : Type} {ρ : μ → Type} {ε α σ κ : Type} (exec : (m : μ) → σ → ρ m × σ)
  (prog : κ → Prog μ ρ ε α)

/-- One turn. -/
def step (p : Pool μ ρ ε α σ) : Turn κ → Pool μ ρ ε α σ
  | .call i c =>
    if (p.procs i).all Prog.isDone then
      { p with procs := Function.update p.procs i (some (prog c)) }
    else p
  | .next i =>
    match p.procs i with
    | some (.stmt m next) =>
      { shared := (exec m p.shared).2
        procs := Function.update p.procs i (some (next (exec m p.shared).1)) }
    | _ => p
  | .die i => { p with procs := Function.update p.procs i none }

/-- The statement that a turn executes. -/
def stmt? (p : Pool μ ρ ε α σ) : Turn κ → Option μ
  | .next i =>
    match p.procs i with
    | some (.stmt m _) => some m
    | _ => none
  | _ => none

variable {exec prog}

/-- A turn changes the shared state by the statement that it executes. -/
theorem step_shared (p : Pool μ ρ ε α σ) (t : Turn κ) :
    (step exec prog p t).shared = ((p.stmt? t).map fun m => (exec m p.shared).2).getD p.shared := by
  cases t with
  | call i c =>
    rw [step]
    split_ifs <;> rfl
  | die i => rfl
  | next i =>
    rw [step, stmt?]
    split <;> rfl

/-- Every process has only statements with the property in front of it. -/
def Safe (P : μ → Prop) (p : Pool μ ρ ε α σ) : Prop := ∀ i, ∀ q ∈ p.procs i, q.All P

theorem Safe.step {P : μ → Prop} (hprog : ∀ c, (prog c).All P) {p : Pool μ ρ ε α σ} (h : p.Safe P)
    (t : Turn κ) : (step exec prog p t).Safe P := by
  have hput : ∀ (i : ℕ) (q : Option (Prog μ ρ ε α)) (s : σ), (∀ q' ∈ q, q'.All P) →
      Safe P { shared := s, procs := Function.update p.procs i q } := by
    intro i q s hq j q' hq'
    change q' ∈ Function.update p.procs i q j at hq'
    by_cases hj : j = i
    · rw [hj, Function.update_self] at hq'
      exact hq q' hq'
    · rw [Function.update_of_ne hj] at hq'
      exact h j q' hq'
  cases t with
  | call i c =>
    rw [Pool.step]
    split_ifs
    · exact hput i _ _ fun q hq => Option.mem_some_iff.1 hq ▸ hprog c
    · exact h
  | next i =>
    rw [Pool.step]
    split
    · rename_i m next hi
      exact hput i _ _ fun q hq => Option.mem_some_iff.1 hq ▸ (h i _ hi).2 _
    · exact h
  | die i => exact hput i none _ fun q hq => (by cases hq)

theorem Safe.stmt {P : μ → Prop} {p : Pool μ ρ ε α σ} (h : p.Safe P) {t : Turn κ} {m : μ}
    (hm : p.stmt? t = some m) : P m := by
  cases t with
  | call i c => cases hm
  | die i => cases hm
  | next i =>
    rw [stmt?] at hm
    split at hm
    · rename_i m' next hi
      cases hm
      exact (h i _ hi).1
    · cases hm

/-- The pool before a turn of a run is safe. -/
theorem Safe.stateAt {P : μ → Prop} (hprog : ∀ c, (prog c).All P) {p : Pool μ ρ ε α σ}
    (h : p.Safe P) (turns : List (Turn κ)) (k : ℕ) :
    (Run.stateAt (Pool.step exec prog) p turns k).Safe P := by
  induction k with
  | zero => exact h
  | succ k ih =>
    by_cases hk : k < turns.length
    · rw [Run.stateAt_succ hk]
      exact ih.step hprog _
    · rw [Run.stateAt_of_length_le (by omega)]
      exact ih

end Pool

end Shiroe

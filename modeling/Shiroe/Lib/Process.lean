import Mathlib.Data.Nat.Notation
import Shiroe.Lib.Act

/-!
# Processes that share a state

A process takes steps on a state `σ` that it shares with others, and keeps a memory `τ` of its own.
Before each of its steps the others may have changed the shared state, and the process may die
there.  As it goes it leaves a trace: marks, each with the shared state at that moment.

* `Process.keeps_step`, `Process.keeps_note`, `Process.keeps_remember` : what keeps an invariant of
  the shared state, the memory and the trace.
-/

namespace Shiroe

/-- Where a process is: the state it shares, its own memory, the number of its steps so far, and
the marks it has left, each with the shared state at that moment. -/
structure Process (σ τ μ : Type) where
  shared : σ
  own : τ
  steps : ℕ := 0
  trace : List (μ × σ) := []

/-- What happens around a process. -/
structure Others (σ : Type) where
  /-- What the others do before a step, by its number. -/
  moves : ℕ → σ → σ := fun _ s => s
  /-- The process dies before the step. -/
  dies : ℕ → Bool := fun _ => false

namespace Process

variable {ε σ τ μ α : Type}

/-- Let the others move, and die if it is time. -/
def await (O : Others σ) (killed : ε) : Act ε (Process σ τ μ) Unit := fun p =>
  let p' := { p with shared := O.moves p.steps p.shared, steps := p.steps + 1 }
  if O.dies p.steps then .error killed p' else .ok () p'

/-- Run a computation on the shared state. -/
def lift (x : Act ε σ α) : Act ε (Process σ τ μ) α :=
  Act.zoom Process.shared (fun s p => { p with shared := s }) x

/-- A step: the others move, then the computation runs at once. -/
def step (O : Others σ) (killed : ε) (x : Act ε σ α) : Act ε (Process σ τ μ) α := do
  await O killed
  lift x

/-- Leave a mark. -/
def note (m : μ) : Act ε (Process σ τ μ) Unit :=
  modify fun p => { p with trace := p.trace ++ [(m, p.shared)] }

/-- Change the memory. -/
def remember (f : τ → τ) : Act ε (Process σ τ μ) Unit :=
  modify fun p => { p with own := f p.own }

/-- Read off the memory. -/
def recollect (f : τ → α) : Act ε (Process σ τ μ) α := do return f (← get).own

variable {O : Others σ} {killed : ε} {p : Process σ τ μ} {E : ε → Process σ τ μ → Prop}

@[simp] theorem wp_await {Q : Unit → Process σ τ μ → Prop} :
    Act.wp (await O killed) Q E p ↔
      if O.dies p.steps then
        E killed { p with shared := O.moves p.steps p.shared, steps := p.steps + 1 }
      else Q () { p with shared := O.moves p.steps p.shared, steps := p.steps + 1 } := by
  simp only [Act.wp, await]
  cases O.dies p.steps <;> rfl

@[simp] theorem wp_lift {Q : α → Process σ τ μ → Prop} (x : Act ε σ α) :
    Act.wp (lift x) Q E p ↔
      Act.wp x (fun a s => Q a { p with shared := s }) (fun e s => E e { p with shared := s })
        p.shared :=
  Act.wp_zoom _ _ x

@[simp] theorem wp_note {Q : Unit → Process σ τ μ → Prop} (m : μ) :
    Act.wp (note m) Q E p ↔ Q () { p with trace := p.trace ++ [(m, p.shared)] } :=
  Act.wp_modify _

@[simp] theorem wp_remember {Q : Unit → Process σ τ μ → Prop} (f : τ → τ) :
    Act.wp (remember f) Q E p ↔ Q () { p with own := f p.own } :=
  Act.wp_modify _

@[simp] theorem wp_recollect {Q : α → Process σ τ μ → Prop} (f : τ → α) :
    Act.wp (recollect f) Q E p ↔ Q (f p.own) p := by
  rw [recollect, Act.wp_bind, Act.wp_get, Act.wp_pure]

/-! ### Invariants -/

variable {I : σ → τ → List (μ × σ) → Prop}

/-- The invariant of a process: a fact about the shared state, the memory and the trace. -/
def Inv (I : σ → τ → List (μ × σ) → Prop) (p : Process σ τ μ) : Prop := I p.shared p.own p.trace

theorem keeps_await (hmoves : ∀ n s t l, I s t l → I (O.moves n s) t l) :
    Act.Keeps (Inv I) (await O killed : Act ε (Process σ τ μ) Unit) := by
  intro p h
  have h' : Inv I { p with shared := O.moves p.steps p.shared, steps := p.steps + 1 } :=
    hmoves _ _ _ _ h
  rw [wp_await]
  split <;> exact h'

theorem keeps_lift {x : Act ε σ α} (hx : ∀ t l, Act.Keeps (fun s => I s t l) x) :
    Act.Keeps (Inv I) (lift x : Act ε (Process σ τ μ) α) := by
  intro p h
  rw [wp_lift]
  exact hx p.own p.trace p.shared h

/-- What the others keep and a computation keeps, a step keeps. -/
theorem keeps_step {x : Act ε σ α} (hmoves : ∀ n s t l, I s t l → I (O.moves n s) t l)
    (hx : ∀ t l, Act.Keeps (fun s => I s t l) x) :
    Act.Keeps (Inv I) (step O killed x : Act ε (Process σ τ μ) α) :=
  (keeps_await hmoves).bind fun _ => keeps_lift hx

theorem keeps_note {m : μ} (h : ∀ s t l, I s t l → I s t (l ++ [(m, s)])) :
    Act.Keeps (Inv I) (note m : Act ε (Process σ τ μ) Unit) := by
  intro p hp
  rw [wp_note]
  exact h _ _ _ hp

theorem keeps_remember {f : τ → τ} (h : ∀ s t l, I s t l → I s (f t) l) :
    Act.Keeps (Inv I) (remember f : Act ε (Process σ τ μ) Unit) := by
  intro p hp
  rw [wp_remember]
  exact h _ _ _ hp

theorem keeps_recollect (f : τ → α) :
    Act.Keeps (Inv I) (recollect f : Act ε (Process σ τ μ) α) := by
  intro p hp
  rw [wp_recollect]
  exact hp

end Process

end Shiroe

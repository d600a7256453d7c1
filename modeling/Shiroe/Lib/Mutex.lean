import Shiroe.Lib.Act
import Shiroe.Lib.Interleave

/-!
# Sections under one lock

Processes take turns on shared data (`Pool`).  Each of them tries a few times to take the one lock,
executes its section statement by statement while it has it, and drops it.  It may die at any
statement, and an operation on the lock may fail; either can leave the lock without an owner.

* `Prog.run` : a program executed without a break;
* `Locking.turn` : a turn, with a record of the calls that have been made and of the sections that
  have ended, in the order in which they dropped the lock;
* `Locking.serialized_at` : **every run is a serial one**: the shared data is what the ended
  sections make of it one after the other, and a started one on top;
* `Locking.Serialized.exclusive` : at most one process is inside;
* `Locking.exists_unlocked`, `Locking.Stuck.run` : it comes out when it has its turns; where the
  lock has no owner, nothing shared changes any more.
-/

namespace Shiroe

namespace Prog

variable {μ : Type} {ρ : μ → Type} {ε α β σ : Type} (exec : (m : μ) → σ → ρ m × σ)

/-- The program executed without a break. -/
def run : Prog μ ρ ε α → Act ε σ α
  | .ret a => pure a
  | .raise e => throw e
  | .stmt m next => fun s => run (next (exec m s).1) (exec m s).2

/-- A program that only returns or raises. -/
def ofExcept : Except ε α → Prog μ ρ ε α
  | .ok a => .ret a
  | .error e => .raise e

/-- Executed from `s`, the program `x` comes to the rest `y` at the state `t`. -/
inductive Reaches (x : Prog μ ρ ε α) (s : σ) : Prog μ ρ ε α → σ → Prop where
  | start : Reaches x s x s
  | step {m : μ} {next : ρ m → Prog μ ρ ε α} {t : σ} (h : Reaches x s (.stmt m next) t) :
    Reaches x s (next (exec m t).1) (exec m t).2

/-- Every state on the way of the program has the property. -/
def Always (I : σ → Prop) : Prog μ ρ ε α → σ → Prop
  | .ret _, s => I s
  | .raise _, s => I s
  | .stmt m next, s => I s ∧ Always I (next (exec m s).1) (exec m s).2

variable {exec} {x y : Prog μ ρ ε α} {s t : σ} {I : σ → Prop}

@[simp] theorem run_pure (a : α) : (Pure.pure a : Prog μ ρ ε α).run exec = pure a := rfl

@[simp] theorem run_raise (e : ε) : (raise e : Prog μ ρ ε α).run exec = throw e := rfl

@[simp] theorem run_bind (x : Prog μ ρ ε α) (f : α → Prog μ ρ ε β) :
    (x >>= f).run exec = x.run exec >>= fun a => (f a).run exec := by
  funext s
  change (x.bind f).run exec s = _
  induction x generalizing s with
  | ret a => rfl
  | raise e => rfl
  | stmt m next ih => exact ih _ _

/-- A program does what a computation does if its parts do. -/
theorem run_bind_congr {x : Prog μ ρ ε β} {f : β → Prog μ ρ ε α} {c : Act ε σ β} {g : β → Act ε σ α}
    (hx : x.run exec s = c s) (hf : ∀ b s', c s = .ok b s' → (f b).run exec s' = g b s') :
    (x >>= f).run exec s = (c >>= g) s := by
  rw [run_bind]
  cases hc : c s with
  | ok b s' => rw [Act.bind_of_ok (hx.trans hc), Act.bind_of_ok hc, hf b s' hc]
  | error e s' => rw [Act.bind_of_error (hx.trans hc), Act.bind_of_error hc]

theorem run_ite (c : Prop) [Decidable c] (x y : Prog μ ρ ε α) :
    (if c then x else y).run exec = if c then x.run exec else y.run exec := by
  split_ifs <;> rfl

/-- A program goes on by the answer to its first statement. -/
theorem run_issue_bind (m : μ) (f : ρ m → Prog μ ρ ε α) (s : σ) :
    (issue m >>= f).run exec s = (f (exec m s).1).run exec (exec m s).2 := rfl

/-- The rest of a program does what is left of it. -/
theorem Reaches.run (h : Reaches exec x s y t) : y.run exec t = x.run exec s := by
  induction h with
  | start => rfl
  | step _ ih => exact ih

theorem Always.here (h : Always exec I x s) : I s := by
  cases x with
  | ret a => exact h
  | raise e => exact h
  | stmt m next => exact h.1

theorem Reaches.always (h : Reaches exec x s y t) (hx : Always exec I x s) : Always exec I y t := by
  induction h with
  | start => exact hx
  | step _ ih => exact ih.2

/-- What every statement keeps holds on the way. -/
theorem Always.of_all {P : μ → Prop} (hP : ∀ m s, P m → I s → I (exec m s).2) (h : x.All P)
    (hs : I s) : Always exec I x s := by
  induction x generalizing s with
  | ret a => exact hs
  | raise e => exact hs
  | stmt m next ih => exact ⟨hs, ih _ (h.2 _) (hP m s h.1 hs)⟩

theorem Always.bind {f : α → Prog μ ρ ε β} (h : Always exec I x s)
    (hf : Act.wp (x.run exec) (fun a t => Always exec I (f a) t) (fun _ _ => True) s) :
    Always exec I (x >>= f) s := by
  change Always exec I (Prog.bind x f) s
  induction x generalizing s with
  | ret a => exact (Act.wp_pure a).1 hf
  | raise e => exact h
  | stmt m next ih =>
    refine ⟨h.1, ih _ h.2 ?_⟩
    unfold Act.wp at hf ⊢
    exact hf

theorem always_raise {e : ε} (h : I s) : Always exec I (raise e : Prog μ ρ ε α) s := h

theorem always_stmt {m : μ} {next : ρ m → Prog μ ρ ε α} (h : I s)
    (hnext : Always exec I (next (exec m s).1) (exec m s).2) :
    Always exec I (.stmt m next) s := ⟨h, hnext⟩

-- what holds on the way is taken apart by the rules above, never by running the program
attribute [irreducible] Always

end Prog

/-! ### The lock -/

/-- A statement of a process that works under the lock. -/
inductive Guarded (μ : Type) where
  /-- Create the lock, if there is none. -/
  | take
  | drop
  | inner (m : μ)

/-- What comes back. -/
def Guarded.Answer {μ : Type} (ρ : μ → Type) : Guarded μ → Type
  -- whether the lock was created
  | .take => Bool
  | .drop => Unit
  | .inner m => ρ m

/-- Shared data and the lock. -/
structure Guard (σ : Type) where
  data : σ
  locked : Bool := false

variable {μ : Type} {ρ : μ → Type} {ε α σ κ : Type}

/-- Execute a statement. -/
def Guarded.exec (exec : (m : μ) → σ → ρ m × σ) : (m : Guarded μ) → Guard σ → m.Answer ρ × Guard σ
  | .take, g => (!g.locked, { g with locked := true })
  | .drop, g => ((), { g with locked := false })
  | .inner m, g => ((exec m g.data).1, { g with data := (exec m g.data).2 })

namespace Prog

/-- The rest of a section, which drops the lock when it returns and when it raises. -/
def inside : Prog μ ρ ε α → Prog (Guarded μ) (Guarded.Answer ρ) ε α
  | .ret a => .stmt .drop fun _ => .ret a
  | .raise e => .stmt .drop fun _ => .raise e
  | .stmt m next => .stmt (.inner m) fun r => (next r).inside

/-- Take the lock, in at most `n` tries, and go on with the section; raise `late` after the last. -/
def waiting (late : ε) (x : Prog μ ρ ε α) : ℕ → Prog (Guarded μ) (Guarded.Answer ρ) ε α
  | 0 => .raise late
  | n + 1 => .stmt .take fun (got : Bool) => if got then x.inside else x.waiting late n

end Prog

/-! ### Serial runs -/

/-- A section that has ended. -/
structure Ended (κ ε α : Type) where
  process : ℕ
  call : κ
  outcome : Except ε α

/-- The calls, made one after the other from `s`, have these outcomes and lead to `s'`. -/
def Serial (op : κ → Act ε σ α) (s : σ) (l : List (Ended κ ε α)) (s' : σ) : Prop :=
  Run.Throughout (fun s d => (op d.call).final s)
    (fun s d => (op d.call).outcome s = d.outcome) s l ∧
    l.foldl (fun s d => (op d.call).final s) s = s'

namespace Serial

variable {op op' : κ → Act ε σ α} {s s' : σ} {l : List (Ended κ ε α)}

theorem nil (op : κ → Act ε σ α) (s : σ) : Serial op s [] s := ⟨trivial, rfl⟩

theorem concat (h : Serial op s l s') (i : ℕ) (c : κ) :
    Serial op s (l ++ [⟨i, c, (op c).outcome s'⟩]) ((op c).final s') := by
  obtain ⟨h, rfl⟩ := h
  refine ⟨?_, by rw [List.foldl_append]; rfl⟩
  induction l generalizing s with
  | nil => exact ⟨rfl, trivial⟩
  | cons d l ih => exact ⟨h.1, ih h.2⟩

/-- Operations that agree where an invariant holds, which they keep, have the same serial runs. -/
theorem congr {I : σ → Prop} (hop : ∀ c s, I s → op c s = op' c s)
    (hkeeps : ∀ c, Act.Keeps I (op c)) (hs : I s) (h : Serial op s l s') :
    Serial op' s l s' ∧ I s' := by
  induction l generalizing s with
  | nil => exact ⟨⟨trivial, h.2⟩, h.2 ▸ hs⟩
  | cons d l ih =>
    have hfinal : (op d.call).final s = (op' d.call).final s := by
      rw [Act.final, Act.final, hop d.call s hs]
    have houtcome : (op d.call).outcome s = (op' d.call).outcome s := by
      rw [Act.outcome, Act.outcome, hop d.call s hs]
    obtain ⟨⟨hrun, hfold⟩, hI⟩ := ih ((hkeeps d.call).final hs) ⟨h.1.2, h.2⟩
    rw [hfinal] at hrun hfold
    exact ⟨⟨⟨houtcome.symm.trans h.1.1, hrun⟩, hfold⟩, hI⟩

end Serial

/-! ### Turns -/

/-- What happens next: a process that has nothing to do makes a call, a process executes its next
statement, or it dies; or the operation on the lock that it comes to fails. -/
inductive LockTurn (κ : Type) where
  | call (i : ℕ) (c : κ)
  | next (i : ℕ)
  | die (i : ℕ)
  /-- The process raises; what it was to create may be there, what it was to take away stays. -/
  | fail (i : ℕ) (created : Bool)
  deriving DecidableEq

/-- The process whose turn it is. -/
def LockTurn.process : LockTurn κ → ℕ
  | .call i _ => i
  | .next i => i
  | .die i => i
  | .fail i _ => i

/-- What a program has returned or raised. -/
def Prog.result? : Prog μ ρ ε α → Option (Except ε α)
  | .ret a => some (.ok a)
  | .raise e => some (.error e)
  | .stmt _ _ => none

/-- The processes, the data and the lock. -/
abbrev GuardedPool (μ : Type) (ρ : μ → Type) (ε α σ : Type) :=
  Pool (Guarded μ) (Guarded.Answer ρ) ε α (Guard σ)

/-- The processes with a record of what they have done. -/
structure Worked (μ : Type) (ρ : μ → Type) (ε α σ κ : Type) where
  pool : GuardedPool μ ρ ε α σ
  /-- The calls that have been made, the last one first. -/
  made : List (ℕ × κ) := []
  /-- The sections that have ended, in the order in which they dropped the lock. -/
  ended : List (Ended κ ε α) := []

namespace Worked

variable (w : Worked μ ρ ε α σ κ) (i : ℕ)

/-- The call that the process made last. -/
def callOf : Option κ := w.made.lookup i

/-- The section of the process that ended last. -/
def lastOf : Option (Ended κ ε α) := w.ended.reverse.find? (·.process = i)

/-- The section that the next statement of the process ends. -/
def dropped : Option (Ended κ ε α) :=
  match w.pool.procs i with
  | some (.stmt .drop next) => do
    let outcome ← (next ()).result?
    return ⟨i, ← w.callOf i, outcome⟩
  | _ => none

end Worked

/-- Calls whose sections are executed under the lock. -/
structure Locking (μ : Type) (ρ : μ → Type) (ε α σ κ : Type) where
  exec : (m : μ) → σ → ρ m × σ
  body : κ → Prog μ ρ ε α
  /-- So often a call tries to take the lock. -/
  tries : κ → ℕ
  /-- What a call raises after the last try. -/
  late : ε
  /-- What an operation on the lock raises that fails. -/
  broken : ε

namespace Locking

variable (L : Locking μ ρ ε α σ κ)

/-- The section of a call at once. -/
def op (c : κ) : Act ε σ α := (L.body c).run L.exec

/-- The program of a call. -/
def prog (c : κ) : Prog (Guarded μ) (Guarded.Answer ρ) ε α :=
  (L.body c).waiting L.late (L.tries c)

/-- One turn of the processes. -/
def poolTurn (p : GuardedPool μ ρ ε α σ) : LockTurn κ → GuardedPool μ ρ ε α σ
  | .call i c => p.step (Guarded.exec L.exec) L.prog (.call i c)
  | .next i => p.step (Guarded.exec L.exec) L.prog (.next i)
  | .die i => p.step (Guarded.exec L.exec) L.prog (.die i)
  | .fail i created =>
    match p.procs i with
    | some (.stmt .take _) =>
      { shared := { p.shared with locked := p.shared.locked || created }
        procs := Function.update p.procs i (some (.raise L.broken)) }
    | some (.stmt .drop _) => { p with procs := Function.update p.procs i (some (.raise L.broken)) }
    | _ => p

/-- One turn with its record: a call counts if the process has nothing to do. -/
def turn (w : Worked μ ρ ε α σ κ) (t : LockTurn κ) : Worked μ ρ ε α σ κ where
  pool := L.poolTurn w.pool t
  made :=
    match t with
    | .call i c => if (w.pool.procs i).all Prog.isDone then (i, c) :: w.made else w.made
    | _ => w.made
  ended :=
    match t with
    | .next i => (w.dropped i).elim w.ended fun d => w.ended ++ [d]
    | _ => w.ended

/-- The processes after the first turns, from data that nobody works on yet. -/
def after (s₀ : σ) (turns : List (LockTurn κ)) (k : ℕ) : Worked μ ρ ε α σ κ :=
  Run.stateAt L.turn { pool := { shared := { data := s₀ } } } turns k

/-! ### What holds at every moment -/

/-- A process has no section under way: it waits for the lock, the section that it called last has
ended, or the lock has failed it. -/
inductive Outside (w : Worked μ ρ ε α σ κ) (i : ℕ) :
    Prog (Guarded μ) (Guarded.Answer ρ) ε α → Prop where
  | waits {c : κ} (n : ℕ) : w.callOf i = some c → Outside w i ((L.body c).waiting L.late n)
  | ended {d : Ended κ ε α} : w.lastOf i = some d → w.callOf i = some d.call →
      Outside w i (.ofExcept d.outcome)
  | broken : Outside w i (.raise L.broken)

/-- The lock is free, and the data is what the ended sections left, one by one from `s₀`; or one
process has it and is somewhere in its section; or nobody comes to drop it. -/
inductive Serialized (s₀ : σ) (w : Worked μ ρ ε α σ κ) : Prop where
  | free (open_ : w.pool.shared.locked = false)
    (serial : Serial L.op s₀ w.ended w.pool.shared.data)
    (outside : ∀ i, ∀ q ∈ w.pool.procs i, L.Outside w i q)
  | held (i : ℕ) (c : κ) (s : σ) (y : Prog μ ρ ε α) (locked : w.pool.shared.locked = true)
    (call : w.callOf i = some c) (serial : Serial L.op s₀ w.ended s)
    (reaches : (L.body c).Reaches L.exec s y w.pool.shared.data)
    (inside : w.pool.procs i = some y.inside)
    (outside : ∀ j ≠ i, ∀ q ∈ w.pool.procs j, L.Outside w j q)
  | orphaned (i : ℕ) (c : κ) (s : σ) (y : Prog μ ρ ε α) (locked : w.pool.shared.locked = true)
    (call : (i, c) ∈ w.made) (serial : Serial L.op s₀ w.ended s)
    (reaches : (L.body c).Reaches L.exec s y w.pool.shared.data)
    (outside : ∀ i, ∀ q ∈ w.pool.procs i, L.Outside w i q)

end Locking

variable {L : Locking μ ρ ε α σ κ} {s₀ : σ} {w w' : Worked μ ρ ε α σ κ} {i j : ℕ} {c : κ}
  {y z : Prog μ ρ ε α} {q : Prog (Guarded μ) (Guarded.Answer ρ) ε α}

theorem Worked.mem_made_of_callOf (h : w.callOf i = some c) : (i, c) ∈ w.made := by
  obtain ⟨l₁, l₂, hmade, -⟩ := List.lookup_eq_some_iff.1 h
  rw [hmade]
  exact List.mem_append_right _ List.mem_cons_self

/-- The record of a section that ends. -/
theorem Worked.dropped_eq {r : Except ε α} (hcall : w.callOf i = some c)
    (hi : w.pool.procs i = some (Prog.inside (.ofExcept r : Prog μ ρ ε α))) :
    w.dropped i = some ⟨i, c, r⟩ := by
  rw [Worked.dropped, hi]
  cases r <;> simp only [Prog.ofExcept, Prog.inside, Prog.result?, hcall] <;> rfl

theorem Prog.eq_of_result {x : Prog μ ρ ε α} {r : Except ε α} (h : x.result? = some r) :
    x = .ofExcept r := by
  cases x <;> cases h <;> rfl

/-- A section is about to end when its process is about to drop the lock. -/
theorem Worked.inside_of_dropped {d : Ended κ ε α} (h : w.dropped i = some d) :
    w.pool.procs i = some (Prog.inside (.ofExcept d.outcome : Prog μ ρ ε α)) := by
  rw [Worked.dropped] at h
  split at h
  · rename_i next hi
    obtain ⟨r, hr, h⟩ := Option.bind_eq_some_iff.1 h
    obtain ⟨c, -, h⟩ := Option.bind_eq_some_iff.1 h
    cases h
    have hnext : next = fun _ => .ofExcept r := funext fun _ => Prog.eq_of_result hr
    rw [hi, hnext]
    cases r <;> rfl
  · cases h

namespace Locking

theorem Outside.congr (h : L.Outside w j q) (hcall : w'.callOf j = w.callOf j)
    (hlast : w'.lastOf j = w.lastOf j) : L.Outside w' j q := by
  cases h with
  | waits n hc => exact .waits n (hcall.trans hc)
  | ended hd hc => exact .ended (hlast.trans hd) (hcall.trans hc)
  | broken => exact .broken

theorem inside_ne_waiting {late : ε} (n : ℕ) : y.inside ≠ z.waiting late n := by
  intro h
  cases n <;> cases y <;> cases h

/-- A process outside is not inside. -/
theorem Outside.ne_inside (h : L.Outside w i q) : q ≠ y.inside := by
  cases h with
  | waits n _ => exact (inside_ne_waiting n).symm
  | @ended d _ _ =>
    intro h
    cases hd : d.outcome <;> rw [hd] at h <;> cases y <;> cases h
  | broken =>
    intro h
    cases y <;> cases h

/-- Nothing is different but what the process `i` does, and it is outside. -/
structure Apart (L : Locking μ ρ ε α σ κ) (w w' : Worked μ ρ ε α σ κ) (i : ℕ) : Prop where
  data : w'.pool.shared.data = w.pool.shared.data
  ended : w'.ended = w.ended
  made : w.made ⊆ w'.made
  others : ∀ j ≠ i, w'.pool.procs j = w.pool.procs j ∧ w'.callOf j = w.callOf j
  self : ∀ q ∈ w'.pool.procs i, L.Outside w' i q

/-- The other processes are where they were. -/
theorem Apart.outside {P : ℕ → Prop} (h : L.Apart w w' i)
    (hw : ∀ j, P j → ∀ q ∈ w.pool.procs j, L.Outside w j q) :
    ∀ j, P j → ∀ q ∈ w'.pool.procs j, L.Outside w' j q := by
  intro j hj q hq
  by_cases hji : j = i
  · subst hji
    exact h.self q hq
  · obtain ⟨hprocs, hcall⟩ := h.others j hji
    rw [hprocs] at hq
    exact (hw j hj q hq).congr hcall (by rw [Worked.lastOf, Worked.lastOf, h.ended])

/-- A process gets another program, and the lock may be taken. -/
theorem Apart.update {g : Guard σ} (hg : g.data = w.pool.shared.data)
    {q' : Option (Prog (Guarded μ) (Guarded.Answer ρ) ε α)}
    (hq' : ∀ q ∈ q', L.Outside w i q) :
    L.Apart w { w with pool := { shared := g, procs := Function.update w.pool.procs i q' } } i where
  data := hg
  ended := rfl
  made := List.Subset.refl _
  others := fun j hj => ⟨Function.update_of_ne hj _ _, rfl⟩
  self := fun q hq => by
    change q ∈ Function.update w.pool.procs i q' i at hq
    rw [Function.update_self] at hq
    exact (hq' q hq).congr rfl rfl

theorem Apart.rfl (h : ∀ q ∈ w.pool.procs i, L.Outside w i q) : L.Apart w w i where
  data := Eq.refl _
  ended := Eq.refl _
  made := List.Subset.refl _
  others := fun _ _ => ⟨Eq.refl _, Eq.refl _⟩
  self := h

/-! ### Turns that do nothing -/

theorem turn_next : L.turn w (.next i) =
    { pool := L.poolTurn w.pool (.next i)
      made := w.made
      ended := (w.dropped i).elim w.ended fun d => w.ended ++ [d] } := rfl

theorem turn_fail {created : Bool} : L.turn w (.fail i created) =
    { w with pool := L.poolTurn w.pool (.fail i created) } := rfl

theorem turn_call_busy (h : (w.pool.procs i).all Prog.isDone = false) :
    L.turn w (.call i c) = w := by
  rw [Locking.turn, poolTurn, Pool.step, h]
  rfl

theorem turn_next_idle (h : ∀ m next, w.pool.procs i ≠ some (.stmt m next)) :
    L.turn w (.next i) = w := by
  have hpool : L.poolTurn w.pool (.next i) = w.pool := by
    rw [poolTurn, Pool.step]
    split
    · rename_i m next hi
      exact absurd hi (h m next)
    · rfl
  have hdropped : w.dropped i = none := by
    rw [Worked.dropped]
    split
    · rename_i next hi
      exact absurd hi (h _ next)
    · rfl
  rw [turn_next, hpool, hdropped]
  rfl

theorem turn_fail_idle {created : Bool} (htake : ∀ next, w.pool.procs i ≠ some (.stmt .take next))
    (hdrop : ∀ next, w.pool.procs i ≠ some (.stmt .drop next)) :
    L.turn w (.fail i created) = w := by
  have hpool : L.poolTurn w.pool (.fail i created) = w.pool := by
    rw [poolTurn]
    split
    · rename_i next hi
      exact absurd hi (htake next)
    · rename_i next hi
      exact absurd hi (hdrop next)
    · rfl
  rw [turn_fail, hpool]

/-- A process outside that does not wait has nothing to execute. -/
theorem Outside.waits_or_done (h : L.Outside w i q) :
    (∃ c n, w.callOf i = some c ∧ q = (L.body c).waiting L.late (n + 1)) ∨
      ∀ m next, q ≠ .stmt m next := by
  cases h with
  | @waits c n hc =>
    cases n with
    | zero => exact Or.inr fun m next h => by cases h
    | succ n => exact Or.inl ⟨c, n, hc, Eq.refl _⟩
  | @ended d _ _ =>
    refine Or.inr fun m next h => ?_
    cases hd : d.outcome <;> rw [hd] at h <;> cases h
  | broken => exact Or.inr fun m next h => by cases h

/-- The next statement of a process that waits. -/
theorem turn_next_waiting {n : ℕ} (h : w.pool.procs i = some ((L.body c).waiting L.late (n + 1))) :
    L.turn w (.next i) = { w with pool :=
      { shared := { w.pool.shared with locked := true }
        procs := Function.update w.pool.procs i (some (if (!w.pool.shared.locked) = true then
          (L.body c).inside else (L.body c).waiting L.late n)) } } := by
  have hdropped : w.dropped i = none := by
    rw [Worked.dropped, h]
    rfl
  rw [turn_next, hdropped, poolTurn, Pool.step, h]
  rfl

theorem turn_fail_waiting {n : ℕ} {created : Bool}
    (h : w.pool.procs i = some ((L.body c).waiting L.late (n + 1))) :
    L.turn w (.fail i created) = { w with pool :=
      { shared := { w.pool.shared with locked := w.pool.shared.locked || created }
        procs := Function.update w.pool.procs i (some (.raise L.broken)) } } := by
  rw [turn_fail, poolTurn, h]
  rfl

/-! ### The turn of a process outside -/

/-- It changes nothing shared, it takes the free lock, or it leaves the lock behind. -/
inductive OutsideTurn (L : Locking μ ρ ε α σ κ) (w w' : Worked μ ρ ε α σ κ) (i : ℕ) : Prop where
  | apart : L.Apart w w' i → w'.pool.shared = w.pool.shared → OutsideTurn L w w' i
  | takes (c : κ) : w.pool.shared.locked = false → w.callOf i = some c →
      w' = { w with pool :=
        { shared := { w.pool.shared with locked := true }
          procs := Function.update w.pool.procs i (some (L.body c).inside) } } →
      OutsideTurn L w w' i
  | leaves (c : κ) : w.pool.shared.locked = false → w.callOf i = some c → L.Apart w w' i →
      w'.pool.shared.locked = true → OutsideTurn L w w' i

/-- A call is recorded, unless the process has something to do. -/
theorem Outside.call (c : κ) (h : ∀ q ∈ w.pool.procs i, L.Outside w i q) :
    L.Apart w (L.turn w (.call i c)) i ∧ (L.turn w (.call i c)).pool.shared = w.pool.shared := by
  cases hidle : (w.pool.procs i).all Prog.isDone with
  | false =>
    rw [turn_call_busy hidle]
    exact ⟨.rfl h, Eq.refl _⟩
  | true =>
    have hturn : L.turn w (.call i c) =
        { pool := { w.pool with procs := Function.update w.pool.procs i (some (L.prog c)) }
          made := (i, c) :: w.made, ended := w.ended } := by
      rw [Locking.turn, poolTurn, Pool.step, hidle]
      rfl
    rw [hturn]
    refine ⟨⟨Eq.refl _, Eq.refl _, List.subset_cons_self _ _, fun j hj => ⟨?_, ?_⟩,
      fun q hq => ?_⟩, Eq.refl _⟩
    · exact Function.update_of_ne hj _ _
    · change List.lookup j ((i, c) :: w.made) = w.made.lookup j
      rw [List.lookup_cons, beq_eq_false_iff_ne.2 hj]
    · change q ∈ Function.update w.pool.procs i _ i at hq
      rw [Function.update_self, Option.mem_some_iff] at hq
      rw [← hq]
      refine .waits (c := c) (L.tries c) ?_
      change List.lookup i ((i, c) :: w.made) = some c
      rw [List.lookup_cons, beq_self_eq_true]

variable (L) in
theorem Outside.turn {t : LockTurn κ} (ht : t.process = i)
    (h : ∀ q ∈ w.pool.procs i, L.Outside w i q) : OutsideTurn L w (L.turn w t) i := by
  -- a process that does not wait for the lock executes nothing
  have hwaits : (∃ c n, w.callOf i = some c ∧
      w.pool.procs i = some ((L.body c).waiting L.late (n + 1))) ∨
      ∀ m next, w.pool.procs i ≠ some (.stmt m next) := by
    cases hi : w.pool.procs i with
    | none => exact Or.inr fun m next h => by cases h
    | some q =>
      rcases (h q (Option.mem_def.2 hi)).waits_or_done with ⟨c, n, hc, rfl⟩ | hno
      · exact Or.inl ⟨c, n, hc, Eq.refl _⟩
      · exact Or.inr fun m next hm => hno m next (Option.some.inj hm)
  cases t with
  | call j c =>
    obtain rfl : j = i := ht
    exact .apart (Outside.call c h).1 (Outside.call c h).2
  | die j =>
    obtain rfl : j = i := ht
    exact .apart (.update (Eq.refl _) fun q hq => by cases hq) (Eq.refl _)
  | next j =>
    obtain rfl : j = i := ht
    rcases hwaits with ⟨c, n, hcall, hi⟩ | hno
    · cases hlocked : w.pool.shared.locked with
      | true =>
        rw [turn_next_waiting hi, hlocked, if_neg (by decide)]
        refine .apart (.update (g := { w.pool.shared with locked := true }) (Eq.refl _)
          fun q hq => ?_) ?_
        · rw [← Option.mem_some_iff.1 hq]
          exact .waits n hcall
        · rw [← hlocked]
      | false =>
        refine .takes c hlocked hcall ?_
        rw [turn_next_waiting hi, hlocked, if_pos (by decide)]
    · rw [turn_next_idle hno]
      exact .apart (.rfl h) (Eq.refl _)
  | fail j created =>
    obtain rfl : j = i := ht
    rcases hwaits with ⟨c, n, hcall, hi⟩ | hno
    · have hself : ∀ q ∈ some (.raise L.broken), L.Outside w j q := fun q hq => by
        rw [← Option.mem_some_iff.1 hq]
        exact .broken
      rw [turn_fail_waiting hi]
      cases hlocked : w.pool.shared.locked with
      | true =>
        refine .apart (.update (g := { w.pool.shared with locked := true || created })
          (Eq.refl _) hself) ?_
        rw [Bool.true_or, ← hlocked]
      | false =>
        cases created with
        | false =>
          refine .apart (.update (g := { w.pool.shared with locked := false || false })
            (Eq.refl _) hself) ?_
          rw [Bool.false_or, ← hlocked]
        | true =>
          exact .leaves c hlocked hcall
            (.update (g := { w.pool.shared with locked := false || true })
            (Eq.refl _) hself) (Eq.refl _)
    · rw [turn_fail_idle (fun next => hno _ next) fun next => hno _ next]
      exact .apart (.rfl h) (Eq.refl _)

/-! ### The turn of the process inside -/

/-- The end of a section is recorded. -/
theorem turn_next_drop {r : Except ε α} (hcall : w.callOf i = some c)
    (hi : w.pool.procs i = some (Prog.inside (.ofExcept r : Prog μ ρ ε α))) :
    L.turn w (.next i) =
      { pool :=
          { shared := { w.pool.shared with locked := false }
            procs := Function.update w.pool.procs i (some (.ofExcept r)) }
        made := w.made
        ended := w.ended ++ [⟨i, c, r⟩] } := by
  rw [turn_next, Worked.dropped_eq hcall hi, poolTurn, Pool.step, hi]
  cases r <;> rfl

theorem turn_next_inner {m : μ} {next : ρ m → Prog μ ρ ε α}
    (hi : w.pool.procs i = some (Prog.inside (.stmt m next))) :
    L.turn w (.next i) = { w with pool :=
      { shared := { w.pool.shared with data := (L.exec m w.pool.shared.data).2 }
        procs := Function.update w.pool.procs i
          (some (next (L.exec m w.pool.shared.data).1).inside) } } := by
  have hdropped : w.dropped i = none := by
    rw [Worked.dropped, hi]
    rfl
  rw [turn_next, hdropped, poolTurn, Pool.step, hi]
  rfl

theorem turn_fail_drop {r : Except ε α} {created : Bool}
    (hi : w.pool.procs i = some (Prog.inside (.ofExcept r : Prog μ ρ ε α))) :
    L.turn w (.fail i created) = { w with pool :=
      { w.pool with procs := Function.update w.pool.procs i (some (.raise L.broken)) } } := by
  rw [turn_fail, poolTurn, hi]
  cases r <;> rfl

theorem lastOf_concat (d : Ended κ ε α) (h : w'.ended = w.ended ++ [d]) :
    w'.lastOf j = if d.process = j then some d else w.lastOf j := by
  rw [Worked.lastOf, h, List.reverse_concat, List.find?_cons]
  split_ifs with hj
  · rw [decide_eq_true hj]
  · rw [decide_eq_false hj]
    rfl

/-- A section that returns or raises has done what it does at once. -/
theorem op_eq_of_reaches {s t : σ} {r : Except ε α}
    (h : (L.body c).Reaches L.exec s (.ofExcept r) t) :
    (L.op c).final s = t ∧ (L.op c).outcome s = r := by
  have hrun : L.op c s = (Prog.ofExcept r : Prog μ ρ ε α).run L.exec t := h.run.symm
  rw [Act.final, Act.outcome, hrun]
  cases r <;> exact ⟨Eq.refl _, Eq.refl _⟩

/-- The process inside comes to the end of its section and drops the lock. -/
theorem Serialized.drop {s : σ} {r : Except ε α} (call : w.callOf i = some c)
    (serial : Serial L.op s₀ w.ended s)
    (reaches : (L.body c).Reaches L.exec s (.ofExcept r) w.pool.shared.data)
    (inside : w.pool.procs i = some (Prog.inside (.ofExcept r : Prog μ ρ ε α)))
    (outside : ∀ j ≠ i, ∀ q ∈ w.pool.procs j, L.Outside w j q) :
    L.Serialized s₀ (L.turn w (.next i)) := by
  obtain ⟨hfinal, houtcome⟩ := op_eq_of_reaches reaches
  rw [turn_next_drop call inside]
  refine .free (Eq.refl _) ?_ fun j q hq => ?_
  · have hconcat := serial.concat i c
    rw [hfinal, houtcome] at hconcat
    exact hconcat
  · change q ∈ Function.update w.pool.procs i _ j at hq
    by_cases hji : j = i
    · subst hji
      rw [Function.update_self, Option.mem_some_iff] at hq
      rw [← hq]
      refine .ended (d := ⟨j, c, r⟩) ?_ call
      exact (lastOf_concat ⟨j, c, r⟩ (w := w) (Eq.refl _)).trans (if_pos (Eq.refl _))
    · rw [Function.update_of_ne hji] at hq
      refine (outside j hji q hq).congr (Eq.refl _) ?_
      exact (lastOf_concat ⟨i, c, r⟩ (w := w) (Eq.refl _)).trans (if_neg (Ne.symm hji))

/-- Nobody comes to drop the lock. -/
theorem Serialized.orphan {s : σ} (locked : w.pool.shared.locked = true)
    (call : w.callOf i = some c) (serial : Serial L.op s₀ w.ended s)
    (reaches : (L.body c).Reaches L.exec s y w.pool.shared.data)
    (outside : ∀ j ≠ i, ∀ q ∈ w.pool.procs j, L.Outside w j q)
    {q' : Option (Prog (Guarded μ) (Guarded.Answer ρ) ε α)} (hq' : ∀ q ∈ q', L.Outside w i q) :
    L.Serialized s₀ { w with pool :=
      { w.pool with procs := Function.update w.pool.procs i q' } } := by
  have hapart := Apart.update (L := L) (w := w) (i := i) (g := w.pool.shared) (Eq.refl _) hq'
  refine .orphaned i c s y locked (Worked.mem_made_of_callOf call) serial reaches fun j q hq => ?_
  by_cases hji : j = i
  · subst hji
    exact hapart.self q hq
  · change q ∈ Function.update w.pool.procs i q' j at hq
    rw [Function.update_of_ne hji] at hq
    exact (outside j hji q hq).congr (Eq.refl _) (Eq.refl _)

/-- The turn of the process inside. -/
theorem Serialized.step_inside {s : σ} (locked : w.pool.shared.locked = true)
    (call : w.callOf i = some c) (serial : Serial L.op s₀ w.ended s)
    (reaches : (L.body c).Reaches L.exec s y w.pool.shared.data)
    (inside : w.pool.procs i = some y.inside)
    (outside : ∀ j ≠ i, ∀ q ∈ w.pool.procs j, L.Outside w j q) {t : LockTurn κ}
    (ht : t.process = i) : L.Serialized s₀ (L.turn w t) := by
  have hstay : L.Serialized s₀ w := .held _ c s y locked call serial reaches inside outside
  have hbroken : ∀ q ∈ some (.raise L.broken), L.Outside w i q := fun q hq => by
    rw [← Option.mem_some_iff.1 hq]
    exact .broken
  cases t with
  | call j c' =>
    obtain rfl : j = i := ht
    have hbusy : (w.pool.procs j).all Prog.isDone = false := by
      rw [inside]
      cases y <;> rfl
    rw [turn_call_busy hbusy]
    exact hstay
  | die j =>
    obtain rfl : j = i := ht
    exact .orphan locked call serial reaches outside fun q hq => by cases hq
  | next j =>
    obtain rfl : j = i := ht
    cases y with
    | ret a => exact .drop (r := .ok a) call serial reaches inside outside
    | raise e => exact .drop (r := .error e) call serial reaches inside outside
    | stmt m next =>
      rw [turn_next_inner inside]
      refine .held j c s _ locked call serial reaches.step (Function.update_self ..)
        fun k hk q hq => ?_
      change q ∈ Function.update w.pool.procs j _ k at hq
      rw [Function.update_of_ne hk] at hq
      exact (outside k hk q hq).congr (Eq.refl _) (Eq.refl _)
  | fail j created =>
    obtain rfl : j = i := ht
    cases y with
    | ret a =>
      rw [turn_fail_drop (r := .ok a) inside]
      exact .orphan locked call serial reaches outside hbroken
    | raise e =>
      rw [turn_fail_drop (r := .error e) inside]
      exact .orphan locked call serial reaches outside hbroken
    | stmt m next =>
      rw [turn_fail_idle (fun next h => ?_) fun next h => ?_]
      · exact hstay
      · rw [inside] at h
        cases h
      · rw [inside] at h
        cases h

/-- **Every turn keeps the run a serial one.** -/
theorem Serialized.step (h : L.Serialized s₀ w) (t : LockTurn κ) :
    L.Serialized s₀ (L.turn w t) := by
  cases h with
  | free open_ serial outside =>
    cases Outside.turn L (t := t) (Eq.refl _) (outside _) with
    | apart happ hshared =>
      refine .free (by rw [hshared]; exact open_) (by rw [happ.ended, hshared]; exact serial)
        fun j =>
        happ.outside (P := fun _ => True) (fun j _ => outside j) j trivial
    | takes c _ hcall hw =>
      rw [hw]
      refine .held t.process c _ _ (Eq.refl _) hcall serial .start (Function.update_self ..)
        fun j hj q hq => ?_
      change q ∈ Function.update w.pool.procs t.process _ j at hq
      rw [Function.update_of_ne hj] at hq
      exact (outside j q hq).congr (Eq.refl _) (Eq.refl _)
    | leaves c _ hcall happ hlocked =>
      refine .orphaned t.process c w.pool.shared.data (L.body c) hlocked
        (happ.made (Worked.mem_made_of_callOf hcall)) (by rw [happ.ended]; exact serial) ?_ fun j =>
        happ.outside (P := fun _ => True) (fun j _ => outside j) j trivial
      rw [happ.data]
      exact .start
  | held i c s y locked call serial reaches inside outside =>
    by_cases ht : t.process = i
    · exact step_inside locked call serial reaches inside outside ht
    · cases Outside.turn L (Eq.refl _) (outside _ ht) with
      | apart happ hshared =>
        obtain ⟨hprocs, hcallOf⟩ := happ.others i (Ne.symm ht)
        exact .held i c s y (by rw [hshared]; exact locked) (hcallOf.trans call)
          (by rw [happ.ended]; exact serial) (by rw [happ.data]; exact reaches)
          (hprocs.trans inside) (happ.outside outside)
      | takes _ hfree => cases locked.symm.trans hfree
      | leaves _ hfree => cases locked.symm.trans hfree
  | orphaned i c s y locked call serial reaches outside =>
    cases Outside.turn L (t := t) (Eq.refl _) (outside _) with
    | apart happ hshared =>
      exact .orphaned i c s y (by rw [hshared]; exact locked) (happ.made call)
        (by rw [happ.ended]; exact serial) (by rw [happ.data]; exact reaches) fun j =>
        happ.outside (P := fun _ => True) (fun j _ => outside j) j trivial
    | takes _ hfree => cases locked.symm.trans hfree
    | leaves _ hfree => cases locked.symm.trans hfree

/-! ### Runs -/

/-- **Every run is a serial one**: at every moment the sections that have ended by then have been
executed one after the other. -/
theorem serialized_after (L : Locking μ ρ ε α σ κ) (s₀ : σ) (turns : List (LockTurn κ)) (k : ℕ) :
    L.Serialized s₀ (L.after s₀ turns k) := by
  induction k with
  | zero =>
    exact .free (Eq.refl _) (.nil _ _) fun i q hq => by cases hq
  | succ k ih =>
    by_cases hk : k < turns.length
    · rw [Locking.after, Run.stateAt_succ hk]
      exact ih.step turns[k]
    · rw [Locking.after, Run.stateAt_of_length_le (by omega)]
      exact ih

/-- The record holds calls of the run only, and sections of these calls. -/
structure Recorded (turns : List (LockTurn κ)) (w : Worked μ ρ ε α σ κ) : Prop where
  made : ∀ x ∈ w.made, LockTurn.call x.1 x.2 ∈ turns
  ended : ∀ d ∈ w.ended, (d.process, d.call) ∈ w.made

theorem Recorded.turn {turns : List (LockTurn κ)} (h : Recorded turns w) {t : LockTurn κ}
    (ht : t ∈ turns) : Recorded turns (L.turn w t) := by
  cases t with
  | call i c =>
    cases hidle : (w.pool.procs i).all Prog.isDone with
    | false =>
      rw [turn_call_busy hidle]
      exact h
    | true =>
      have hmade : (L.turn w (.call i c)).made = (i, c) :: w.made := if_pos hidle
      refine ⟨fun x hx => ?_, fun d hd => ?_⟩
      · rw [hmade] at hx
        rcases List.mem_cons.1 hx with rfl | hx
        · exact ht
        · exact h.made x hx
      · rw [hmade]
        exact List.mem_cons_of_mem _ (h.ended d hd)
  | next i =>
    refine ⟨h.made, fun d hd => ?_⟩
    change d ∈ (w.dropped i).elim w.ended fun d => w.ended ++ [d] at hd
    cases hdrop : w.dropped i with
    | none =>
      rw [hdrop] at hd
      exact h.ended d hd
    | some d' =>
      rw [hdrop] at hd
      rcases List.mem_append.1 hd with hd | hd
      · exact h.ended d hd
      · obtain rfl := List.mem_singleton.1 hd
        rw [Worked.dropped] at hdrop
        split at hdrop
        · obtain ⟨r, -, hdrop⟩ := Option.bind_eq_some_iff.1 hdrop
          obtain ⟨c, hcall, hdrop⟩ := Option.bind_eq_some_iff.1 hdrop
          cases hdrop
          exact Worked.mem_made_of_callOf hcall
        · cases hdrop
  | die i => exact ⟨h.made, h.ended⟩
  | fail i created => exact ⟨h.made, h.ended⟩

theorem recorded_after (L : Locking μ ρ ε α σ κ) (s₀ : σ) (turns : List (LockTurn κ)) (k : ℕ) :
    Recorded turns (L.after s₀ turns k) := by
  induction k with
  | zero => exact ⟨fun _ hx => absurd hx List.not_mem_nil, fun _ hd => absurd hd List.not_mem_nil⟩
  | succ k ih =>
    by_cases hk : k < turns.length
    · rw [Locking.after, Run.stateAt_succ hk]
      exact ih.turn (List.getElem_mem hk)
    · rw [Locking.after, Run.stateAt_of_length_le (by omega)]
      exact ih

/-- **At most one process is inside.** -/
theorem Serialized.exclusive (h : L.Serialized s₀ w) (hi : w.pool.procs i = some y.inside)
    (hj : w.pool.procs j = some z.inside) : i = j := by
  cases h with
  | free _ _ outside => exact absurd (Eq.refl _) (outside i _ (Option.mem_def.2 hi)).ne_inside
  | held k c s x _ _ _ _ _ outside =>
    have hk : ∀ {m : ℕ} {x : Prog μ ρ ε α}, w.pool.procs m = some x.inside → m = k := by
      intro m x hm
      by_contra hne
      exact (outside m hne _ (Option.mem_def.2 hm)).ne_inside (Eq.refl _)
    rw [hk hi, hk hj]
  | orphaned _ _ _ _ _ _ _ _ outside =>
    exact absurd (Eq.refl _) (outside i _ (Option.mem_def.2 hi)).ne_inside

/-- A process has returned or raised what the section that it called last did, or it never got the
lock, or the lock failed it. -/
theorem Serialized.outcome {r : Except ε α} (h : L.Serialized s₀ w)
    (hi : w.pool.procs i = some (.ofExcept r)) :
    (∃ d, w.lastOf i = some d ∧ w.callOf i = some d.call ∧ d.outcome = r) ∨ r = .error L.late ∨
      r = .error L.broken := by
  have hout : L.Outside w i (.ofExcept r) := by
    cases h with
    | free _ _ outside => exact outside i _ (Option.mem_def.2 hi)
    | held j c s x _ _ _ _ inside outside =>
      refine outside i (fun hij => ?_) _ (Option.mem_def.2 hi)
      rw [hij, inside] at hi
      cases r <;> cases x <;> cases hi
    | orphaned _ _ _ _ _ _ _ _ outside => exact outside i _ (Option.mem_def.2 hi)
  generalize hq : (Prog.ofExcept r : Prog (Guarded μ) (Guarded.Answer ρ) ε α) = q at hout
  cases hout with
  | @waits c n _ =>
    cases r <;> cases n <;> cases hq
    exact Or.inr (Or.inl (Eq.refl _))
  | @ended d hd hcall =>
    refine Or.inl ⟨d, hd, hcall, ?_⟩
    cases r <;> cases hd' : d.outcome <;> rw [hd'] at hq <;> cases hq <;> rfl
  | broken =>
    cases r <;> cases hq
    exact Or.inr (Or.inr (Eq.refl _))

/-- The data is what the ended sections left, with a started one on top. -/
theorem Serialized.data (h : L.Serialized s₀ w) :
    ∃ s, Serial L.op s₀ w.ended s ∧
      (w.pool.shared.locked = false ∧ w.pool.shared.data = s ∨
        w.pool.shared.locked = true ∧ ∃ i c y, (i, c) ∈ w.made ∧
          (L.body c).Reaches L.exec s y w.pool.shared.data) := by
  cases h with
  | free open_ serial _ => exact ⟨_, serial, Or.inl ⟨open_, Eq.refl _⟩⟩
  | held i c s y locked call serial reaches _ _ =>
    exact ⟨s, serial, Or.inr ⟨locked, i, c, y, Worked.mem_made_of_callOf call, reaches⟩⟩
  | orphaned i c s y locked call serial reaches _ =>
    exact ⟨s, serial, Or.inr ⟨locked, i, c, y, call, reaches⟩⟩

/-- The process inside comes out when it has its turns. -/
theorem exists_unlocked (hi : w.pool.procs i = some y.inside) :
    ∃ n, ((List.replicate n (LockTurn.next i)).foldl L.turn w).pool.shared.locked = false := by
  induction y generalizing w with
  | ret a =>
    refine ⟨1, ?_⟩
    change (Pool.step _ L.prog w.pool (.next i)).shared.locked = false
    rw [Pool.step, hi]
    rfl
  | raise e =>
    refine ⟨1, ?_⟩
    change (Pool.step _ L.prog w.pool (.next i)).shared.locked = false
    rw [Pool.step, hi]
    rfl
  | stmt m next ih =>
    have hnext : (L.turn w (.next i)).pool.procs i =
        some (next (L.exec m w.pool.shared.data).1).inside := by
      rw [turn_next_inner hi]
      exact Function.update_self ..
    obtain ⟨n, hn⟩ := ih _ hnext
    exact ⟨n + 1, hn⟩

/-! ### A lock without an owner -/

/-- The lock is taken, and nobody comes to drop it. -/
structure Stuck (L : Locking μ ρ ε α σ κ) (w : Worked μ ρ ε α σ κ) : Prop where
  locked : w.pool.shared.locked = true
  outside : ∀ i, ∀ q ∈ w.pool.procs i, L.Outside w i q

theorem Stuck.turn (h : L.Stuck w) (t : LockTurn κ) :
    (L.turn w t).pool.shared = w.pool.shared ∧ L.Stuck (L.turn w t) := by
  cases Outside.turn L (t := t) (Eq.refl _) (h.outside _) with
  | apart happ hshared =>
    exact ⟨hshared, by rw [hshared]; exact h.locked, fun j =>
      happ.outside (P := fun _ => True) (fun j _ => h.outside j) j trivial⟩
  | takes _ hfree => cases h.locked.symm.trans hfree
  | leaves _ hfree => cases h.locked.symm.trans hfree

/-- **A lock without an owner is the end**: whatever turns follow, nothing shared changes. -/
theorem Stuck.run (h : L.Stuck w) (turns : List (LockTurn κ)) :
    (turns.foldl L.turn w).pool.shared = w.pool.shared := by
  induction turns generalizing w with
  | nil => rfl
  | cons t turns ih =>
    obtain ⟨hshared, hstuck⟩ := h.turn t
    exact (ih hstuck).trans hshared

/-- The process inside is another one nowhere else. -/
theorem Serialized.held_of_inside (h : L.Serialized s₀ w) (hi : w.pool.procs i = some y.inside) :
    w.pool.shared.locked = true ∧ ∀ j ≠ i, ∀ q ∈ w.pool.procs j, L.Outside w j q := by
  cases h with
  | free _ _ outside => exact absurd (Eq.refl _) (outside i _ (Option.mem_def.2 hi)).ne_inside
  | held j c s x locked _ _ _ inside outside =>
    obtain rfl : i = j := by
      by_contra hne
      exact (outside i hne _ (Option.mem_def.2 hi)).ne_inside (Eq.refl _)
    exact ⟨locked, outside⟩
  | orphaned _ _ _ _ _ _ _ _ outside =>
    exact absurd (Eq.refl _) (outside i _ (Option.mem_def.2 hi)).ne_inside

/-- The process inside is gone without dropping the lock. -/
theorem Serialized.stuck (h : L.Serialized s₀ w) (hi : w.pool.procs i = some y.inside)
    {q' : Option (Prog (Guarded μ) (Guarded.Answer ρ) ε α)} (hq' : ∀ q ∈ q', L.Outside w i q) :
    L.Stuck { w with pool := { w.pool with procs := Function.update w.pool.procs i q' } } := by
  obtain ⟨locked, outside⟩ := h.held_of_inside hi
  refine ⟨locked, fun j q hq => ?_⟩
  change q ∈ Function.update w.pool.procs i q' j at hq
  by_cases hji : j = i
  · subst hji
    rw [Function.update_self] at hq
    exact (hq' q hq).congr (Eq.refl _) (Eq.refl _)
  · rw [Function.update_of_ne hji] at hq
    exact (outside j hji q hq).congr (Eq.refl _) (Eq.refl _)

/-- When the process inside dies, the lock has no owner. -/
theorem Serialized.stuck_of_die (h : L.Serialized s₀ w) (hi : w.pool.procs i = some y.inside) :
    L.Stuck (L.turn w (.die i)) :=
  h.stuck hi fun q hq => by cases hq

/-- When the process inside fails to take the lock away, the lock has no owner. -/
theorem Serialized.stuck_of_drop {r : Except ε α} (created : Bool) (h : L.Serialized s₀ w)
    (hi : w.pool.procs i = some (Prog.inside (.ofExcept r : Prog μ ρ ε α))) :
    L.Stuck (L.turn w (.fail i created)) := by
  rw [turn_fail_drop hi]
  refine h.stuck hi fun q hq => ?_
  rw [← Option.mem_some_iff.1 hq]
  exact .broken

/-- When a process creates the lock and fails then, the lock has no owner. -/
theorem Serialized.stuck_of_take {n : ℕ} (h : L.Serialized s₀ w)
    (hi : w.pool.procs i = some ((L.body c).waiting L.late (n + 1)))
    (hfree : w.pool.shared.locked = false) : L.Stuck (L.turn w (.fail i true)) := by
  cases h with
  | free _ _ outside =>
    have happ : L.Apart w (L.turn w (.fail i true)) i := by
      rw [turn_fail_waiting hi]
      refine .update (g := { w.pool.shared with locked := w.pool.shared.locked || true })
        (Eq.refl _) fun q hq => ?_
      rw [← Option.mem_some_iff.1 hq]
      exact .broken
    refine ⟨?_, fun j => happ.outside (P := fun _ => True) (fun j _ => outside j) j trivial⟩
    rw [turn_fail_waiting hi]
    exact Bool.or_true _
  | held _ _ _ _ locked => cases locked.symm.trans hfree
  | orphaned _ _ _ _ locked => cases locked.symm.trans hfree

end Locking

end Shiroe

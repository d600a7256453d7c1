import Mathlib.Data.Nat.Init
import Shiroe.Lib.Interleave
import Shiroe.Lib.Run

/-!
# A process among others

What a process of a pool can rely on is a relation: between two of its statements the others change
the shared state by steps of it.  What it guarantees in return is said of each statement that it
executes.

* `Prog.Relies` : the program guarantees `G` at each of its statements and ends as `Q` and `E` say,
  while the others take steps of `R`; its rules `Relies.bind`, `Relies.onRaise` follow the program;
* `Prog.EndsIn` : the program ends after so many statements, whatever the answers;
* `Prog.execTold` : statements that keep a record of what a process has been told;
* `Pool.Relied` : every process keeps to its guarantee; it does so over every run
  (`Pool.Relied.stateAt`), when what is guaranteed is a step that the others rely on;
* `Pool.Relied.follow` : in such a run a process ends as it should, by what it has been told;
* `Pool.exists_rest` : it ends after as many turns of its own as it has statements.
-/

namespace Shiroe

namespace Prog

variable {μ : Type} {ρ : μ → Type} {ε α β σ : Type}

/-- `try: x` and `except Exception: cleanup; raise`. -/
def onRaise (x : Prog μ ρ ε α) (cleanup : Prog μ ρ ε β) : Prog μ ρ ε α :=
  match x with
  | .ret a => .ret a
  | .raise e => cleanup.bind fun _ => .raise e
  | .stmt m next => .stmt m fun r => (next r).onRaise cleanup

theorem All.onRaise {P : μ → Prop} {x : Prog μ ρ ε α} {cleanup : Prog μ ρ ε β} (hx : x.All P)
    (hc : cleanup.All P) : (x.onRaise cleanup).All P := by
  induction x with
  | ret a => trivial
  | raise e => exact All.bind hc fun _ => trivial
  | stmt m next ih => exact ⟨hx.1, fun r => ih r (hx.2 r)⟩

/-! ### Rely and guarantee -/

variable (exec : (m : μ) → σ → ρ m × σ) (R : σ → σ → Prop) (G : μ → σ → Prop)

/-- From `s` on, with steps of `R` before each statement and after the last, every statement meets
`G` where it is executed, and the program returns under `Q` or raises under `E`. -/
def Relies (Q : α → σ → Prop) (E : ε → σ → Prop) : Prog μ ρ ε α → σ → Prop
  | .ret a, s => ∀ t, R s t → Q a t
  | .raise e, s => ∀ t, R s t → E e t
  | .stmt m next, s => ∀ t, R s t → G m t ∧ Relies Q E (next (exec m t).1) (exec m t).2

variable {exec R G} {Q Q' : α → σ → Prop} {E E' : ε → σ → Prop} {x : Prog μ ρ ε α} {s t : σ}

theorem relies_stmt {m : μ} {next : ρ m → Prog μ ρ ε α} :
    Relies exec R G Q E (.stmt m next) s ↔
      ∀ t, R s t → G m t ∧ Relies exec R G Q E (next (exec m t).1) (exec m t).2 := Iff.rfl

theorem relies_issue_bind {m : μ} {f : ρ m → Prog μ ρ ε α} :
    Relies exec R G Q E (issue m >>= f) s ↔
      ∀ t, R s t → G m t ∧ Relies exec R G Q E (f (exec m t).1) (exec m t).2 := Iff.rfl

/-- A step of the others does no harm. -/
theorem Relies.step [IsTrans σ R] (h : Relies exec R G Q E x s) (hst : R s t) :
    Relies exec R G Q E x t := by
  cases x with
  | ret a => exact fun u hu => h u (IsTrans.trans _ _ _ hst hu)
  | raise e => exact fun u hu => h u (IsTrans.trans _ _ _ hst hu)
  | stmt m next => exact fun u hu => h u (IsTrans.trans _ _ _ hst hu)

theorem Relies.mono (h : Relies exec R G Q E x s) (hQ : ∀ a t, Q a t → Q' a t)
    (hE : ∀ e t, E e t → E' e t) : Relies exec R G Q' E' x s := by
  induction x generalizing s with
  | ret a => exact fun t ht => hQ _ _ (h t ht)
  | raise e => exact fun t ht => hE _ _ (h t ht)
  | stmt m next ih => exact fun t ht => ⟨(h t ht).1, ih _ (h t ht).2⟩

theorem Relies.bind [Std.Refl R] {f : α → Prog μ ρ ε β} {Q' : β → σ → Prop}
    (h : Relies exec R G (fun a t => Relies exec R G Q' E (f a) t) E x s) :
    Relies exec R G Q' E (x >>= f) s := by
  change Relies exec R G Q' E (Prog.bind x f) s
  induction x generalizing s with
  | ret a => exact h s (Std.Refl.refl s)
  | raise e => exact h
  | stmt m next ih => exact fun t ht => ⟨(h t ht).1, ih _ (h t ht).2⟩

theorem Relies.onRaise [Std.Refl R] {cleanup : Prog μ ρ ε β}
    (h : Relies exec R G Q (fun e t => Relies exec R G (fun _ u => E e u) E cleanup t) x s)
    (hE : ∀ e t u, E e t → R t u → E e u) : Relies exec R G Q E (x.onRaise cleanup) s := by
  induction x generalizing s with
  | ret a => exact h
  | raise e =>
    refine Relies.bind ((h s (Std.Refl.refl s)).mono (fun _ t ht u hu => hE e t u ht hu)
      fun _ _ he => he)
  | stmt m next ih => exact fun t ht => ⟨(h t ht).1, ih _ (h t ht).2⟩

/-- Every value that the program may return has the property. -/
def Returns (P : α → Prop) : Prog μ ρ ε α → Prop
  | .ret a => P a
  | .raise _ => True
  | .stmt _ next => ∀ r, Returns P (next r)

theorem returns_issue_bind {P : β → Prop} {m : μ} {f : ρ m → Prog μ ρ ε β} :
    (issue m >>= f).Returns P ↔ ∀ r, (f r).Returns P := Iff.rfl

/-- A program whose statements keep to the guarantee wherever they are executed. -/
theorem Relies.of_returns {P : μ → Prop} {P' : α → Prop} (hP : ∀ m t, P m → G m t) (h : x.All P)
    (hr : x.Returns P') (s : σ) : Relies exec R G (fun a _ => P' a) (fun _ _ => True) x s := by
  induction x generalizing s with
  | ret a => exact fun _ _ => hr
  | raise e => exact fun _ _ => trivial
  | stmt m next ih => exact fun t _ => ⟨hP m t h.1, ih _ (h.2 _) (hr _) _⟩

theorem Relies.of_all {P : μ → Prop} (hP : ∀ m t, P m → G m t) (h : x.All P) (s : σ) :
    Relies exec R G (fun _ _ => True) (fun _ _ => True) x s := by
  induction x generalizing s with
  | ret a => exact fun _ _ => trivial
  | raise e => exact fun _ _ => trivial
  | stmt m next ih => exact fun t _ => ⟨hP m t h.1, ih _ (h.2 _) _⟩

/-- What the program does as a whole is a step that the others rely on. -/
theorem Relies.whole [Std.Refl R] [IsTrans σ R] (hG : ∀ m s, G m s → R s (exec m s).2)
    (h : Relies exec R G Q E x s) :
    Relies exec R G (fun a t => Q a t ∧ R s t) (fun e t => E e t ∧ R s t) x s := by
  suffices hall : ∀ t, R s t → Relies exec R G Q E x t →
      Relies exec R G (fun a u => Q a u ∧ R s u) (fun e u => E e u ∧ R s u) x t from
    hall s (Std.Refl.refl s) h
  clear h
  induction x with
  | ret a => exact fun t hst h u htu => ⟨h u htu, IsTrans.trans _ _ _ hst htu⟩
  | raise e => exact fun t hst h u htu => ⟨h u htu, IsTrans.trans _ _ _ hst htu⟩
  | stmt m next ih =>
    intro t hst h u htu
    obtain ⟨hm, hnext⟩ := h u htu
    exact ⟨hm, ih _ _ (IsTrans.trans _ _ _ hst (IsTrans.trans _ _ _ htu (hG m u hm))) hnext⟩

variable (exec) in
/-- The program after its next statement, and the state. -/
def forward : Prog μ ρ ε α → σ → Prog μ ρ ε α × σ
  | .stmt m next, s => (next (exec m s).1, (exec m s).2)
  | x, s => (x, s)

theorem Relies.forward [Std.Refl R] (h : Relies exec R G Q E x s) :
    Relies exec R G Q E (x.forward exec s).1 (x.forward exec s).2 := by
  cases x with
  | ret a => exact h
  | raise e => exact h
  | stmt m next => exact (h s (Std.Refl.refl s)).2

/-! ### Programs over a part of the state -/

section Lift

variable {ν : Type} {ρ' : ν → Type} {σ' : Type} (f : μ → ν) (g : (m : μ) → ρ' (f m) → ρ m)

/-- The program over more statements. -/
def lift : Prog μ ρ ε α → Prog ν ρ' ε α
  | .ret a => .ret a
  | .raise e => .raise e
  | .stmt m next => .stmt (f m) fun r => lift (next (g m r))

variable {f g}

theorem All.lift {P : μ → Prop} {P' : ν → Prop} (hP : ∀ m, P m → P' (f m)) (h : x.All P) :
    (x.lift f g).All P' := by
  induction x with
  | ret a => trivial
  | raise e => trivial
  | stmt m next ih => exact ⟨hP m h.1, fun r => ih _ (h.2 _)⟩

/-- What a program ensures over its part of the state, it ensures over the whole. -/
theorem Relies.lift {exec' : (m : ν) → σ' → ρ' m × σ'} {R' : σ' → σ' → Prop} {G' : ν → σ' → Prop}
    (part : σ' → σ)
    (hexec : ∀ m t, g m (exec' (f m) t).1 = (exec m (part t)).1 ∧
      part (exec' (f m) t).2 = (exec m (part t)).2)
    (hR : ∀ s t, R' s t → R (part s) (part t)) (hG : ∀ m t, G m (part t) → G' (f m) t) {s : σ'}
    (h : Relies exec R G Q E x (part s)) :
    Relies exec' R' G' (fun a t => Q a (part t)) (fun e t => E e (part t)) (x.lift f g) s := by
  induction x generalizing s with
  | ret a => exact fun t ht => h _ (hR s t ht)
  | raise e => exact fun t ht => h _ (hR s t ht)
  | stmt m next ih =>
    intro t ht
    obtain ⟨hm, hnext⟩ := h _ (hR s t ht)
    refine ⟨hG m t hm, ?_⟩
    dsimp only
    rw [(hexec m t).1]
    exact ih _ (by rwa [(hexec m t).2])

end Lift

/-! ### What a process is told -/

section Told

variable {τ : Type} (f : (m : μ) → ρ m → Option τ)

variable (exec) in
/-- What the program is told by the answer to its next statement. -/
def told : Prog μ ρ ε α → σ → Option τ
  | .stmt m _, s => f m (exec m s).1
  | _, _ => none

variable (exec) in
/-- Statements that keep a record of what the process has been told. -/
def execTold (m : μ) (s : σ × List τ) : ρ m × σ × List τ :=
  ((exec m s.1).1, (exec m s.1).2, s.2 ++ (f m (exec m s.1).1).toList)

/-- The others leave that record alone. -/
def RelyTold (R : σ → σ → Prop) (s t : σ × List τ) : Prop := R s.1 t.1 ∧ s.2 = t.2

instance [Std.Refl R] : Std.Refl (@RelyTold σ τ R) := ⟨fun s => ⟨Std.Refl.refl s.1, rfl⟩⟩

instance [IsTrans σ R] : IsTrans (σ × List τ) (RelyTold R) :=
  ⟨fun s t u hst htu => ⟨IsTrans.trans s.1 t.1 u.1 hst.1 htu.1, hst.2.trans htu.2⟩⟩

variable {f}

theorem forward_execTold (x : Prog μ ρ ε α) (s : σ) (l : List τ) :
    x.forward (execTold exec f) (s, l) =
      ((x.forward exec s).1, (x.forward exec s).2, l ++ (x.told exec f s).toList) := by
  cases x with
  | ret a => simp only [Prog.forward, Prog.told, Option.toList_none, List.append_nil]
  | raise e => simp only [Prog.forward, Prog.told, Option.toList_none, List.append_nil]
  | stmt m next => rfl

/-- A program whose statements tell nothing leaves the record as it was. -/
theorem Relies.told {P : μ → Prop} (hf : ∀ m r, P m → f m r = none) (hx : x.All P)
    (h : Relies exec R G Q E x s) (l : List τ) :
    Relies (execTold exec f) (RelyTold R) (fun m t => G m t.1) (fun a t => Q a t.1 ∧ t.2 = l)
      (fun e t => E e t.1 ∧ t.2 = l) x (s, l) := by
  induction x generalizing s with
  | ret a => exact fun t ht => ⟨h t.1 ht.1, ht.2.symm⟩
  | raise e => exact fun t ht => ⟨h t.1 ht.1, ht.2.symm⟩
  | stmt m next ih =>
    rintro ⟨t, l'⟩ ⟨hst, rfl⟩
    obtain ⟨hm, hnext⟩ := h t hst
    refine ⟨hm, ?_⟩
    have hsame : (execTold exec f m (t, l)).2 = ((exec m t).2, l) := by
      simp only [execTold, hf m _ hx.1, Option.toList_none, List.append_nil]
    rw [hsame]
    exact ih _ (hx.2 _) hnext

end Told

/-! ### What follows a statement -/

/-- Every statement of the program has the property together with what follows it. -/
def AllNext (P : (m : μ) → (ρ m → Prog μ ρ ε α) → Prop) : Prog μ ρ ε α → Prop
  | .ret _ => True
  | .raise _ => True
  | .stmt m next => P m next ∧ ∀ r, AllNext P (next r)

/-- A program goes on with another one where each of its statements does. -/
theorem AllNext.bind {P : (m : μ) → (ρ m → Prog μ ρ ε α) → Prop}
    {P' : (m : μ) → (ρ m → Prog μ ρ ε β) → Prop} {f : α → Prog μ ρ ε β} (h : AllNext P x)
    (hP : ∀ m next, P m next → P' m fun r => next r >>= f) (hf : ∀ a, AllNext P' (f a)) :
    AllNext P' (x >>= f) := by
  change AllNext P' (Prog.bind x f)
  induction x with
  | ret a => exact hf a
  | raise e => trivial
  | stmt m next ih => exact ⟨hP m next h.1, fun r => ih r (h.2 r)⟩

/-- A part of a program in which nothing has to be shown of what follows. -/
theorem AllNext.after {P : μ → Prop} {P' : (m : μ) → (ρ m → Prog μ ρ ε β) → Prop}
    {Q : α → Prop} {f : α → Prog μ ρ ε β} (h : x.All P) (hr : x.Returns Q)
    (hP : ∀ m next, P m → P' m next) (hf : ∀ a, Q a → AllNext P' (f a)) : AllNext P' (x >>= f) := by
  change AllNext P' (Prog.bind x f)
  induction x with
  | ret a => exact hf a hr
  | raise e => trivial
  | stmt m next ih => exact ⟨hP m _ h.1, fun r => ih r (h.2 r) (hr r)⟩

theorem returns_true (x : Prog μ ρ ε α) : x.Returns fun _ => True := by
  induction x with
  | ret a => trivial
  | raise e => trivial
  | stmt m next ih => exact ih

theorem All.allNext {P : μ → Prop} {P' : (m : μ) → (ρ m → Prog μ ρ ε α) → Prop} (h : x.All P)
    (hP : ∀ m next, P m → P' m next) : AllNext P' x := by
  induction x with
  | ret a => trivial
  | raise e => trivial
  | stmt m next ih => exact ⟨hP m _ h.1, fun r => ih r (h.2 r)⟩

theorem AllNext.forward {P : (m : μ) → (ρ m → Prog μ ρ ε α) → Prop} (h : AllNext P x) :
    AllNext P (x.forward exec s).1 := by
  cases x with
  | ret a => trivial
  | raise e => trivial
  | stmt m next => exact h.2 _

/-! ### How long a program is -/

/-- The program ends after at most `n` statements. -/
def EndsIn : ℕ → Prog μ ρ ε α → Prop
  | _, .ret _ => True
  | _, .raise _ => True
  | 0, .stmt _ _ => False
  | n + 1, .stmt _ next => ∀ r, EndsIn n (next r)

theorem endsIn_pure (n : ℕ) (a : α) : EndsIn n (Pure.pure a : Prog μ ρ ε α) := by
  cases n <;> trivial

theorem endsIn_raise (n : ℕ) (e : ε) : EndsIn n (raise e : Prog μ ρ ε α) := by
  cases n <;> trivial

theorem endsIn_issue (m : μ) : EndsIn 1 (issue m : Prog μ ρ ε (ρ m)) := fun r => endsIn_pure 0 r

theorem isDone_of_endsIn (h : EndsIn 0 x) : x.isDone = true := by
  cases x with
  | ret a => rfl
  | raise e => rfl
  | stmt m next => exact h.elim

theorem EndsIn.mono {n k : ℕ} (h : EndsIn n x) (hnk : n ≤ k) : EndsIn k x := by
  induction x generalizing n k with
  | ret a => exact endsIn_pure k a
  | raise e => exact endsIn_raise k e
  | stmt m next ih =>
    cases n with
    | zero => exact h.elim
    | succ n =>
      obtain ⟨k, rfl⟩ := Nat.exists_eq_add_of_le' (by omega : 1 ≤ k)
      exact fun r => ih r (h r) (by omega)

theorem EndsIn.bind {f : α → Prog μ ρ ε β} {n k : ℕ} (h : EndsIn n x) (hf : ∀ a, EndsIn k (f a)) :
    EndsIn (n + k) (x >>= f) := by
  change EndsIn (n + k) (Prog.bind x f)
  induction x generalizing n with
  | ret a => exact (hf a).mono (by omega)
  | raise e => exact endsIn_raise _ e
  | stmt m next ih =>
    cases n with
    | zero => exact h.elim
    | succ n =>
      rw [Nat.succ_add]
      exact fun r => ih r (h r)

theorem EndsIn.ite {c : Prop} [Decidable c] {x y : Prog μ ρ ε α} {n : ℕ} (hx : EndsIn n x)
    (hy : EndsIn n y) : EndsIn n (if c then x else y) := by
  split_ifs
  · exact hx
  · exact hy

theorem EndsIn.onRaise {cleanup : Prog μ ρ ε β} {n k : ℕ} (h : EndsIn n x) (hc : EndsIn k cleanup) :
    EndsIn (n + k) (x.onRaise cleanup) := by
  induction x generalizing n with
  | ret a => exact endsIn_pure _ a
  | raise e =>
    have hall : EndsIn (k + 0) (cleanup >>= fun _ => (raise e : Prog μ ρ ε α)) :=
      hc.bind fun _ => endsIn_raise 0 e
    exact hall.mono (by omega)
  | stmt m next ih =>
    cases n with
    | zero => exact h.elim
    | succ n =>
      rw [Nat.succ_add]
      exact fun r => ih r (h r)

theorem EndsIn.forward {n : ℕ} (h : EndsIn (n + 1) x) : EndsIn n (x.forward exec s).1 := by
  cases x with
  | ret a => exact endsIn_pure n a
  | raise e => exact endsIn_raise n e
  | stmt m next => exact h _

theorem EndsIn.lift {ν : Type} {ρ' : ν → Type} {f : μ → ν} {g : (m : μ) → ρ' (f m) → ρ m} {n : ℕ}
    (h : EndsIn n x) : EndsIn n (x.lift f g) := by
  induction x generalizing n with
  | ret a => exact endsIn_pure n a
  | raise e => exact endsIn_raise n e
  | stmt m next ih =>
    cases n with
    | zero => exact h.elim
    | succ n => exact fun r => ih _ (h _)

end Prog

/-! ### Pools -/

/-- The turn gives the process something else to do, or ends it. -/
def Turn.Replaces {κ : Type} (i : ℕ) : Turn κ → Prop
  | .call j _ => j = i
  | .die j => j = i
  | .next _ => False

instance {κ : Type} (i : ℕ) : (t : Turn κ) → Decidable (t.Replaces i)
  | .call j _ => inferInstanceAs (Decidable (j = i))
  | .die j => inferInstanceAs (Decidable (j = i))
  | .next _ => inferInstanceAs (Decidable False)

/-- The turn is one in which the process goes on. -/
def Turn.isNext {κ : Type} (i : ℕ) : Turn κ → Bool
  | .next j => j = i
  | _ => false

namespace Pool

open Prog

variable {μ : Type} {ρ : μ → Type} {ε α σ κ : Type} {exec : (m : μ) → σ → ρ m × σ}
  {prog : κ → Prog μ ρ ε α} {R : σ → σ → Prop} {G : μ → σ → Prop} {Q : α → σ → Prop}
  {E : ε → σ → Prop}

variable (exec R G) in
/-- Every process keeps to its guarantee. -/
def Relied (p : Pool μ ρ ε α σ) : Prop :=
  ∀ i, ∀ q ∈ p.procs i, q.Relies exec R G (fun _ _ => True) (fun _ _ => True) p.shared

/-- What a process executes is a step that the others rely on. -/
theorem Relied.shared [Std.Refl R] (hG : ∀ m s, G m s → R s (exec m s).2) {p : Pool μ ρ ε α σ}
    (h : p.Relied exec R G) (t : Turn κ) : R p.shared (step exec prog p t).shared := by
  cases t with
  | call i c =>
    rw [Pool.step]
    split_ifs <;> exact Std.Refl.refl _
  | die i => exact Std.Refl.refl _
  | next i =>
    rw [Pool.step]
    split
    · rename_i m next hi
      exact hG m _ (h i _ hi p.shared (Std.Refl.refl _)).1
    · exact Std.Refl.refl _

/-- A turn of another process leaves the process where it is. -/
theorem procs_step_of_ne {p : Pool μ ρ ε α σ} {t : Turn κ} {i : ℕ} (ht : ¬ t.Replaces i)
    (hi : t.isNext i = false) : (step exec prog p t).procs i = p.procs i := by
  cases t with
  | call j c =>
    rw [Pool.step]
    split_ifs
    · exact Function.update_of_ne (fun h => ht h.symm) _ _
    · rfl
  | die j => exact Function.update_of_ne (fun h => ht h.symm) _ _
  | next j =>
    have hne : i ≠ j := fun h => by simp [Turn.isNext, h] at hi
    rw [Pool.step]
    split
    · exact Function.update_of_ne hne _ _
    · rfl

variable (exec prog) in
/-- A turn of the process. -/
theorem step_next {p : Pool μ ρ ε α σ} {i : ℕ} {q : Prog μ ρ ε α} (hi : p.procs i = some q) :
    (step exec prog p (Turn.next i : Turn κ)).procs i = some (q.forward exec p.shared).1 ∧
      (step exec prog p (Turn.next i : Turn κ)).shared = (q.forward exec p.shared).2 := by
  cases q with
  | ret a => exact ⟨by rw [Pool.step, hi]; exact hi, by rw [Pool.step, hi]; rfl⟩
  | raise e => exact ⟨by rw [Pool.step, hi]; exact hi, by rw [Pool.step, hi]; rfl⟩
  | stmt m next =>
    have hstep : step exec prog p (Turn.next i : Turn κ) =
        { shared := (exec m p.shared).2
          procs := Function.update p.procs i (some (next (exec m p.shared).1)) } := by
      rw [Pool.step, hi]
    rw [hstep]
    exact ⟨Function.update_self _ _ _, rfl⟩

variable (exec prog) in
/-- A process that a turn does not replace stays where it is, or executes a statement. -/
theorem procs_step {p : Pool μ ρ ε α σ} {t : Turn κ} {i : ℕ} (ht : ¬ t.Replaces i)
    {q : Prog μ ρ ε α} (hi : p.procs i = some q) :
    (t.isNext i = false ∧ (step exec prog p t).procs i = some q) ∨
      (t.isNext i = true ∧ (step exec prog p t).procs i = some (q.forward exec p.shared).1 ∧
        (step exec prog p t).shared = (q.forward exec p.shared).2) := by
  cases hnext : t.isNext i with
  | false => exact Or.inl ⟨rfl, (procs_step_of_ne ht hnext).trans hi⟩
  | true =>
    cases t with
    | call j c => cases hnext
    | die j => cases hnext
    | next j =>
      obtain rfl : j = i := by simpa [Turn.isNext] using hnext
      exact Or.inr ⟨rfl, step_next exec prog hi⟩

section Told

variable {τ : Type} (f : (m : μ) → ρ m → Option τ)

variable (exec) in
/-- What a turn tells the process. -/
def told (p : Pool μ ρ ε α σ) (i : ℕ) (t : Turn κ) : Option τ :=
  if t.isNext i then (p.procs i).bind fun q => q.told exec f p.shared else none

variable (exec prog) in
/-- What a run tells the process from the turn `j` on, before the turn `k`. -/
def toldFrom (p : Pool μ ρ ε α σ) (turns : List (Turn κ)) (i j k : ℕ) : List τ :=
  (List.range' j (k - j)).filterMap fun l =>
    turns[l]?.bind (told exec f (Run.stateAt (step exec prog) p turns l) i)

variable {f}

theorem toldFrom_self (p : Pool μ ρ ε α σ) (turns : List (Turn κ)) (i j : ℕ) :
    toldFrom exec prog f p turns i j j = [] := by
  rw [toldFrom, Nat.sub_self]
  rfl

theorem toldFrom_succ (p : Pool μ ρ ε α σ) (turns : List (Turn κ)) (i : ℕ) {j k : ℕ} (hjk : j ≤ k) :
    toldFrom exec prog f p turns i j (k + 1) = toldFrom exec prog f p turns i j k ++
      (turns[k]?.bind (told exec f (Run.stateAt (step exec prog) p turns k) i)).toList := by
  have hrange : List.range' j (k + 1 - j) = List.range' j (k - j) ++ [k] := by
    rw [Nat.succ_sub hjk, List.range'_1_concat, Nat.add_sub_cancel' hjk]
  rw [toldFrom, hrange, List.filterMap_append, ← toldFrom]
  congr 1

/-- A process that a turn does not replace goes on as it should, by what the turn tells it. -/
theorem Relied.proc [Std.Refl R] [IsTrans σ R] (hG : ∀ m s, G m s → R s (exec m s).2)
    {p : Pool μ ρ ε α σ} (h : p.Relied exec R G) {t : Turn κ} {i : ℕ} (ht : ¬ t.Replaces i)
    {q : Prog μ ρ ε α} (hi : p.procs i = some q) {l : List τ}
    {Q : α → σ × List τ → Prop} {E : ε → σ × List τ → Prop}
    (hq : q.Relies (execTold exec f) (RelyTold R) (fun m t => G m t.1) Q E (p.shared, l)) :
    ∃ q', (step exec prog p t).procs i = some q' ∧
      q'.Relies (execTold exec f) (RelyTold R) (fun m t => G m t.1) Q E
        ((step exec prog p t).shared, l ++ (told exec f p i t).toList) := by
  rcases procs_step exec prog ht hi with ⟨hnext, hproc⟩ | ⟨hnext, hproc, hshared⟩
  · refine ⟨q, hproc, hq.step ⟨h.shared hG t, ?_⟩⟩
    rw [told, hnext]
    exact (List.append_nil l).symm
  · refine ⟨_, hproc, ?_⟩
    have hforward := hq.forward
    rw [forward_execTold] at hforward
    rw [hshared, told, hnext, if_pos rfl, hi]
    exact hforward

end Told

/-- What the programs start with, keep by their own statements and do not lose by those of the
others holds of every process after a turn. -/
theorem each_step {S : Prog μ ρ ε α → σ → Prop}
    (hown : ∀ q s, S q s → S (q.forward exec s).1 (q.forward exec s).2) {p : Pool μ ρ ε α σ}
    {t : Turn κ} (hothers : ∀ q, S q p.shared → S q (Pool.step exec prog p t).shared)
    (hprog : ∀ c s, S (prog c) s) (h : ∀ i, ∀ q ∈ p.procs i, S q p.shared) :
    ∀ i, ∀ q ∈ (Pool.step exec prog p t).procs i, S q (Pool.step exec prog p t).shared := by
  intro i q hq
  cases ht : t.isNext i with
  | true =>
    cases t with
    | call j c => cases ht
    | die j => cases ht
    | next j =>
      obtain rfl : j = i := by simpa [Turn.isNext] using ht
      cases hi : p.procs j with
      | none =>
        rw [Pool.step, hi] at hq
        exact absurd (hi.symm.trans hq) (by simp)
      | some q₀ =>
        obtain ⟨hproc, hshared⟩ := step_next exec prog hi
        rw [hproc] at hq
        exact hshared ▸ Option.mem_some_iff.1 hq ▸ hown q₀ _ (h j q₀ hi)
  | false =>
    by_cases hr : t.Replaces i
    · cases t with
      | call j c =>
        obtain rfl : j = i := hr
        rw [Pool.step] at hq ⊢
        split_ifs at hq ⊢ with hdone
        · have hsame : q = prog c := by simpa using hq.symm
          exact hsame ▸ hprog c _
        · exact h j q hq
      | die j =>
        obtain rfl : j = i := hr
        simp [Pool.step] at hq
      | next j => exact hr.elim
    · rw [procs_step_of_ne hr ht] at hq
      exact hothers q (h i q hq)

theorem Relied.step [Std.Refl R] [IsTrans σ R] (hG : ∀ m s, G m s → R s (exec m s).2)
    (hprog : ∀ c s, (prog c).Relies exec R G (fun _ _ => True) (fun _ _ => True) s)
    {p : Pool μ ρ ε α σ} (h : p.Relied exec R G) (t : Turn κ) :
    (Pool.step exec prog p t).Relied exec R G :=
  each_step (S := fun q s => q.Relies exec R G (fun _ _ => True) (fun _ _ => True) s)
    (fun _ _ hq => hq.forward) (fun _ hq => hq.step (h.shared hG t)) hprog h

/-! ### Runs of a pool -/

section Runs

variable [Std.Refl R] [IsTrans σ R] {p : Pool μ ρ ε α σ} {turns : List (Turn κ)}

/-- **In every run every process keeps to its guarantee.** -/
theorem Relied.stateAt (hG : ∀ m s, G m s → R s (exec m s).2)
    (hprog : ∀ c s, (prog c).Relies exec R G (fun _ _ => True) (fun _ _ => True) s)
    (h : p.Relied exec R G) (k : ℕ) :
    (Run.stateAt (Pool.step exec prog) p turns k).Relied exec R G := by
  induction k with
  | zero => exact h
  | succ k ih =>
    by_cases hk : k < turns.length
    · rw [Run.stateAt_succ hk]
      exact ih.step hG hprog _
    · rw [Run.stateAt_of_length_le (by omega)]
      exact ih

/-- What follows a statement in the programs that are called follows it in every process. -/
theorem allNext_stateAt {P : (m : μ) → (ρ m → Prog μ ρ ε α) → Prop}
    (hprog : ∀ c, (prog c).AllNext P) (h : ∀ i, ∀ q ∈ p.procs i, q.AllNext P) (k : ℕ) :
    ∀ i, ∀ q ∈ (Run.stateAt (Pool.step exec prog) p turns k).procs i, q.AllNext P := by
  induction k with
  | zero => exact h
  | succ k ih =>
    by_cases hk : k < turns.length
    · rw [Run.stateAt_succ hk]
      exact each_step (S := fun q _ => q.AllNext P) (fun _ _ hq => hq.forward) (fun _ hq => hq)
        (fun c _ => hprog c) ih
    · rw [Run.stateAt_of_length_le (by omega)]
      exact ih

/-- Over a run the shared state changes by steps that everyone relies on. -/
theorem Relied.shared_le (hG : ∀ m s, G m s → R s (exec m s).2)
    (hprog : ∀ c s, (prog c).Relies exec R G (fun _ _ => True) (fun _ _ => True) s)
    (h : p.Relied exec R G) {j k : ℕ} (hjk : j ≤ k) :
    R (Run.stateAt (Pool.step exec prog) p turns j).shared
      (Run.stateAt (Pool.step exec prog) p turns k).shared := by
  induction k, hjk using Nat.le_induction with
  | base => exact Std.Refl.refl _
  | succ k _ ih =>
    by_cases hk : k < turns.length
    · rw [Run.stateAt_succ hk]
      exact IsTrans.trans _ _ _ ih ((h.stateAt hG hprog k).shared hG _)
    · rw [Run.stateAt_of_length_le (by omega)]
      exact ih

omit [Std.Refl R] [IsTrans σ R] in
/-- A process stays where it is while it has no turn. -/
theorem procs_stay {i j k : ℕ} (hjk : j ≤ k)
    (hown : ∀ l, j ≤ l → l < k → ∀ t ∈ turns[l]?, ¬ t.Replaces i ∧ t.isNext i = false) :
    (Run.stateAt (Pool.step exec prog) p turns k).procs i =
      (Run.stateAt (Pool.step exec prog) p turns j).procs i := by
  induction k, hjk using Nat.le_induction with
  | base => rfl
  | succ k hjk ih =>
    by_cases hk : k < turns.length
    · obtain ⟨hr, hn⟩ := hown k hjk (by omega) turns[k] (by simp [hk])
      rw [Run.stateAt_succ hk, procs_step_of_ne hr hn]
      exact ih fun l hjl hlk => hown l hjl (by omega)
    · rw [Run.stateAt_of_length_le (by omega)]
      exact ih fun l hjl hlk => hown l hjl (by omega)

/-- **A process that is not replaced goes on as it should**, by what the run tells it. -/
theorem Relied.follow {τ : Type} {f : (m : μ) → ρ m → Option τ}
    (hG : ∀ m s, G m s → R s (exec m s).2)
    (hprog : ∀ c s, (prog c).Relies exec R G (fun _ _ => True) (fun _ _ => True) s)
    (h : p.Relied exec R G) {i j k : ℕ} (hjk : j ≤ k)
    (hown : ∀ l, j ≤ l → l < k → ∀ t ∈ turns[l]?, ¬ t.Replaces i) {q : Prog μ ρ ε α}
    {Q : α → σ × List τ → Prop} {E : ε → σ × List τ → Prop}
    (hq : (Run.stateAt (Pool.step exec prog) p turns j).procs i = some q)
    (hrel : q.Relies (execTold exec f) (RelyTold R) (fun m t => G m t.1) Q E
      ((Run.stateAt (Pool.step exec prog) p turns j).shared, [])) :
    ∃ q', (Run.stateAt (Pool.step exec prog) p turns k).procs i = some q' ∧
      q'.Relies (execTold exec f) (RelyTold R) (fun m t => G m t.1) Q E
        ((Run.stateAt (Pool.step exec prog) p turns k).shared,
          toldFrom exec prog f p turns i j k) := by
  induction k, hjk using Nat.le_induction with
  | base => exact ⟨q, hq, by rwa [toldFrom_self]⟩
  | succ k hjk ih =>
    obtain ⟨q', hq', hrel'⟩ := ih fun l hjl hlk => hown l hjl (by omega)
    rw [toldFrom_succ p turns i hjk]
    by_cases hk : k < turns.length
    · rw [Run.stateAt_succ hk, List.getElem?_eq_getElem hk]
      exact (h.stateAt hG hprog k).proc hG (hown k hjk (by omega) turns[k] (by simp [hk])) hq' hrel'
    · rw [Run.stateAt_of_length_le (by omega), List.getElem?_eq_none (by omega)]
      exact ⟨q', hq', by rwa [Option.bind_none, Option.toList_none, List.append_nil]⟩

omit [Std.Refl R] [IsTrans σ R] in
/-- A process that is not replaced ends after as many turns of its own as it has statements. -/
theorem exists_rest {i j k : ℕ} (hjk : j ≤ k)
    (hown : ∀ l, j ≤ l → l < k → ∀ t ∈ turns[l]?, ¬ t.Replaces i) {q : Prog μ ρ ε α}
    (hq : (Run.stateAt (Pool.step exec prog) p turns j).procs i = some q) :
    ∃ q', (Run.stateAt (Pool.step exec prog) p turns k).procs i = some q' ∧
      ∀ n, q.EndsIn (n + ((turns.take k).drop j).countP (Turn.isNext i)) → q'.EndsIn n := by
  induction k, hjk using Nat.le_induction with
  | base => exact ⟨q, hq, fun n hn => by simpa using hn⟩
  | succ k hjk ih =>
    obtain ⟨q', hq', hends⟩ := ih fun l hjl hlk => hown l hjl (by omega)
    by_cases hk : k < turns.length
    · have hcount : ((turns.take (k + 1)).drop j).countP (Turn.isNext i) =
          ((turns.take k).drop j).countP (Turn.isNext i) + if turns[k].isNext i then 1 else 0 := by
        rw [List.take_succ_eq_append_getElem hk,
          List.drop_append_of_le_length (by rw [List.length_take]; omega), List.countP_append,
          List.countP_singleton]
      rw [Run.stateAt_succ hk, hcount]
      rcases procs_step exec prog (hown k hjk (by omega) turns[k] (by simp [hk])) hq' with
        ⟨hnext, hproc⟩ | ⟨hnext, hproc, -⟩
      · exact ⟨q', hproc, fun n hn => hends n (hn.mono (by rw [hnext]; simp))⟩
      · refine ⟨_, hproc, fun n hn => EndsIn.forward (hends (n + 1) (hn.mono ?_))⟩
        rw [hnext, if_pos rfl]
        omega
    · rw [Run.stateAt_of_length_le (by omega)]
      refine ⟨q', hq', fun n hn => hends n ?_⟩
      rwa [List.take_of_length_le (by omega : turns.length ≤ k + 1),
        ← List.take_of_length_le (by omega : turns.length ≤ k)] at hn

end Runs

end Pool

end Shiroe

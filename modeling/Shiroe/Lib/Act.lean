import Mathlib.Data.List.Forall2

/-!
# Computations over a state that may raise

`Act ε σ α` is a computation over a state `σ` that returns an `α` or raises an `ε`.  What was
written before an exception stays written, as in a Python method that changes its object and then
raises.  `Act.wp x Q E s` says that `x` started in `s` ends with `Q` when it returns and with `E`
when it raises; the simp set computes it along the `do` block of `x`.

* `Act.wp_bind`, `Act.wp_mono`, `Act.wp_forM` : the rules for sequences, consequence and loops;
* `Act.Keeps`, `Act.Leaves` : invariants and frames, with a rule for each way to build a
  computation;
* `Act.zoom` : a computation on one part of a state;
* `Act.catching` : an exception handler.
-/

namespace Shiroe

/-- A computation over a state `σ` that returns an `α` or raises an `ε`. -/
abbrev Act (ε σ α : Type) := EStateM ε σ α

namespace Act

variable {ε σ τ α β : Type}

/-- The state a computation leaves, whether it returns or raises. -/
def final (x : Act ε σ α) (s : σ) : σ :=
  match x s with
  | .ok _ s' => s'
  | .error _ s' => s'

/-- What a computation returns, if it returns. -/
def result? (x : Act ε σ α) (s : σ) : Option α :=
  match x s with
  | .ok a _ => some a
  | .error _ _ => none

/-- What a computation returns or raises. -/
def outcome (x : Act ε σ α) (s : σ) : Except ε α :=
  match x s with
  | .ok a _ => .ok a
  | .error e _ => .error e

/-- `x` started in `s` ends with `Q` if it returns and with `E` if it raises. -/
def wp (x : Act ε σ α) (Q : α → σ → Prop) (E : ε → σ → Prop) (s : σ) : Prop :=
  match x s with
  | .ok a s' => Q a s'
  | .error e s' => E e s'

/-- Read off a value computed without the state. -/
def ofExcept : Except ε α → Act ε σ α
  | .ok a => pure a
  | .error e => throw e

/-- Run a computation on one part of the state. -/
def zoom (get : σ → τ) (set : τ → σ → σ) (x : Act ε τ α) : Act ε σ α := fun s =>
  match x (get s) with
  | .ok a t => .ok a (set t s)
  | .error e t => .error e (set t s)

/-- `try: x except …: h e`, for the exceptions that `p` selects. -/
def catching (p : ε → Bool) (x : Act ε σ α) (h : ε → Act ε σ α) : Act ε σ α := fun s =>
  match x s with
  | .ok a s' => .ok a s'
  | .error e s' => if p e then h e s' else .error e s'

/-- A sequence of fallible steps returns when each of them does. -/
theorem except_bind_eq_ok {x : Except ε β} {f : β → Except ε α} {a : α} :
    (x >>= f) = .ok a ↔ ∃ b, x = .ok b ∧ f b = .ok a := by
  cases x with
  | ok b => exact ⟨fun h => ⟨b, rfl, h⟩, by rintro ⟨b', hb, h⟩; cases hb; exact h⟩
  | error e => exact ⟨fun h => (by cases h), by rintro ⟨b', hb, -⟩; cases hb⟩

/-- A list is mapped when each of its items is. -/
theorem except_mapM_eq_ok {f : α → Except ε β} {l : List α} {bs : List β} :
    l.mapM f = .ok bs ↔ List.Forall₂ (fun a b => f a = .ok b) l bs := by
  induction l generalizing bs with
  | nil =>
    rw [List.mapM_nil, List.forall₂_nil_left_iff]
    exact ⟨fun h => (Except.ok.inj h).symm, fun h => h ▸ rfl⟩
  | cons a l ih =>
    rw [List.mapM_cons, except_bind_eq_ok, List.forall₂_cons_left_iff]
    constructor
    · rintro ⟨b, hb, h⟩
      obtain ⟨bs', hbs, h⟩ := except_bind_eq_ok.1 h
      exact ⟨b, bs', hb, ih.1 hbs, (Except.ok.inj h).symm⟩
    · rintro ⟨b, bs', hb, hbs, rfl⟩
      exact ⟨b, hb, except_bind_eq_ok.2 ⟨bs', ih.2 hbs, rfl⟩⟩

/-- What each step of a fallible fold keeps, the fold keeps. -/
theorem except_foldlM_keeps {I : β → Prop} {f : β → α → Except ε β} {l : List α}
    (hf : ∀ b, ∀ a ∈ l, ∀ b', I b → f b a = .ok b' → I b') {b b' : β} (hI : I b)
    (h : l.foldlM f b = .ok b') : I b' := by
  induction l generalizing b with
  | nil => exact Except.ok.inj h ▸ hI
  | cons a l ih =>
    rw [List.foldlM_cons] at h
    obtain ⟨c, hc, h⟩ := except_bind_eq_ok.1 h
    exact ih (fun b a ha => hf b a (List.mem_cons_of_mem _ ha))
      (hf b a List.mem_cons_self c hI hc) h

/-- A fallible loop returns when each of its steps does. -/
theorem except_forM_eq_ok {f : α → Except ε Unit} {l : List α} :
    l.forM f = .ok () ↔ ∀ a ∈ l, f a = .ok () := by
  induction l with
  | nil => exact ⟨fun _ a ha => absurd ha List.not_mem_nil, fun _ => rfl⟩
  | cons a l ih =>
    change (f a >>= fun _ => l.forM f) = .ok () ↔ _
    rw [except_bind_eq_ok, List.forall_mem_cons, ← ih]
    exact ⟨fun ⟨_, ha, hl⟩ => ⟨ha, hl⟩, fun ⟨ha, hl⟩ => ⟨(), ha, hl⟩⟩

@[simp] theorem ofExcept_ok_bind (a : β) (f : β → Act ε σ α) :
    ((ofExcept (.ok a) : Act ε σ β) >>= f) = f a := rfl

@[simp] theorem ofExcept_ok_map (a : β) (f : β → α) :
    (f <$> (ofExcept (.ok a) : Act ε σ β)) = pure (f a) := rfl

variable {Q : α → σ → Prop} {E : ε → σ → Prop} {s : σ}

@[simp] theorem wp_pure (a : α) : wp (pure a : Act ε σ α) Q E s ↔ Q a s := Iff.rfl

@[simp] theorem wp_throw (e : ε) : wp (throw e : Act ε σ α) Q E s ↔ E e s := Iff.rfl

@[simp] theorem wp_get {Q : σ → σ → Prop} : wp (get : Act ε σ σ) Q E s ↔ Q s s := Iff.rfl

@[simp] theorem wp_set {Q : Unit → σ → Prop} (s' : σ) :
    wp (set s' : Act ε σ Unit) Q E s ↔ Q () s' := Iff.rfl

@[simp] theorem wp_modify {Q : Unit → σ → Prop} (f : σ → σ) :
    wp (modify f : Act ε σ Unit) Q E s ↔ Q () (f s) := Iff.rfl

@[simp] theorem wp_bind (x : Act ε σ β) (f : β → Act ε σ α) :
    wp (x >>= f) Q E s ↔ wp x (fun b s' => wp (f b) Q E s') E s := by
  simp only [wp, bind, EStateM.bind]
  cases x s <;> rfl

@[simp] theorem wp_map (x : Act ε σ β) (f : β → α) :
    wp (f <$> x) Q E s ↔ wp x (fun b s' => Q (f b) s') E s := by
  simp only [wp, Functor.map, EStateM.map]
  cases x s <;> rfl

@[simp] theorem wp_ite (c : Prop) [Decidable c] (x y : Act ε σ α) :
    wp (if c then x else y) Q E s ↔ (c → wp x Q E s) ∧ (¬ c → wp y Q E s) := by
  by_cases h : c <;> simp [h]

@[simp] theorem wp_ofExcept (r : Except ε α) :
    wp (ofExcept r : Act ε σ α) Q E s ↔
      match r with
      | .ok a => Q a s
      | .error e => E e s := by
  cases r <;> rfl

@[simp] theorem wp_zoom (get : σ → τ) (set : τ → σ → σ) (x : Act ε τ α) :
    wp (zoom get set x) Q E s ↔ wp x (fun a t => Q a (set t s)) (fun e t => E e (set t s))
      (get s) := by
  simp only [wp, zoom]
  cases x (get s) <;> rfl

@[simp] theorem wp_catching (p : ε → Bool) (x : Act ε σ α) (h : ε → Act ε σ α) :
    wp (catching p x h) Q E s ↔
      wp x Q (fun e s' => if p e then wp (h e) Q E s' else E e s') s := by
  simp only [wp, catching]
  cases x s with
  | ok a s' => rfl
  | error e s' => by_cases hp : p e <;> simp [hp]

theorem wp_mono {x : Act ε σ α} {Q Q' : α → σ → Prop} {E E' : ε → σ → Prop}
    (h : wp x Q E s) (hQ : ∀ a s', Q a s' → Q' a s') (hE : ∀ e s', E e s' → E' e s') :
    wp x Q' E' s := by
  unfold wp at h ⊢
  cases hx : x s with
  | ok a s' => rw [hx] at h; exact hQ a s' h
  | error e s' => rw [hx] at h; exact hE e s' h

theorem wp_and {x : Act ε σ α} {Q Q' : α → σ → Prop} {E E' : ε → σ → Prop}
    (h : wp x Q E s) (h' : wp x Q' E' s) :
    wp x (fun a s' => Q a s' ∧ Q' a s') (fun e s' => E e s' ∧ E' e s') s := by
  unfold wp at h h' ⊢
  cases hx : x s with
  | ok a s' => rw [hx] at h h'; exact ⟨h, h'⟩
  | error e s' => rw [hx] at h h'; exact ⟨h, h'⟩

/-- A loop keeps what each of its passes keeps. -/
theorem wp_forM {I : σ → Prop} {f : β → Act ε σ PUnit} {l : List β} (hI : I s)
    (hf : ∀ b ∈ l, ∀ s, I s → wp (f b) (fun _ s' => I s') E s) :
    wp (l.forM f) (fun _ s' => I s') E s := by
  induction l generalizing s with
  | nil => exact hI
  | cons b l ih =>
    change wp (f b >>= fun _ => l.forM f) _ E s
    rw [wp_bind]
    refine wp_mono (hf b (by simp) s hI) (fun _ s' hs' => ?_) (fun _ _ h => h)
    exact ih hs' fun b hb => hf b (by simp [hb])

/-- A loop, by what holds after each part of its list. -/
theorem wp_forM_parts {I : List β → σ → Prop} {f : β → Act ε σ PUnit} {l : List β} (h : I [] s)
    (hf : ∀ pre b post, l = pre ++ b :: post → ∀ s, I pre s →
      wp (f b) (fun _ s' => I (pre ++ [b]) s') E s) :
    wp (l.forM f) (fun _ s' => I l s') E s := by
  suffices H : ∀ pre post, l = pre ++ post → ∀ s, I pre s →
      wp (post.forM f) (fun _ s' => I l s') E s from H [] l rfl s h
  intro pre post
  induction post generalizing pre with
  | nil =>
    intro hl s hI
    rw [hl, List.append_nil]
    exact hI
  | cons b post ih =>
    intro hl s hI
    change wp (f b >>= fun _ => post.forM f) _ E s
    rw [wp_bind]
    refine wp_mono (hf pre b post hl s hI) (fun _ s' hs' => ?_) fun _ _ h => h
    exact ih (pre ++ [b]) (by rw [hl, List.append_assoc]; rfl) s' hs'

/-- `wp_forM_parts` for a loop over the images of a list. -/
theorem wp_forM_map_parts {γ : Type} {I : List β → σ → Prop} {g : β → γ} {f : γ → Act ε σ PUnit}
    {l : List β} (h : I [] s)
    (hf : ∀ pre b post, l = pre ++ b :: post → ∀ s, I pre s →
      wp (f (g b)) (fun _ s' => I (pre ++ [b]) s') E s) :
    wp ((l.map g).forM f) (fun _ s' => I l s') E s := by
  rw [show (l.map g).forM f = l.forM fun b => f (g b) from List.forM_map ..]
  exact wp_forM_parts h hf

/-- What holds at every way out holds of the state left. -/
theorem wp_final {x : Act ε σ α} {I : σ → Prop} (h : wp x (fun _ => I) (fun _ => I) s) :
    I (final x s) := by
  unfold wp at h
  unfold final
  cases hx : x s with
  | ok a s' => rw [hx] at h; exact h
  | error e s' => rw [hx] at h; exact h

theorem wp_of_ok {x : Act ε σ α} {a : α} {s' : σ} (hx : x s = .ok a s') :
    wp x Q E s ↔ Q a s' := by
  rw [wp, hx]

theorem wp_of_error {x : Act ε σ α} {e : ε} {s' : σ} (hx : x s = .error e s') :
    wp x Q E s ↔ E e s' := by
  rw [wp, hx]

theorem final_of_ok {x : Act ε σ α} {a : α} {s' : σ} (hx : x s = .ok a s') : final x s = s' := by
  rw [final, hx]

theorem final_discard (x : Act ε σ β) (s : σ) : final (discard x) s = final x s := by
  simp only [final, Functor.discard, Functor.mapConst, EStateM.map, Function.comp]
  cases x s <;> rfl

/-- A computation that has a result returns. -/
theorem exists_ok {x : Act ε σ α} (h : (result? x s).isSome = true) : ∃ a s', x s = .ok a s' := by
  unfold result? at h
  cases hx : x s with
  | ok a s' => exact ⟨a, s', rfl⟩
  | error e s' => rw [hx] at h; cases h

theorem bind_of_ok {x : Act ε σ β} {f : β → Act ε σ α} {b : β} {s' : σ} (hx : x s = .ok b s') :
    (x >>= f) s = f b s' := by
  simp only [bind, EStateM.bind, hx]

theorem bind_of_error {x : Act ε σ β} {f : β → Act ε σ α} {e : ε} {s' : σ}
    (hx : x s = .error e s') : (x >>= f) s = .error e s' := by
  simp only [bind, EStateM.bind, hx]

/-- Two sequences are the same if their first parts are, and then the second parts are wherever
these lead. -/
theorem bind_congr_of_wp {x y : Act ε σ β} {f g : β → Act ε σ α} {Q : β → σ → Prop}
    (hxy : x s = y s) (hy : wp y Q E s) (h : ∀ b s', Q b s' → f b s' = g b s') :
    (x >>= f) s = (y >>= g) s := by
  unfold wp at hy
  cases hr : y s with
  | ok b s' =>
    rw [hr] at hy
    rw [bind_of_ok (hxy.trans hr), bind_of_ok hr]
    exact h b s' hy
  | error e s' => rw [bind_of_error (hxy.trans hr), bind_of_error hr]

/-- A sequence that returns is a first part that returns and a second one that does. -/
theorem bind_eq_ok {x : Act ε σ β} {f : β → Act ε σ α} {a : α} {s' : σ} :
    (x >>= f) s = .ok a s' ↔ ∃ b s₁, x s = .ok b s₁ ∧ f b s₁ = .ok a s' := by
  cases hx : x s with
  | ok b s₁ =>
    rw [bind_of_ok hx]
    refine ⟨fun h => ⟨b, s₁, rfl, h⟩, ?_⟩
    rintro ⟨b', s₂, hb, h⟩
    cases hb
    exact h
  | error e s₁ =>
    rw [bind_of_error hx]
    refine ⟨fun h => (by cases h), ?_⟩
    rintro ⟨b', s₂, hb, h⟩
    cases hb

/-! ### Invariants and frames -/

/-- `x` keeps `I`, whether it returns or raises. -/
def Keeps (I : σ → Prop) (x : Act ε σ α) : Prop := ∀ s, I s → wp x (fun _ => I) (fun _ => I) s

/-- `x` leaves `f` of the state as it is, whether it returns or raises. -/
def Leaves (f : σ → τ) (x : Act ε σ α) : Prop := ∀ c, Keeps (fun s => f s = c) x

namespace Keeps

variable {I : σ → Prop}

theorem pure (a : α) : Keeps I (Pure.pure a : Act ε σ α) := fun _ h => h

theorem throw (e : ε) : Keeps I (MonadExcept.throw e : Act ε σ α) := fun _ h => h

theorem get : Keeps I (MonadState.get : Act ε σ σ) := fun _ h => h

theorem modify {f : σ → σ} (h : ∀ s, I s → I (f s)) :
    Keeps I (modifyGet (fun s => (PUnit.unit, f s)) : Act ε σ PUnit) := h

theorem ofExcept (r : Except ε α) : Keeps I (Act.ofExcept r) := by
  intro s h
  rw [wp_ofExcept]
  cases r <;> exact h

theorem bind {x : Act ε σ β} {f : β → Act ε σ α} (hx : Keeps I x) (hf : ∀ b, Keeps I (f b)) :
    Keeps I (x >>= f) := by
  intro s h
  rw [wp_bind]
  exact wp_mono (hx s h) (fun b s' h' => hf b s' h') fun _ _ h' => h'

theorem map {x : Act ε σ β} {f : β → α} (hx : Keeps I x) : Keeps I (f <$> x) := by
  intro s h
  rw [wp_map]
  exact hx s h

theorem ite {c : Prop} [Decidable c] {x y : Act ε σ α} (hx : c → Keeps I x)
    (hy : ¬ c → Keeps I y) : Keeps I (if c then x else y) := by
  by_cases h : c
  · rw [if_pos h]
    exact hx h
  · rw [if_neg h]
    exact hy h

theorem catching {p : ε → Bool} {x : Act ε σ α} {h : ε → Act ε σ α} (hx : Keeps I x)
    (hh : ∀ e, Keeps I (h e)) : Keeps I (Act.catching p x h) := by
  intro s hs
  rw [wp_catching]
  refine wp_mono (hx s hs) (fun _ _ h' => h') fun e s' h' => ?_
  split
  · exact hh e s' h'
  · exact h'

theorem forM {f : β → Act ε σ PUnit} {l : List β} (hf : ∀ b ∈ l, Keeps I (f b)) :
    Keeps I (l.forM f) := by
  intro s h
  exact wp_forM (E := fun _ => I) h fun b hb s' h' => hf b hb s' h'

theorem mapM {γ : Type} {f : β → Act ε σ γ} {l : List β} (hf : ∀ b ∈ l, Keeps I (f b)) :
    Keeps I (l.mapM f) := by
  induction l with
  | nil => exact pure _
  | cons b l ih =>
    rw [List.mapM_cons]
    exact (hf b (by simp)).bind fun _ => (ih fun b hb => hf b (by simp [hb])).bind fun _ => pure _

/-- What does not depend on the state is kept. -/
theorem const (c : Prop) (x : Act ε σ α) : Keeps (fun _ => c) x := by
  intro s h
  unfold Act.wp
  cases x s <;> exact h

theorem zoom {J : τ → Prop} {get : σ → τ} {set : τ → σ → σ} {x : Act ε τ α} (hx : Keeps J x)
    (hJ : ∀ s, I s → J (get s)) (hI : ∀ s t, I s → J t → I (set t s)) :
    Keeps I (Act.zoom get set x) := by
  intro s h
  rw [wp_zoom]
  exact wp_mono (hx _ (hJ s h)) (fun _ t ht => hI s t h ht) fun _ t ht => hI s t h ht

theorem final {x : Act ε σ α} (hx : Keeps I x) {s : σ} (h : I s) : I (Act.final x s) :=
  wp_final (hx s h)

end Keeps

namespace Leaves

variable {f : σ → τ}

/-- The frame as a fact about one run. -/
theorem wp {x : Act ε σ α} (hx : Leaves f x) (s : σ) :
    Act.wp x (fun _ s' => f s' = f s) (fun _ s' => f s' = f s) s :=
  hx (f s) s rfl

theorem of_ok {x : Act ε σ α} (hx : Leaves f x) {s s' : σ} {a : α} (h : x s = .ok a s') :
    f s' = f s :=
  (wp_of_ok h).1 (hx.wp s)

theorem of_error {x : Act ε σ α} (hx : Leaves f x) {s s' : σ} {e : ε} (h : x s = .error e s') :
    f s' = f s :=
  (wp_of_error h).1 (hx.wp s)

/-- A computation on one part of a state leaves the rest. -/
theorem zoom {υ : Type} {get : σ → υ} {set : υ → σ → σ} {x : Act ε υ α}
    (h : ∀ s t, f (set t s) = f s) : Leaves f (Act.zoom get set x) := by
  rintro c s rfl
  rw [wp_zoom]
  unfold Act.wp
  cases x (get s) with
  | ok a t => exact h s t
  | error e t => exact h s t

/-- What depends on less is left as well. -/
theorem comp {υ : Type} {x : Act ε σ α} (hx : Leaves f x) (g : τ → υ) :
    Leaves (fun s => g (f s)) x := by
  rintro c s rfl
  exact wp_mono (hx.wp s) (fun _ s' h => congrArg g h) fun _ s' h => congrArg g h

end Leaves

-- a condition is taken apart by the rules above, never by running the computation
attribute [irreducible] wp

end Act

end Shiroe

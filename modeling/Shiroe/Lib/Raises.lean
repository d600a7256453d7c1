import Shiroe.Lib.Act

/-!
# Which exceptions a fallible computation raises

`Raises E x` : what `x` raises, if it raises, is one of the exceptions `E`.  Each way of putting
computations together has its lemma, so that a function is gone through once, part by part.
-/

namespace Shiroe

variable {ε α β : Type*} {E E' : ε → Prop}

/-- If `x` raises, it raises one of the exceptions `E`. -/
def Raises (E : ε → Prop) (x : Except ε α) : Prop := ∀ e, x = .error e → E e

theorem except_bind_of_ok {α β : Type _} {x : Except ε β} {f : β → Except ε α} {b : β}
    (h : x = .ok b) : (x >>= f) = f b := by
  rw [h]
  rfl

theorem except_bind_eq_error {α β : Type _} {x : Except ε β} {f : β → Except ε α} {e : ε} :
    (x >>= f) = .error e ↔ x = .error e ∨ ∃ b, x = .ok b ∧ f b = .error e := by
  cases x with
  | ok b =>
    constructor
    · exact fun h => .inr ⟨b, rfl, h⟩
    · rintro (h | ⟨b', hb, h⟩)
      · cases h
      · cases hb
        exact h
  | error e' =>
    constructor
    · intro h
      cases h
      exact .inl rfl
    · rintro (h | ⟨b', hb, h⟩)
      · cases h
        rfl
      · cases hb

namespace Raises

theorem ok (a : α) : Raises E (.ok a : Except ε α) := fun _ h => by cases h

theorem pure (a : α) : Raises E (Pure.pure a : Except ε α) := ok a

theorem error {e : ε} (h : E e) : Raises E (.error e : Except ε α) := by
  intro e' he'
  cases he'
  exact h

theorem mono {x : Except ε α} (hx : Raises E x) (h : ∀ e, E e → E' e) : Raises E' x :=
  fun e he => h e (hx e he)

theorem bind {α β : Type _} {x : Except ε β} {f : β → Except ε α} (hx : Raises E x)
    (hf : ∀ b, x = .ok b → Raises E (f b)) : Raises E (x >>= f) := by
  cases x with
  | ok b => exact hf b rfl
  | error e => exact error (hx e rfl)

theorem ite {c : Prop} [Decidable c] {x y : Except ε α} (hx : c → Raises E x)
    (hy : ¬ c → Raises E y) : Raises E (if c then x else y) := by
  by_cases h : c
  · rw [if_pos h]
    exact hx h
  · rw [if_neg h]
    exact hy h

theorem mapM {α β : Type _} {f : α → Except ε β} {l : List α} (hf : ∀ a ∈ l, Raises E (f a)) :
    Raises E (l.mapM f) := by
  induction l with
  | nil => exact ok []
  | cons a l ih =>
    rw [List.mapM_cons]
    refine (hf a List.mem_cons_self).bind fun b _ => ?_
    exact (ih fun a ha => hf a (List.mem_cons_of_mem _ ha)).bind fun bs _ => pure _

theorem forM {f : α → Except ε PUnit} {l : List α} (hf : ∀ a ∈ l, Raises E (f a)) :
    Raises E (l.forM f) := by
  induction l with
  | nil => exact ok _
  | cons a l ih =>
    refine (hf a List.mem_cons_self).bind fun _ _ => ?_
    exact ih fun a ha => hf a (List.mem_cons_of_mem _ ha)

theorem foldlM {f : β → α → Except ε β} {l : List α} (hf : ∀ b, ∀ a ∈ l, Raises E (f b a)) (b : β) :
    Raises E (l.foldlM f b) := by
  induction l generalizing b with
  | nil => exact ok b
  | cons a l ih =>
    rw [List.foldlM_cons]
    refine (hf b a List.mem_cons_self).bind fun b' _ => ?_
    exact ih (fun b a ha => hf b a (List.mem_cons_of_mem _ ha)) b'

end Raises

end Shiroe

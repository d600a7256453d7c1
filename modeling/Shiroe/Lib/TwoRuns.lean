import Shiroe.Lib.Act
import Mathlib.Data.List.Sort

/-!
# Two runs of one computation

A computation is *blind* to what a relation on states leaves open when it cannot tell two related
states apart: from both it returns or raises the same, and it leaves related states again.  The
relation takes the place of "equal but for the hidden part".

* `Act.Blind.bind`, `Act.Blind.ite`, … : one rule for each way to build a computation;
* `filter_insertionSort` : a stable sort does not move the rows that are shown past each
  other, whatever else is in the list.
-/

namespace Shiroe

namespace Act

variable {ε σ α β : Type} {R : σ → σ → Prop}

/-- The computation does not see what `R` leaves open. -/
def Blind (R : σ → σ → Prop) (x : Act ε σ α) : Prop :=
  ∀ s s', R s s' → outcome x s = outcome x s' ∧ R (final x s) (final x s')

theorem outcome_bind_of_ok {x : Act ε σ β} {f : β → Act ε σ α} {b : β} {s s' : σ}
    (h : x s = .ok b s') : outcome (x >>= f) s = outcome (f b) s' := by
  simp only [outcome, bind, EStateM.bind, h]

namespace Blind

theorem pure (a : α) : Blind R (pure a : Act ε σ α) := fun _ _ h => ⟨rfl, h⟩

theorem throw (e : ε) : Blind R (throw e : Act ε σ α) := fun _ _ h => ⟨rfl, h⟩

theorem ofExcept (r : Except ε α) : Blind R (Act.ofExcept r : Act ε σ α) := by
  cases r with
  | ok a => exact pure a
  | error e => exact throw e

theorem bind {x : Act ε σ β} {f : β → Act ε σ α} (hx : Blind R x) (hf : ∀ b, Blind R (f b)) :
    Blind R (x >>= f) := by
  intro s s' h
  obtain ⟨hout, hfinal⟩ := hx s s' h
  simp only [outcome, final, Bind.bind, EStateM.bind] at hout hfinal ⊢
  cases h₁ : x s <;> cases h₂ : x s' <;> rw [h₁, h₂] at hout hfinal <;> cases hout
  · exact hf _ _ _ hfinal
  · exact ⟨rfl, hfinal⟩

theorem map {x : Act ε σ β} (f : β → α) (hx : Blind R x) : Blind R (f <$> x) := by
  intro s s' h
  obtain ⟨hout, hfinal⟩ := hx s s' h
  simp only [outcome, final, Functor.map, EStateM.map] at hout hfinal ⊢
  cases h₁ : x s <;> cases h₂ : x s' <;> rw [h₁, h₂] at hout hfinal <;> cases hout
  · exact ⟨rfl, hfinal⟩
  · exact ⟨rfl, hfinal⟩

theorem ite {c : Prop} [Decidable c] {x y : Act ε σ α} (hx : Blind R x) (hy : Blind R y) :
    Blind R (if c then x else y) := by
  by_cases h : c
  · rwa [if_pos h]
  · rwa [if_neg h]

/-- What is read off the state has to be the same in related states. -/
theorem reading {f : σ → Act ε σ α} (hsame : ∀ s s', R s s' → f s = f s')
    (hf : ∀ s, Blind R (f s)) : Blind R (get >>= f) := by
  intro s s' h
  change outcome (f s) s = outcome (f s') s' ∧ R (final (f s) s) (final (f s') s')
  rw [← hsame s s' h]
  exact hf s s s' h |>.imp id id

end Blind

end Act

/-! ### Sorted lists -/

section

variable {α : Type*} {r : α → α → Prop} [DecidableRel r] {p : α → Bool}

theorem filter_orderedInsert_of_not {a : α} (hp : p a = false) (l : List α) :
    (l.orderedInsert r a).filter p = l.filter p := by
  induction l with
  | nil => simp [hp]
  | cons b l ih =>
    rw [List.orderedInsert_cons]
    by_cases h : r a b
    · rw [if_pos h, List.filter_cons_of_neg (by simp [hp])]
    · rw [if_neg h, List.filter_cons, List.filter_cons, ih]

variable [IsTrans α r]

theorem filter_orderedInsert {a : α} (hp : p a = true) {l : List α} (hl : l.Pairwise r) :
    (l.orderedInsert r a).filter p = (l.filter p).orderedInsert r a := by
  induction l with
  | nil => simp [hp]
  | cons b l ih =>
    obtain ⟨hb, hl⟩ := List.pairwise_cons.1 hl
    rw [List.orderedInsert_cons]
    by_cases h : r a b
    · -- everything behind `b` is behind `a` as well
      have hfirst : ∀ c ∈ (b :: l).filter p, r a c := by
        intro c hc
        rcases List.mem_cons.1 (List.mem_of_mem_filter hc) with rfl | hc
        · exact h
        · exact IsTrans.trans _ _ _ h (hb c hc)
      rw [if_pos h, List.filter_cons_of_pos hp]
      cases hf : (b :: l).filter p with
      | nil => rfl
      | cons c m => rw [List.orderedInsert_cons, if_pos (hfirst c (by simp [hf]))]
    · rw [if_neg h, List.filter_cons, List.filter_cons, ih hl]
      by_cases hpb : p b
      · rw [if_pos hpb, if_pos hpb, List.orderedInsert_cons, if_neg h]
      · rw [if_neg hpb, if_neg hpb]

variable [Std.Total r]

/-- **Hidden rows do not move the rows that are shown.** -/
theorem filter_insertionSort (l : List α) :
    (l.insertionSort r).filter p = (l.filter p).insertionSort r := by
  induction l with
  | nil => rfl
  | cons a l ih =>
    rw [List.insertionSort_cons]
    by_cases hp : p a
    · rw [filter_orderedInsert hp (List.pairwise_insertionSort r l), ih, List.filter_cons_of_pos hp,
        List.insertionSort_cons]
    · rw [filter_orderedInsert_of_not (by simpa using hp), ih, List.filter_cons_of_neg hp]

end

end Shiroe

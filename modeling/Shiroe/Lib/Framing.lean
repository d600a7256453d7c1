import Mathlib.Data.List.Basic
import Mathlib.Data.Nat.Notation

/-!
# Framed sequences

A sequence of pairs is written as one list: every pair as its name, a separator that no name
holds, and a tag whose length is fixed.

* `Framing.encode_injective` : the pairs can be read back.
-/

namespace Shiroe

namespace Framing

variable {α : Type*} (sep : α)

/-- A name and its tag. -/
def frame (p : List α × List α) : List α := p.1 ++ sep :: p.2

/-- A sequence of names and tags. -/
def encode (l : List (List α × List α)) : List α := l.flatMap (frame sep)

/-- The name holds no separator and the tag has `n` items. -/
def WellFramed (n : ℕ) (p : List α × List α) : Prop := sep ∉ p.1 ∧ p.2.length = n

variable {sep} {n : ℕ}

@[simp] theorem encode_nil : encode sep ([] : List (List α × List α)) = [] := rfl

@[simp] theorem encode_cons (p : List α × List α) (l : List (List α × List α)) :
    encode sep (p :: l) = p.1 ++ sep :: (p.2 ++ encode sep l) := by
  simp [encode, frame]

@[simp] theorem encode_append (l l' : List (List α × List α)) :
    encode sep (l ++ l') = encode sep l ++ encode sep l' :=
  List.flatMap_append

/-- A name ends at the first separator. -/
theorem append_sep_inj {a b r s : List α} (ha : sep ∉ a) (hb : sep ∉ b)
    (h : a ++ sep :: r = b ++ sep :: s) : a = b ∧ r = s := by
  induction a generalizing b with
  | nil =>
    cases b with
    | nil => exact ⟨rfl, (List.cons.inj h).2⟩
    | cons y b => exact absurd (List.cons.inj h).1 (by rintro rfl; exact hb List.mem_cons_self)
  | cons x a ih =>
    cases b with
    | nil => exact absurd (List.cons.inj h).1 (by rintro rfl; exact ha List.mem_cons_self)
    | cons y b =>
      obtain ⟨hxy, htail⟩ := List.cons.inj h
      obtain ⟨hab, hrs⟩ := ih (fun hm => ha (List.mem_cons_of_mem _ hm))
        (fun hm => hb (List.mem_cons_of_mem _ hm)) htail
      exact ⟨by rw [hxy, hab], hrs⟩

/-- **Framed pairs can be read back.** -/
theorem encode_injective {l l' : List (List α × List α)} (hl : ∀ p ∈ l, WellFramed sep n p)
    (hl' : ∀ p ∈ l', WellFramed sep n p) (h : encode sep l = encode sep l') : l = l' := by
  induction l generalizing l' with
  | nil =>
    cases l' with
    | nil => rfl
    | cons p l' => simp at h
  | cons p l ih =>
    cases l' with
    | nil => simp at h
    | cons q l' =>
      simp only [encode_cons] at h
      have hp := hl p List.mem_cons_self
      have hq := hl' q List.mem_cons_self
      obtain ⟨hname, hrest⟩ := append_sep_inj hp.1 hq.1 h
      obtain ⟨htag, htail⟩ := List.append_inj hrest (hp.2.trans hq.2.symm)
      rw [Prod.ext hname htag, ih (fun p hm => hl p (List.mem_cons_of_mem _ hm))
        (fun q hm => hl' q (List.mem_cons_of_mem _ hm)) htail]

end Framing

end Shiroe

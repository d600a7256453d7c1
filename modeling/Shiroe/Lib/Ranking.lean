import Mathlib.Data.List.Sort
import Mathlib.Data.String.Basic

/-!
# Ranking by a key

`ranked key l` is `sorted(l, key=key)`.  When no two items have one key, the ranking does not depend
on the order of the list.  A text that names a time can be ranked latest first by inverting its
digits, among texts whose digits stand at the same places.

* `ranked_eq_of_perm` : the ranking of a list is the ranking of its permutations;
* `invertDigits_lt_iff` : inverted digits turn the order around.
-/

namespace Shiroe

namespace Ranking

variable {α β κ : Type*} [LinearOrder κ] (key : α → κ)

/-- `sorted(l, key=key)`. -/
def ranked (l : List α) : List α := l.insertionSort fun a b => key a ≤ key b

/-- No two items of the list have one key. -/
def Distinct (l : List α) : Prop := ∀ a ∈ l, ∀ b ∈ l, key a = key b → a = b

variable {key} {l l' : List α}

@[simp] theorem mem_ranked {a : α} : a ∈ ranked key l ↔ a ∈ l := List.mem_insertionSort _

theorem ranked_perm (l : List α) : (ranked key l).Perm l := List.perm_insertionSort _ l

theorem ranked_sorted (l : List α) : (ranked key l).Pairwise fun a b => key a ≤ key b :=
  List.pairwise_insertionSort _ l

/-- A list that is sorted already, and holds the same items, is the ranking. -/
theorem eq_ranked (h : Distinct key l) (hperm : l'.Perm l)
    (hsorted : l'.Pairwise fun a b => key a ≤ key b) : l' = ranked key l := by
  refine List.Perm.eq_of_pairwise (fun a b ha hb hab hba => ?_) hsorted (ranked_sorted l)
    (hperm.trans (ranked_perm l).symm)
  exact h a (hperm.mem_iff.1 ha) b (mem_ranked.1 hb) (le_antisymm hab hba)

/-- **The ranking does not depend on the order of the list.** -/
theorem ranked_eq_of_perm (h : Distinct key l) (hperm : l'.Perm l) :
    ranked key l' = ranked key l :=
  eq_ranked h ((ranked_perm l').trans hperm) (ranked_sorted l')

/-! ### Inverted digits -/

/-- `str.maketrans("0123456789", "9876543210")`. -/
def invertDigit (c : Char) : Char := if c.isDigit then Char.ofNat (105 - c.toNat) else c

/-- `s.translate(table)` on the characters. -/
def invertDigits (l : List Char) : List Char := l.map invertDigit

/-- The texts have their digits at the same places, and the same characters elsewhere. -/
def SameShape (l l' : List Char) : Prop :=
  List.Forall₂ (fun a b => a.isDigit = true ∧ b.isDigit = true ∨ a = b) l l'

theorem toNat_of_isDigit {c : Char} (h : c.isDigit = true) : 48 ≤ c.toNat ∧ c.toNat ≤ 57 := by
  simp only [Char.isDigit, Bool.and_eq_true, decide_eq_true_eq] at h
  exact ⟨h.1, h.2⟩

theorem toNat_invertDigit {c : Char} (h : c.isDigit = true) :
    (invertDigit c).toNat = 105 - c.toNat := by
  have hc := toNat_of_isDigit h
  have hvalid : (105 - c.toNat).isValidChar := Or.inl (by omega)
  rw [invertDigit, if_pos h, Char.ofNat, dif_pos hvalid]
  rfl

theorem char_lt_iff {a b : Char} : a < b ↔ a.toNat < b.toNat := Iff.rfl

theorem invertDigit_lt_iff {a b : Char} (ha : a.isDigit = true) (hb : b.isDigit = true) :
    invertDigit a < invertDigit b ↔ b < a := by
  have ha' := toNat_of_isDigit ha
  have hb' := toNat_of_isDigit hb
  rw [char_lt_iff, char_lt_iff, toNat_invertDigit ha, toNat_invertDigit hb]
  omega

theorem invertDigit_inj {a b : Char} (ha : a.isDigit = true) (hb : b.isDigit = true) :
    invertDigit a = invertDigit b ↔ a = b := by
  refine ⟨fun h => ?_, fun h => h ▸ rfl⟩
  have hlt := invertDigit_lt_iff ha hb
  have hgt := invertDigit_lt_iff hb ha
  rw [h] at hlt hgt
  exact le_antisymm (not_lt.1 fun hba => lt_irrefl _ (hlt.2 hba))
    (not_lt.1 fun hab => lt_irrefl _ (hgt.2 hab))

theorem isDigit_invertDigit {c : Char} (h : c.isDigit = true) :
    (invertDigit c).isDigit = true := by
  have hc := toNat_of_isDigit h
  have hn := toNat_invertDigit h
  simp only [Char.isDigit, Bool.and_eq_true, decide_eq_true_eq]
  exact ⟨(by omega : 48 ≤ (invertDigit c).toNat), (by omega : (invertDigit c).toNat ≤ 57)⟩

/-- No two texts have one inversion. -/
theorem invertDigits_inj {l l' : List Char} : invertDigits l = invertDigits l' ↔ l = l' := by
  refine (List.map_injective_iff.2 fun a b h => ?_).eq_iff
  by_cases ha : a.isDigit = true <;> by_cases hb : b.isDigit = true
  · exact (invertDigit_inj ha hb).1 h
  · have hdigit := isDigit_invertDigit ha
    rw [h, invertDigit, if_neg hb] at hdigit
    exact absurd hdigit hb
  · have hdigit := isDigit_invertDigit hb
    rw [← h, invertDigit, if_neg ha] at hdigit
    exact absurd hdigit ha
  · rwa [invertDigit, invertDigit, if_neg ha, if_neg hb] at h

/-- **Inverted digits turn the order around**, among texts of one shape. -/
theorem invertDigits_lt_iff {l l' : List Char} (h : SameShape l l') :
    invertDigits l < invertDigits l' ↔ l' < l := by
  induction h with
  | nil => exact Iff.rfl
  | @cons a b l l' hab _ ih =>
    rw [invertDigits, invertDigits, List.map_cons, List.map_cons, List.cons_lt_cons_iff,
      List.cons_lt_cons_iff]
    rcases hab with ⟨ha, hb⟩ | rfl
    · rw [invertDigit_lt_iff ha hb, invertDigit_inj ha hb, eq_comm (a := a)]
      exact or_congr_right (and_congr_right fun _ => ih)
    · simp only [lt_irrefl, true_and, false_or]
      exact ih

end Ranking

end Shiroe

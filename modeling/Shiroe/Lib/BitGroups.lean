import Mathlib.Data.List.Flatten
import Mathlib.Data.List.Induction
import Mathlib.Data.Nat.Bits
import Mathlib.Tactic.Ring

/-!
# Digits in groups of bits

Digits of `a` bits are written one after the other as a row of bits, the highest bit first, and read
in groups of `b` bits; the last group is filled up with zeros.

* `regroup_regroup` : reading the digits of `b` bits in groups of `a` gives back the digits that
  were there, what was filled up is left over.
-/

namespace Shiroe

namespace BitGroups

variable {α β : Type*}

/-- The lowest bits of a number, the highest first. -/
def bits : ℕ → ℕ → List Bool
  | 0, _ => []
  | w + 1, n => bits w (n / 2) ++ [decide (n % 2 = 1)]

/-- The number that a row of bits stands for. -/
def ofBits (l : List Bool) : ℕ := l.foldl (fun n b => 2 * n + b.toNat) 0

/-- The first `n` groups of `k` elements. -/
def groups (k : ℕ) : ℕ → List α → List (List α)
  | 0, _ => []
  | n + 1, l => l.take k :: groups k n (l.drop k)

/-- Digits of `a` bits as `n` digits of `b` bits. -/
def regroup (a b n : ℕ) (digits : List ℕ) : List ℕ :=
  let row := digits.flatMap (bits a)
  (groups b n (row ++ List.replicate (n * b - row.length) false)).map ofBits

variable {a b k n w : ℕ} {l rest : List α} {digits : List ℕ}

/-! ### Bits of one number -/

@[simp] theorem length_bits : (bits w n).length = w := by
  induction w generalizing n with
  | zero => rfl
  | succ w ih => rw [bits, List.length_append, ih, List.length_singleton]

theorem ofBits_concat (l : List Bool) (b : Bool) : ofBits (l ++ [b]) = 2 * ofBits l + b.toNat := by
  rw [ofBits, List.foldl_append]
  rfl

theorem ofBits_bits : ofBits (bits w n) = n % 2 ^ w := by
  induction w generalizing n with
  | zero => rw [pow_zero, Nat.mod_one]; rfl
  | succ w ih =>
    rw [bits, ofBits_concat, ih, pow_succ', Nat.mod_mul]
    rcases Nat.mod_two_eq_zero_or_one n with h | h <;> simp [h, Nat.add_comm]

theorem bits_ofBits (l : List Bool) : bits l.length (ofBits l) = l := by
  induction l using List.reverseRecOn with
  | nil => rfl
  | append_singleton l b ih =>
    have hhalf : (2 * ofBits l + b.toNat) / 2 = ofBits l := by
      have := b.toNat_lt
      omega
    have hlow : decide ((2 * ofBits l + b.toNat) % 2 = 1) = b := by cases b <;> simp
    rw [List.length_append, List.length_singleton, bits, ofBits_concat, hhalf, hlow, ih]

theorem ofBits_lt (l : List Bool) : ofBits l < 2 ^ l.length := by
  induction l using List.reverseRecOn with
  | nil => exact Nat.one_pos
  | append_singleton l b ih =>
    rw [ofBits_concat, List.length_append, List.length_singleton, pow_succ]
    cases b <;> simp <;> omega

/-! ### Groups -/

@[simp] theorem length_groups : (groups k n l).length = n := by
  induction n generalizing l with
  | zero => rfl
  | succ n ih => rw [groups, List.length_cons, ih]

theorem length_of_mem_groups {g : List α} (h : n * k ≤ l.length) (hg : g ∈ groups k n l) :
    g.length = k := by
  induction n generalizing l with
  | zero => exact absurd hg List.not_mem_nil
  | succ n ih =>
    rw [Nat.succ_mul] at h
    rcases List.mem_cons.1 hg with rfl | hg
    · rw [List.length_take]
      omega
    · exact ih (by rw [List.length_drop]; omega) hg

theorem flatten_groups (h : l.length = n * k) : (groups k n l).flatten = l := by
  induction n generalizing l with
  | zero =>
    rw [Nat.zero_mul] at h
    rw [List.eq_nil_of_length_eq_zero h]
    rfl
  | succ n ih =>
    rw [Nat.succ_mul] at h
    rw [groups, List.flatten_cons, ih (by rw [List.length_drop]; omega), List.take_append_drop]

theorem groups_flatMap {f : β → List α} (hf : ∀ x, (f x).length = k) (xs : List β) :
    groups k xs.length (xs.flatMap f ++ rest) = xs.map f := by
  induction xs with
  | nil => rfl
  | cons x xs ih =>
    rw [List.length_cons, List.flatMap_cons, List.append_assoc, groups, ← hf x, List.take_left,
      List.drop_left, hf x, ih, List.map_cons]

/-! ### Regrouping -/

theorem length_flatMap_bits : (digits.flatMap (bits a)).length = digits.length * a := by
  rw [List.length_flatMap, List.map_congr_left fun _ _ => length_bits, List.map_const',
    List.sum_replicate_nat]

@[simp] theorem length_regroup : (regroup a b n digits).length = n := by
  rw [regroup, List.length_map, length_groups]

/-- The row of bits of the new digits. -/
theorem flatMap_bits_regroup (h : digits.length * a ≤ n * b) :
    (regroup a b n digits).flatMap (bits b) =
      digits.flatMap (bits a) ++ List.replicate (n * b - digits.length * a) false := by
  have hrow : (digits.flatMap (bits a) ++
      List.replicate (n * b - digits.length * a) false).length = n * b := by
    rw [List.length_append, length_flatMap_bits, List.length_replicate]
    omega
  have hgroup : ∀ g ∈ groups b n (digits.flatMap (bits a) ++
      List.replicate (n * b - digits.length * a) false), bits b (ofBits g) = id g := by
    intro g hg
    have hlen := length_of_mem_groups hrow.ge hg
    rw [← hlen, bits_ofBits, id]
  rw [regroup, length_flatMap_bits, List.flatMap_map, List.flatMap_def,
    List.map_congr_left hgroup, List.map_id, flatten_groups hrow]

theorem lt_of_mem_regroup {d : ℕ} (h : digits.length * a ≤ n * b) (hd : d ∈ regroup a b n digits) :
    d < 2 ^ b := by
  rw [regroup, length_flatMap_bits] at hd
  obtain ⟨g, hg, rfl⟩ := List.mem_map.1 hd
  have hlen := length_of_mem_groups (by
    rw [List.length_append, length_flatMap_bits, List.length_replicate]
    omega) hg
  rw [← hlen]
  exact ofBits_lt g

/-- **Regrouping back gives the digits that were there.** -/
theorem regroup_regroup (hlt : ∀ d ∈ digits, d < 2 ^ a) (h : digits.length * a ≤ n * b) :
    regroup b a digits.length (regroup a b n digits) = digits := by
  have hback : ∀ d ∈ digits, ofBits (bits a d) = d := by
    intro d hd
    rw [ofBits_bits, Nat.mod_eq_of_lt (hlt d hd)]
  rw [regroup, flatMap_bits_regroup h, List.append_assoc, groups_flatMap fun _ => length_bits,
    List.map_map]
  exact (List.map_congr_left hback).trans (List.map_id' digits)

end BitGroups

end Shiroe

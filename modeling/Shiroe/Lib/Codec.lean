import Mathlib.Data.List.DropRight
import Shiroe.Lib.BitGroups

/-!
# Bytes in letters

An alphabet writes each digit of some number of bits, eight at most, as a letter.  Bytes are encoded
as the letters of their bits in groups, and the letters are followed by signs that fill up the last
block.

* `Alphabet.decode_encode` : decoding gives back the bytes;
* `unpad_append` : stripping the signs gives back the letters.
-/

namespace Shiroe

open BitGroups

/-- An alphabet for the digits of `k` bits. -/
structure Alphabet (k : ℕ) where
  letter : ℕ → Char
  value : Char → Option ℕ
  value_letter : ∀ d < 2 ^ k, value (letter d) = some d

namespace Alphabet

variable {k : ℕ} (A : Alphabet k)

/-- How many digits the bytes are written in. -/
def digitCount (k n : ℕ) : ℕ := (n * 8 + k - 1) / k

/-- The digits of the bytes. -/
def digits (k : ℕ) (bytes : List UInt8) : List ℕ :=
  regroup 8 k (digitCount k bytes.length) (bytes.map UInt8.toNat)

/-- The letters of the bytes. -/
def encode (bytes : List UInt8) : List Char := (digits k bytes).map A.letter

/-- The bytes of digits; bits that are left over at the end are dropped. -/
def bytesOf (k : ℕ) (digits : List ℕ) : List UInt8 :=
  (regroup k 8 (digits.length * k / 8) digits).map UInt8.ofNat

/-- The bytes of letters, if all are letters of the alphabet. -/
def decode (text : List Char) : Option (List UInt8) := (text.mapM A.value).map (bytesOf k)

variable {A} {bytes : List UInt8}

@[simp] theorem length_encode : (A.encode bytes).length = digitCount k bytes.length := by
  rw [encode, List.length_map, digits, length_regroup]

theorem le_digitCount {n : ℕ} (hk : 0 < k) : n * 8 ≤ digitCount k n * k := by
  have hdiv := Nat.div_add_mod' (n * 8 + k - 1) k
  have hmod := Nat.mod_lt (n * 8 + k - 1) hk
  rw [digitCount]
  omega

theorem digitCount_lt {n : ℕ} (hk : 0 < k) : digitCount k n * k < n * 8 + k := by
  have hdiv := Nat.div_mul_le_self (n * 8 + k - 1) k
  rw [digitCount]
  omega

theorem lt_of_mem_digits (hk : 0 < k) {d : ℕ} (hd : d ∈ digits k bytes) : d < 2 ^ k := by
  refine lt_of_mem_regroup ?_ hd
  rw [List.length_map]
  exact le_digitCount hk

theorem mapM_value {ds : List ℕ} (h : ∀ d ∈ ds, d < 2 ^ k) :
    (ds.map A.letter).mapM A.value = some ds := by
  induction ds with
  | nil => rfl
  | cons d ds ih =>
    obtain ⟨hd, hds⟩ := List.forall_mem_cons.1 h
    rw [List.map_cons, List.mapM_cons, A.value_letter d hd, ih hds]
    rfl

theorem bytesOf_digits (hk : 0 < k) (hk8 : k ≤ 8) : bytesOf k (digits k bytes) = bytes := by
  have hcount : digitCount k bytes.length * k / 8 = (bytes.map UInt8.toNat).length := by
    have hle := @le_digitCount k bytes.length hk
    have hlt := @digitCount_lt k bytes.length hk
    rw [List.length_map]
    omega
  have hlt : ∀ d ∈ bytes.map UInt8.toNat, d < 2 ^ 8 := by
    intro d hd
    obtain ⟨b, -, rfl⟩ := List.mem_map.1 hd
    exact b.toNat_lt
  rw [bytesOf, digits, length_regroup, hcount,
    regroup_regroup hlt (by rw [List.length_map]; exact le_digitCount hk), List.map_map]
  exact List.map_id'' (fun b => UInt8.ofNat_toNat) bytes

/-- **Decoding gives back the bytes.** -/
theorem decode_encode (hk : 0 < k) (hk8 : k ≤ 8) : A.decode (A.encode bytes) = some bytes := by
  rw [decode, encode, mapM_value fun d hd => lt_of_mem_digits hk hd, Option.map_some,
    bytesOf_digits hk hk8]

end Alphabet

/-! ### Filling up -/

/-- The signs `=` at the end taken off, `text.rstrip("=")`. -/
def unpad (text : List Char) : List Char := text.rdropWhile (· = '=')

/-- As many signs `=` added as fill up the last block, `"=" * (-len(text) % size)`. -/
def pad (size : ℕ) (text : List Char) : List Char :=
  text ++ List.replicate ((size - text.length % size) % size) '='

theorem unpad_append {text : List Char} (n : ℕ) (h : ∀ c ∈ text.getLast?, c ≠ '=') :
    unpad (text ++ List.replicate n '=') = text := by
  induction n with
  | zero =>
    rw [List.replicate_zero, List.append_nil, unpad, List.rdropWhile_eq_self_iff]
    intro hne
    simpa using h _ (List.getLast?_eq_some_getLast hne)
  | succ n ih =>
    rw [List.replicate_succ', ← List.append_assoc, unpad, List.rdropWhile_concat_pos _ _ _
      (by simp)]
    exact ih

theorem unpad_pad {size : ℕ} {text : List Char} (h : ∀ c ∈ text.getLast?, c ≠ '=') :
    unpad (pad size text) = text := unpad_append _ h

theorem length_pad {size : ℕ} (hsize : 0 < size) (text : List Char) :
    (pad size text).length % size = 0 := by
  have hmod := Nat.mod_lt text.length hsize
  have hdiv := Nat.div_add_mod text.length size
  rw [pad, List.length_append, List.length_replicate]
  rcases Nat.eq_zero_or_pos (text.length % size) with h | h
  · rw [h, Nat.sub_zero, Nat.mod_self, Nat.add_zero, h]
  · rw [Nat.mod_eq_of_lt (Nat.sub_lt hsize h)]
    have hsum : text.length + (size - text.length % size) = size * (text.length / size + 1) := by
      rw [Nat.mul_add, Nat.mul_one]
      omega
    rw [hsum, Nat.mul_mod_right]

end Shiroe

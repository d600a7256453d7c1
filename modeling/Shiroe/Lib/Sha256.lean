import Mathlib.Data.List.Basic
import Mathlib.Data.Nat.Notation

/-!
# SHA-256

The hash function on byte strings, over natural numbers below `2 ^ 32`: the message is padded, cut
into blocks of sixteen words, and every block goes through 64 rounds.

* `Sha256.digest` : the digest as 32 bytes (`Sha256.length_digest`);
* `hex` : bytes as hexadecimal digits, from which they can be read back (`hex_injective`).
-/

namespace Shiroe

namespace Sha256

-- the functions on `ℕ` are named here: on literals the kernel computes them natively

/-- Rotate a word to the right. -/
def rotr (n x : ℕ) : ℕ :=
  Nat.lor (Nat.shiftRight x n) (Nat.mod (Nat.shiftLeft x (Nat.sub 32 n)) 0x100000000)

/-- Add two words. -/
def add (x y : ℕ) : ℕ := Nat.mod (Nat.add x y) 0x100000000

/-- `Ch`: take the bits of `y` where `x` is set and those of `z` elsewhere. -/
def ch (x y z : ℕ) : ℕ := Nat.xor (Nat.land x y) (Nat.land (Nat.sub 0xffffffff x) z)

/-- `Maj`: the majority of three words, bit by bit. -/
def maj (x y z : ℕ) : ℕ := Nat.xor (Nat.xor (Nat.land x y) (Nat.land x z)) (Nat.land y z)

/-- `Σ₀`. -/
def bigSigma0 (x : ℕ) : ℕ := Nat.xor (Nat.xor (rotr 2 x) (rotr 13 x)) (rotr 22 x)

/-- `Σ₁`. -/
def bigSigma1 (x : ℕ) : ℕ := Nat.xor (Nat.xor (rotr 6 x) (rotr 11 x)) (rotr 25 x)

/-- `σ₀`. -/
def smallSigma0 (x : ℕ) : ℕ := Nat.xor (Nat.xor (rotr 7 x) (rotr 18 x)) (Nat.shiftRight x 3)

/-- `σ₁`. -/
def smallSigma1 (x : ℕ) : ℕ := Nat.xor (Nat.xor (rotr 17 x) (rotr 19 x)) (Nat.shiftRight x 10)

/-- The constants of the 64 rounds. -/
def roundConstants : List ℕ :=
  [0x428a2f98, 0x71374491, 0xb5c0fbcf, 0xe9b5dba5, 0x3956c25b, 0x59f111f1, 0x923f82a4, 0xab1c5ed5,
    0xd807aa98, 0x12835b01, 0x243185be, 0x550c7dc3, 0x72be5d74, 0x80deb1fe, 0x9bdc06a7, 0xc19bf174,
    0xe49b69c1, 0xefbe4786, 0x0fc19dc6, 0x240ca1cc, 0x2de92c6f, 0x4a7484aa, 0x5cb0a9dc, 0x76f988da,
    0x983e5152, 0xa831c66d, 0xb00327c8, 0xbf597fc7, 0xc6e00bf3, 0xd5a79147, 0x06ca6351, 0x14292967,
    0x27b70a85, 0x2e1b2138, 0x4d2c6dfc, 0x53380d13, 0x650a7354, 0x766a0abb, 0x81c2c92e, 0x92722c85,
    0xa2bfe8a1, 0xa81a664b, 0xc24b8b70, 0xc76c51a3, 0xd192e819, 0xd6990624, 0xf40e3585, 0x106aa070,
    0x19a4c116, 0x1e376c08, 0x2748774c, 0x34b0bcb5, 0x391c0cb3, 0x4ed8aa4a, 0x5b9cca4f, 0x682e6ff3,
    0x748f82ee, 0x78a5636f, 0x84c87814, 0x8cc70208, 0x90befffa, 0xa4506ceb, 0xbef9a3f7, 0xc67178f2]

/-- The working variables. -/
structure Regs where
  (a b c d e f g h : ℕ)

/-- The initial hash value. -/
def initial : Regs :=
  ⟨0x6a09e667, 0xbb67ae85, 0x3c6ef372, 0xa54ff53a, 0x510e527f, 0x9b05688c, 0x1f83d9ab, 0x5be0cd19⟩

/-- One round, on the sum of its constant and its word. -/
def round (r : Regs) (kw : ℕ) : Regs :=
  match r with
  | ⟨a, b, c, d, e, f, g, h⟩ =>
    let t₁ := add (add (add h (bigSigma1 e)) (ch e f g)) kw
    let t₂ := add (bigSigma0 a) (maj a b c)
    ⟨add t₁ t₂, a, b, c, add d t₁, e, f, g⟩

/-- The word schedule, from a window of the next sixteen words. -/
def schedule : ℕ → ℕ → ℕ → ℕ → ℕ → ℕ → ℕ → ℕ → ℕ → ℕ → ℕ → ℕ → ℕ → ℕ → ℕ → ℕ → ℕ → List ℕ
  | 0, _, _, _, _, _, _, _, _, _, _, _, _, _, _, _, _ => []
  | n + 1, w₀, w₁, w₂, w₃, w₄, w₅, w₆, w₇, w₈, w₉, w₁₀, w₁₁, w₁₂, w₁₃, w₁₄, w₁₅ =>
    w₀ :: schedule n w₁ w₂ w₃ w₄ w₅ w₆ w₇ w₈ w₉ w₁₀ w₁₁ w₁₂ w₁₃ w₁₄ w₁₅
      (add (add (smallSigma1 w₁₄) w₉) (add (smallSigma0 w₁) w₀))

/-- The words of the 64 rounds of a block. -/
def scheduleOf : List ℕ → List ℕ
  | [w₀, w₁, w₂, w₃, w₄, w₅, w₆, w₇, w₈, w₉, w₁₀, w₁₁, w₁₂, w₁₃, w₁₄, w₁₅] =>
    schedule 64 w₀ w₁ w₂ w₃ w₄ w₅ w₆ w₇ w₈ w₉ w₁₀ w₁₁ w₁₂ w₁₃ w₁₄ w₁₅
  | _ => []

/-- The rounds of a block. -/
def rounds : List ℕ → List ℕ → Regs → Regs
  | k :: ks, w :: ws, r => rounds ks ws (round r (add k w))
  | _, _, r => r

/-- Hash one block. -/
def block (r : Regs) (words : List ℕ) : Regs :=
  match r, rounds roundConstants (scheduleOf words) r with
  | ⟨a, b, c, d, e, f, g, h⟩, ⟨a', b', c', d', e', f', g', h'⟩ =>
    ⟨add a a', add b b', add c c', add d d', add e e', add f f', add g g', add h h'⟩

/-- Read bytes as big-endian words. -/
def toWords : List ℕ → List ℕ
  | a :: b :: c :: d :: l => (((a * 256 + b) * 256 + c) * 256 + d) :: toWords l
  | _ => []

/-- The message with a one bit, zeros, and its length in bits. -/
def pad (bytes : List ℕ) : List ℕ :=
  let n := bytes.length
  bytes ++ [0x80] ++ List.replicate ((119 - n % 64) % 64) 0 ++
    (List.range 8).map fun i => (8 * n) >>> (8 * (7 - i)) % 256

/-- The first `n` blocks of a list of words. -/
def blocks : ℕ → List ℕ → List (List ℕ)
  | 0, _ => []
  | n + 1, words => words.take 16 :: blocks n (words.drop 16)

/-- The registers after the blocks of a byte string. -/
def run (bytes : List ℕ) : Regs :=
  let words := toWords (pad bytes)
  (blocks (words.length / 16) words).foldl block initial

/-- A word as four bytes, the first one most significant. -/
def wordBytes (x : ℕ) : List UInt8 := (List.range 4).map fun i => .ofNat (x >>> (8 * (3 - i)))

/-- The hash value of a byte string. -/
def digest (data : List UInt8) : List UInt8 :=
  let r := run (data.map UInt8.toNat)
  [r.a, r.b, r.c, r.d, r.e, r.f, r.g, r.h].flatMap wordBytes

/-- A word as eight hexadecimal digits. -/
def hexWord (x : ℕ) : List Char :=
  (List.range 8).map fun i => (x >>> (4 * (7 - i)) % 16).digitChar

@[simp] theorem length_digest (data : List UInt8) : (digest data).length = 32 := by
  simp [digest, wordBytes]

theorem ascii_hexWord {x : ℕ} {c : Char} (hc : c ∈ hexWord x) : c.toNat < 128 := by
  obtain ⟨i, -, rfl⟩ := List.mem_map.1 hc
  have h : ∀ d < 16, d.digitChar.toNat < 128 := by decide
  exact h _ (Nat.mod_lt _ (by omega))

end Sha256

/-! ### Bytes and texts -/

/-- `text.encode("utf-8")`. -/
def utf8 (text : List Char) : List UInt8 := text.flatMap String.utf8EncodeChar

/-- A byte as two hexadecimal digits. -/
def hexByte (b : UInt8) : List Char := [(b.toNat / 16).digitChar, (b.toNat % 16).digitChar]

/-- `data.hex()`. -/
def hex (data : List UInt8) : String := String.ofList (data.flatMap hexByte)

theorem length_hex (data : List UInt8) : (hex data).toList.length = 2 * data.length := by
  rw [hex, String.toList_ofList, List.length_flatMap]
  simp [hexByte, Nat.mul_comm]

theorem ascii_hex (data : List UInt8) : ∀ c ∈ (hex data).toList, c.toNat < 128 := by
  intro c hc
  rw [hex, String.toList_ofList, List.mem_flatMap] at hc
  obtain ⟨b, -, hb⟩ := hc
  have h : ∀ d < 16, d.digitChar.toNat < 128 := by decide
  have hlt : b.toNat < 256 := b.toNat_lt
  simp only [hexByte, List.mem_cons, List.not_mem_nil, or_false] at hb
  rcases hb with rfl | rfl
  · exact h _ (by omega)
  · exact h _ (by omega)

theorem hexByte_injective : Function.Injective hexByte := by
  intro a b hab
  have hd : ∀ m < 16, ∀ n < 16, m.digitChar = n.digitChar → m = n := by decide
  have ha : a.toNat < 256 := a.toNat_lt
  have hb : b.toNat < 256 := b.toNat_lt
  simp only [hexByte, List.cons.injEq, and_true] at hab
  have hhigh := hd _ (by omega) _ (by omega) hab.1
  have hlow := hd _ (by omega) _ (by omega) hab.2
  exact UInt8.toNat_inj.1 (by omega)

/-- Bytes can be read back from their hexadecimal digits. -/
theorem hex_injective : Function.Injective hex := by
  intro a
  induction a with
  | nil =>
    intro b hab
    have hlen := congrArg (fun s : String => s.toList.length) hab
    simp only [length_hex, List.length_nil] at hlen
    exact (List.eq_nil_of_length_eq_zero (by omega)).symm
  | cons x a ih =>
    intro b hab
    cases b with
    | nil =>
      have hlen := congrArg (fun s : String => s.toList.length) hab
      simp only [length_hex, List.length_nil, List.length_cons] at hlen
      omega
    | cons y b =>
      have hl : hexByte x ++ a.flatMap hexByte = hexByte y ++ b.flatMap hexByte := by
        simpa [hex] using congrArg String.toList hab
      obtain ⟨hxy, hrest⟩ := List.append_inj hl rfl
      rw [hexByte_injective hxy, ih (congrArg String.ofList hrest)]

/-- A text can be read back from its UTF-8 form. -/
theorem utf8_injective : Function.Injective utf8 := by
  intro s t hst
  have hb : (String.ofList s).toByteArray = (String.ofList t).toByteArray := by
    rw [String.toByteArray_ofList, String.toByteArray_ofList, List.utf8Encode, List.utf8Encode]
    exact congrArg List.toByteArray hst
  exact String.ofList_injective (String.toByteArray_inj.1 hb)

/-- Only NUL has a zero byte in its UTF-8 form. -/
theorem zero_notMem_utf8 {text : List Char} (h : '\x00' ∉ text) : 0 ∉ utf8 text := by
  intro h0
  obtain ⟨c, hc, hz⟩ := List.mem_flatMap.1 h0
  have hbyte : ∀ n < 256, (0 : UInt8) = UInt8.ofNat n → n = 0 := by
    intro n hn h
    have := congrArg UInt8.toNat h
    simpa [Nat.mod_eq_of_lt hn] using this.symm
  -- every byte of a longer form has its high bit set
  have hc0 : c.val.toNat = 0 := by
    simp only [String.utf8EncodeChar] at hz
    split_ifs at hz with h1 h2 h3 <;>
      simp only [List.mem_cons, List.not_mem_nil, or_false] at hz
    · exact hbyte _ (by omega) hz
    · rcases hz with hz | hz <;> exact absurd (hbyte _ (by omega) hz) (by omega)
    · rcases hz with hz | hz | hz <;> exact absurd (hbyte _ (by omega) hz) (by omega)
    · rcases hz with hz | hz | hz | hz <;> exact absurd (hbyte _ (by omega) hz) (by omega)
  exact h (by rwa [show c = '\x00' from Char.ext (UInt32.toNat_inj.1 hc0)] at hc)

set_option maxRecDepth 4000 in
example : hex (Sha256.digest (utf8 ['a', 'b', 'c'])) =
    "ba7816bf8f01cfea414140de5dae2223b00361a396177a9cb410ff61f20015ad" := by decide +kernel

end Shiroe

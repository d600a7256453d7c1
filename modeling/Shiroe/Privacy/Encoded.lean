import Shiroe.Lib.Codec
import Shiroe.Privacy.Providers

/-!
# Credentials inside encoded runs

The scan of `privacy.py` for encoded surfaces looks for runs of base64, hexadecimal and base32
letters, decodes each into a container that has to be printable text, and probes what it finds
there: the patterns are searched in the decoded text and in its normalised form, and runs in the
decoded text are decoded again, as long as the budget of three levels lasts.

* `decodedRuns_encode` : an encoded text between delimiters is one run and is decoded to what it was
  made from;
* `scanEncodedSurfaces_spec` : a matching text under one to three encodings is covered by a span,
  and the recursion is well founded.
-/

namespace Shiroe

open Regex Spans

/-- What the scan takes from outside: `unicodedata.normalize("NFKC", ·)` and `str.isprintable` of
one character, which holds of the printable ASCII characters. -/
structure Unicode where
  nfkc : List Char → List Char
  isPrintable : Char → Bool
  isPrintable_ascii : ∀ c : Char, 32 ≤ c.toNat → c.toNat ≤ 126 → isPrintable c = true

/-! ### Normalisation -/

/-- `_HOMOGLYPHS`. -/
def homoglyphs : List (Char × Char) :=
  [('\u0430', 'a'), ('\u0435', 'e'), ('\u043e', 'o'), ('\u0440', 'p'), ('\u0441', 'c'),
    ('\u0445', 'x'), ('\u0456', 'i'), ('\u04cf', 'l'), ('\u0443', 'y'), ('\u0455', 's'),
    ('\u0458', 'j'), ('\u04bb', 'h'), ('\u0410', 'A'), ('\u0412', 'B'), ('\u0415', 'E'),
    ('\u041a', 'K'), ('\u041c', 'M'), ('\u041d', 'H'), ('\u041e', 'O'), ('\u0420', 'P'),
    ('\u0421', 'C'), ('\u0422', 'T'), ('\u0425', 'X'), ('\u0406', 'I'), ('\u0405', 'S'),
    ('\u0408', 'J'), ('\u0423', 'Y'), ('\u0391', 'A'), ('\u0392', 'B'), ('\u0395', 'E'),
    ('\u0396', 'Z'), ('\u0397', 'H'), ('\u0399', 'I'), ('\u039a', 'K'), ('\u039c', 'M'),
    ('\u039d', 'N'), ('\u039f', 'O'), ('\u03a1', 'P'), ('\u03a4', 'T'), ('\u03a5', 'Y'),
    ('\u03a7', 'X')]

/-- `_INVISIBLE_CHARS_RE`. -/
def isInvisible (c : Char) : Bool :=
  [('\u200b', '\u200f'), ('\u202a', '\u202e'), ('\u2060', '\u2064'), ('\u2066', '\u2069'),
    ('\ufeff', '\ufeff')].any fun r => r.1 ≤ c && c ≤ r.2

/-- `_unicode_normalize`. -/
def unicodeNormalize (U : Unicode) (text : List Char) : List Char :=
  U.nfkc (text.filter fun c => !isInvisible c)

/-- `_homoglyph_normalize`. -/
def homoglyphNormalize (text : List Char) : List Char :=
  text.map fun c => (homoglyphs.lookup c).getD c

/-! ### Runs -/

/-- `[A-Za-z0-9+/_\-]`. -/
def isBase64Char (c : Char) : Bool :=
  c.isAlphanum || c = '+' || c = '/' || c = '_' || c = '-'

/-- `[A-Z2-7]`. -/
def isBase32Char (c : Char) : Bool := c.isUpper || ('2' ≤ c && c ≤ '7')

/-- `[0-9a-fA-F]`. -/
def isHexChar (c : Char) : Bool := c.isDigit || ('a' ≤ c && c ≤ 'f') || ('A' ≤ c && c ≤ 'F')

/-- `(?<![p])`. -/
def notAfter (p : Char → Bool) : Item Char := .look fun before _ => !before.any p

/-- `(?![p])`. -/
def notAhead (p : Char → Bool) : Item Char := .look fun _ ahead => !ahead.head?.any p

/-- `_ENCODED_RUN_RE`. -/
def encodedRun : List (Item Char) := [.run 1 isBase64Char 16 none, .run 1 (· = '=') 0 (some 2)]

/-- `_HEX_RUN_RE`. -/
def hexRun : List (Item Char) := [notAfter isHexChar, .run 2 isHexChar 12 none, notAhead isHexChar]

/-- `_BASE32_RUN_RE`. -/
def base32Run : List (Item Char) :=
  [notAfter isBase32Char, .run 1 isBase32Char 16 none, .run 1 (· = '=') 0 (some 6),
    notAhead isBase32Char]

/-! ### Codecs of the standard library -/

def base64Letters : List Char :=
  "ABCDEFGHIJKLMNOPQRSTUVWXYZabcdefghijklmnopqrstuvwxyz0123456789+/".toList

def urlsafeLetters : List Char :=
  "ABCDEFGHIJKLMNOPQRSTUVWXYZabcdefghijklmnopqrstuvwxyz0123456789-_".toList

def base32Letters : List Char := "ABCDEFGHIJKLMNOPQRSTUVWXYZ234567".toList

def hexLetters (upper : Bool) : List Char :=
  if upper then "0123456789ABCDEF".toList else "0123456789abcdef".toList

def base64Alphabet : Alphabet 6 where
  letter d := base64Letters.getD d 'A'
  value c := base64Letters.idxOf? c
  value_letter := by decide +kernel

def urlsafeAlphabet : Alphabet 6 where
  letter d := urlsafeLetters.getD d 'A'
  value c := urlsafeLetters.idxOf? c
  value_letter := by decide +kernel

def base32Alphabet : Alphabet 5 where
  letter d := base32Letters.getD d 'A'
  value c := base32Letters.idxOf? c
  value_letter := by decide +kernel

/-- Both cases are read. -/
def hexAlphabet (upper : Bool) : Alphabet 4 where
  letter d := (hexLetters upper).getD d '0'
  value c := ((hexLetters false).idxOf? c).or ((hexLetters true).idxOf? c)
  value_letter := by cases upper <;> decide +kernel

/-- `base64.b64decode(text, validate=True)`. -/
def b64decode (text : List Char) : Option (List UInt8) :=
  if text.length % 4 = 0 ∧ text.length ≤ (unpad text).length + 2 then
    base64Alphabet.decode (unpad text)
  else none

/-- `base64.b32decode(text, casefold=False)`. -/
def b32decode (text : List Char) : Option (List UInt8) :=
  if text.length % 8 = 0 ∧ text.length - (unpad text).length ∈ [0, 1, 3, 4, 6] then
    base32Alphabet.decode (unpad text)
  else none

/-- `bytes.fromhex(text)`, of a text without white space. -/
def fromhex (text : List Char) : Option (List UInt8) :=
  if text.length % 2 = 0 then (hexAlphabet false).decode text else none

/-- `raw.decode("utf-8", errors="strict")`. -/
def decodeUtf8 (raw : List UInt8) : Option (List Char) :=
  raw.toByteArray.utf8Decode?.map Array.toList

/-! ### Containers -/

variable (U : Unicode)

/-- `_validate_decoded_container`. -/
def validateDecodedContainer (raw : List UInt8) : Option (List Char) :=
  (decodeUtf8 raw).bind fun decoded =>
    if decoded.length < 8 then none
    else if decoded.all fun c => U.isPrintable c || c ∈ ['\t', '\n', '\r'] then some decoded
    else none

/-- `_URLSAFE_TO_STANDARD`. -/
def urlsafeToStandard (c : Char) : Char := if c = '-' then '+' else if c = '_' then '/' else c

/-- `_decode_base64_container`. -/
def decodeBase64Container (blob : List Char) : Option (List Char) :=
  let padded := pad 4 (unpad blob)
  let translated := padded.map urlsafeToStandard
  -- the first candidate that decodes is the one that is validated
  ((b64decode padded).or (if translated ≠ padded then b64decode translated else none)).bind
    (validateDecodedContainer U)

/-- `_decode_hex_container`. -/
def decodeHexContainer (blob : List Char) : Option (List Char) :=
  (fromhex blob).bind (validateDecodedContainer U)

/-- `_decode_base32_container`. -/
def decodeBase32Container (blob : List Char) : Option (List Char) :=
  (b32decode (pad 8 (unpad blob))).bind (validateDecodedContainer U)

/-! ### Probing -/

/-- `match.group(0)`. -/
def group (text : List Char) (m : ℕ × ℕ) : List Char := (text.take m.2).drop m.1

/-- The runs with their decoders. -/
def scanners : List (List (Item Char) × (List Char → Option (List Char))) :=
  [(encodedRun, decodeBase64Container U), (hexRun, decodeHexContainer U),
    (base32Run, decodeBase32Container U)]

/-- The runs of a text that are decoded, with what is decoded. -/
def decodedRuns (text : List Char) : List ((ℕ × ℕ) × List Char) :=
  (scanners U).flatMap fun scanner => (finditer scanner.1 text).filterMap fun m =>
    (scanner.2 (group text m)).map fun decoded => (m, decoded)

/-- The surfaces of a decoded text: it and its normalised form. -/
def surfaces (decoded : List Char) : List (List Char) :=
  let normalized := homoglyphNormalize (unicodeNormalize U decoded)
  if normalized ≠ decoded then [decoded, normalized] else [decoded]

variable (patterns : List Pattern)

/-- A pattern is found on some surface. -/
def onSurface (decoded : List Char) : Bool :=
  (surfaces U decoded).any fun surface => patterns.any fun p => p.search surface

/-- `_probe_encoded`. -/
def probeEncoded : ℕ → List Char → Bool
  | 0, decoded => onSurface U patterns decoded
  | remaining + 1, decoded =>
    onSurface U patterns decoded ||
      (decodedRuns U decoded).any fun run => probeEncoded remaining run.2

/-- `_ENCODED_MAX_DEPTH`. -/
def encodedMaxDepth : ℕ := 3

/-- `_scan_encoded_surfaces`. -/
def scanEncodedSurfaces (maxDepth : ℕ) (text : List Char) : List (ℕ × ℕ) :=
  mergeSpans (((decodedRuns U text).filter fun run =>
    probeEncoded U patterns (maxDepth - 1) run.2).map Prod.fst)

/-- The probe of `outer` calls the probe of `inner`: remaining levels and decoded text. -/
def ProbeCall (inner outer : ℕ × List Char) : Prop :=
  outer.1 = inner.1 + 1 ∧ ∃ m, (m, inner.2) ∈ decodedRuns U outer.2

/-! ### Encodings -/

/-- The encodings of a text; hexadecimal digits in lower or upper case. -/
inductive Encoding
  | base64
  | urlsafe
  | hex (upper : Bool)
  | base32

namespace Encoding

/-- The letters of the encoded bytes, without the signs that fill up the last block. -/
def letters : Encoding → List UInt8 → List Char
  | base64, bytes => base64Alphabet.encode bytes
  | urlsafe, bytes => urlsafeAlphabet.encode bytes
  | hex upper, bytes => (hexAlphabet upper).encode bytes
  | base32, bytes => base32Alphabet.encode bytes

/-- The size of a block, in letters. -/
def block : Encoding → ℕ
  | base64 | urlsafe => 4
  | hex _ => 1
  | base32 => 8

/-- The encoded bytes. -/
def encode (e : Encoding) (bytes : List UInt8) : List Char := pad e.block (e.letters bytes)

/-- The least number of letters in a run of the scanner. -/
def minRun : Encoding → ℕ
  | base64 | urlsafe | base32 => 16
  | hex _ => 24

end Encoding

/-- A text under encodings, the outermost first. -/
def nest : List Encoding → List Char → List Char
  | [], s => s
  | e :: es, s => e.encode (utf8 (nest es s))

/-- Each layer is as long as the run that its scanner looks for. -/
def LongEnough : List Encoding → List Char → Prop
  | [], _ => True
  | e :: es, s => e.minRun ≤ (e.letters (utf8 (nest es s))).length ∧ LongEnough es s

/-- The text is printable ASCII. -/
def PrintableAscii (text : List Char) : Prop := ∀ c ∈ text, 32 ≤ c.toNat ∧ c.toNat ≤ 126

instance (text : List Char) : Decidable (PrintableAscii text) :=
  inferInstanceAs (Decidable (∀ c ∈ text, _))

/-- The character is in `[A-Za-z0-9+/_=-]`. -/
def isRunChar (c : Char) : Bool := isBase64Char c || c = '='

/-- The neighbours of a blob are no characters of a run. -/
def Delimited (u v : List Char) : Prop :=
  (∀ c ∈ u.getLast?, isRunChar c = false) ∧ ∀ c ∈ v.head?, isRunChar c = false

variable {U patterns} {text u v s : List Char} {bytes : List UInt8} {e : Encoding}
  {es : List Encoding}

/-! ### Decoding a container -/

theorem decodeUtf8_utf8 (text : List Char) : decodeUtf8 (utf8 text) = some text := by
  have hencode : (utf8 text).toByteArray = text.utf8Encode := rfl
  rw [decodeUtf8, hencode, List.utf8Decode?_utf8Encode]
  rfl

theorem PrintableAscii.length_utf8 (h : PrintableAscii text) :
    (utf8 text).length = text.length := by
  induction text with
  | nil => rfl
  | cons c text ih =>
    obtain ⟨hc, h⟩ := List.forall_mem_cons.1 h
    have hval : c.val.toNat ≤ 127 := hc.2.trans (by decide)
    rw [utf8, List.flatMap_cons, List.length_append, String.utf8EncodeChar, if_pos hval]
    exact (Nat.add_comm _ _).trans (congrArg (· + 1) (ih h))

theorem validateDecodedContainer_utf8 (h : PrintableAscii text) (hlong : 8 ≤ text.length) :
    validateDecodedContainer U (utf8 text) = some text := by
  have hall : text.all (fun c => U.isPrintable c || c ∈ ['\t', '\n', '\r']) = true := by
    rw [List.all_eq_true]
    intro c hc
    rw [U.isPrintable_ascii c (h c hc).1 (h c hc).2, Bool.true_or]
  rw [validateDecodedContainer, decodeUtf8_utf8, Option.bind_some, if_neg (Nat.not_lt.2 hlong),
    if_pos hall]

/-! ### Letters -/

/-- What is to be known of the letters of an alphabet. -/
theorem forall_mem_encode {k : ℕ} {A : Alphabet k} {P : Char → Prop} (hk : 0 < k)
    (h : ∀ d < 2 ^ k, P (A.letter d)) : ∀ c ∈ A.encode bytes, P c := by
  intro c hc
  obtain ⟨d, hd, rfl⟩ := List.mem_map.1 hc
  exact h d (Alphabet.lt_of_mem_digits hk hd)

theorem isBase64Char_base64 : ∀ d < 2 ^ 6, isBase64Char (base64Alphabet.letter d) = true := by
  decide +kernel

theorem isBase64Char_urlsafe : ∀ d < 2 ^ 6, isBase64Char (urlsafeAlphabet.letter d) = true := by
  decide +kernel

theorem isHexChar_hex (upper : Bool) :
    ∀ d < 2 ^ 4, isHexChar ((hexAlphabet upper).letter d) = true := by
  cases upper <;> decide +kernel

theorem isBase32Char_base32 : ∀ d < 2 ^ 5, isBase32Char (base32Alphabet.letter d) = true := by
  decide +kernel

theorem isBase64Char_of_isHexChar {c : Char} (h : isHexChar c = true) : isBase64Char c = true := by
  have halnum : c.isAlphanum = true := by
    simp only [isHexChar, Bool.or_eq_true, Bool.and_eq_true, decide_eq_true_eq] at h
    simp only [Char.isAlphanum, Char.isAlpha, Bool.or_eq_true]
    rcases h with (h | h) | h
    · exact .inr h
    · refine .inl (.inr ?_)
      simp only [Char.isLower, Bool.and_eq_true, decide_eq_true_eq]
      exact ⟨h.1, h.2.trans (by decide)⟩
    · refine .inl (.inl ?_)
      simp only [Char.isUpper, decide_eq_true_eq]
      exact ⟨h.1, h.2.trans (by decide)⟩
  rw [isBase64Char, halnum]
  rfl

theorem isBase64Char_of_isBase32Char {c : Char} (h : isBase32Char c = true) :
    isBase64Char c = true := by
  have halnum : c.isAlphanum = true := by
    simp only [isBase32Char, Bool.or_eq_true, Bool.and_eq_true, decide_eq_true_eq] at h
    simp only [Char.isAlphanum, Char.isAlpha, Bool.or_eq_true]
    rcases h with h | h
    · exact .inl (.inl h)
    · refine .inr ?_
      simp only [Char.isDigit, Bool.and_eq_true, decide_eq_true_eq]
      exact ⟨le_trans (by decide) h.1, h.2.trans (by decide)⟩
  rw [isBase64Char, halnum]
  rfl

/-- The letters that a run of the scanner is made of. -/
def Encoding.isLetter : Encoding → Char → Bool
  | .base64 | .urlsafe => isBase64Char
  | .hex _ => isHexChar
  | .base32 => isBase32Char

theorem Encoding.isLetter_of_mem (e : Encoding) : ∀ c ∈ e.letters bytes, e.isLetter c = true := by
  cases e with
  | base64 => exact forall_mem_encode (by decide) isBase64Char_base64
  | urlsafe => exact forall_mem_encode (by decide) isBase64Char_urlsafe
  | hex upper => exact forall_mem_encode (by decide) (isHexChar_hex upper)
  | base32 => exact forall_mem_encode (by decide) isBase32Char_base32

theorem Encoding.isBase64Char_of_isLetter {c : Char} (h : e.isLetter c = true) :
    isBase64Char c = true := by
  cases e with
  | base64 | urlsafe => exact h
  | hex upper => exact isBase64Char_of_isHexChar h
  | base32 => exact isBase64Char_of_isBase32Char h

/-- The letters of a run are none of the characters around it. -/
theorem Encoding.isLetter_eq_false {c : Char} (e : Encoding) (h : isRunChar c = false) :
    e.isLetter c = false := by
  rw [Bool.eq_false_iff]
  intro hletter
  rw [isRunChar, isBase64Char_of_isLetter hletter] at h
  exact absurd h (by simp)

theorem Encoding.not_any_isLetter (e : Encoding) {o : Option Char}
    (h : ∀ c ∈ o, isRunChar c = false) : (!o.any e.isLetter) = true := by
  cases o with
  | none => rfl
  | some c => rw [Option.any_some, e.isLetter_eq_false (h c rfl)]; rfl

theorem Encoding.isLetter_eq_sign (e : Encoding) : e.isLetter '=' = false := by
  cases e <;> rfl

theorem Encoding.ne_sign_of_mem {c : Char} (h : c ∈ e.letters bytes) : c ≠ '=' := by
  rintro rfl
  exact absurd (e.isLetter_of_mem _ h) (by simp [e.isLetter_eq_sign])

theorem printable_of_isBase64Char {c : Char} (h : isBase64Char c = true) :
    32 ≤ c.toNat ∧ c.toNat ≤ 126 := by
  simp only [isBase64Char, Char.isAlphanum, Char.isAlpha, Char.isUpper, Char.isLower, Char.isDigit,
    Bool.or_eq_true, Bool.and_eq_true, decide_eq_true_eq, ge_iff_le, UInt32.le_iff_toNat_le] at h
  change (((((65 ≤ c.toNat ∧ c.toNat ≤ 90 ∨ 97 ≤ c.toNat ∧ c.toNat ≤ 122) ∨
    48 ≤ c.toNat ∧ c.toNat ≤ 57) ∨ c = '+') ∨ c = '/') ∨ c = '_') ∨ c = '-' at h
  rcases h with (((((h | h) | h) | rfl) | rfl) | rfl) | rfl
  · omega
  · omega
  · omega
  all_goals decide

/-- Encoded bytes are printable. -/
theorem Encoding.printableAscii_encode : PrintableAscii (e.encode bytes) := by
  intro c hc
  rcases List.mem_append.1 hc with hc | hc
  · exact printable_of_isBase64Char (isBase64Char_of_isLetter (e.isLetter_of_mem c hc))
  · rw [List.eq_of_mem_replicate hc]
    decide

/-! ### Lengths -/

/-- How many signs fill up the last block. -/
def Encoding.signs (e : Encoding) (bytes : List UInt8) : ℕ :=
  (e.block - (e.letters bytes).length % e.block) % e.block

theorem Encoding.encode_eq : e.encode bytes = e.letters bytes ++ List.replicate (e.signs bytes) '='
    := rfl

theorem length_base64_letters (h : e = .base64 ∨ e = .urlsafe) :
    (e.letters bytes).length = (bytes.length * 8 + 5) / 6 := by
  rcases h with rfl | rfl <;> exact Alphabet.length_encode

theorem signs_base64 (h : e = .base64 ∨ e = .urlsafe) : e.signs bytes ≤ 2 := by
  have hlength := @length_base64_letters bytes e h
  have hblock : e.block = 4 := by rcases h with rfl | rfl <;> rfl
  rw [Encoding.signs, hlength, hblock]
  omega

theorem signs_hex {upper : Bool} : (Encoding.hex upper).signs bytes = 0 := Nat.mod_one _

theorem length_hex_letters {upper : Bool} :
    ((Encoding.hex upper).letters bytes).length = bytes.length * 2 := by
  rw [Encoding.letters, Alphabet.length_encode, Alphabet.digitCount]
  omega

theorem signs_base32 : Encoding.base32.signs bytes ∈ [0, 1, 3, 4, 6] := by
  rw [Encoding.signs, Encoding.letters, Alphabet.length_encode, Alphabet.digitCount,
    Encoding.block]
  simp only [List.mem_cons, List.not_mem_nil, or_false]
  omega

/-- A layer that is long enough holds a text of eight bytes at least. -/
theorem Encoding.eight_le (h : e.minRun ≤ (e.letters bytes).length) : 8 ≤ bytes.length := by
  cases e with
  | base64 | urlsafe =>
    rw [length_base64_letters (by simp), minRun] at h
    omega
  | hex upper =>
    rw [length_hex_letters, minRun] at h
    omega
  | base32 =>
    rw [letters, Alphabet.length_encode, Alphabet.digitCount, minRun] at h
    omega

/-! ### Decoding a run -/

theorem unpad_encode (e : Encoding) : unpad (e.encode bytes) = e.letters bytes :=
  unpad_pad fun _ hc => Encoding.ne_sign_of_mem (List.mem_of_getLast? hc)

theorem b64decode_encode : b64decode (Encoding.base64.encode bytes) = some bytes := by
  have hsigns := @signs_base64 bytes .base64 (.inl rfl)
  rw [b64decode, unpad_encode, if_pos]
  · exact Alphabet.decode_encode (by decide) (by decide)
  · refine ⟨length_pad (by decide) _, ?_⟩
    rw [Encoding.encode_eq, List.length_append, List.length_replicate]
    omega

theorem value_urlsafe_letter : ∀ d < 2 ^ 6,
    base64Alphabet.value (urlsafeAlphabet.letter d) = none ∨
      base64Alphabet.value (urlsafeAlphabet.letter d) = some d := by
  decide +kernel

theorem toStandard_urlsafe_letter : ∀ d < 2 ^ 6,
    urlsafeToStandard (urlsafeAlphabet.letter d) = base64Alphabet.letter d := by
  decide +kernel

/-- Letters of the other alphabet are read as the digits they stand for, or not at all. -/
theorem eq_of_mapM_value {ds ds' : List ℕ} (h : ∀ d ∈ ds, d < 2 ^ 6)
    (hok : (ds.map urlsafeAlphabet.letter).mapM base64Alphabet.value = some ds') : ds' = ds := by
  induction ds generalizing ds' with
  | nil => exact (Option.some.inj hok).symm
  | cons d ds ih =>
    obtain ⟨hd, hds⟩ := List.forall_mem_cons.1 h
    rw [List.map_cons, List.mapM_cons] at hok
    obtain ⟨x, hx, hok⟩ := Option.bind_eq_some_iff.1 hok
    obtain ⟨xs, hxs, hok⟩ := Option.bind_eq_some_iff.1 hok
    obtain rfl := Option.some.inj hok
    rw [ih hds hxs]
    rcases value_urlsafe_letter d hd with hnone | hsome
    · exact absurd (hnone.symm.trans hx) (by simp)
    · rw [Option.some.inj (hx.symm.trans hsome)]

theorem b64decode_urlsafe {raw : List UInt8}
    (h : b64decode (Encoding.urlsafe.encode bytes) = some raw) : raw = bytes := by
  rw [b64decode, unpad_encode] at h
  split_ifs at h with hlen
  obtain ⟨ds, hds, rfl⟩ := Option.map_eq_some_iff.1 h
  rw [eq_of_mapM_value (fun d hd => Alphabet.lt_of_mem_digits (by decide) hd) hds]
  exact Alphabet.bytesOf_digits (by decide) (by decide)

theorem map_toStandard_urlsafe :
    (Encoding.urlsafe.encode bytes).map urlsafeToStandard = Encoding.base64.encode bytes := by
  have hletters : (Encoding.urlsafe.letters bytes).map urlsafeToStandard =
      Encoding.base64.letters bytes := by
    rw [Encoding.letters, Encoding.letters, Alphabet.encode, Alphabet.encode, List.map_map]
    exact List.map_congr_left fun d hd =>
      toStandard_urlsafe_letter d (Alphabet.lt_of_mem_digits (by decide) hd)
  have hsigns : Encoding.urlsafe.signs bytes = Encoding.base64.signs bytes := by
    rw [Encoding.signs, Encoding.signs, ← hletters, List.length_map]
    rfl
  rw [Encoding.encode_eq, Encoding.encode_eq, List.map_append, List.map_replicate, hletters, hsigns]
  rfl

theorem decodeBase64Container_encode (h : e = .base64 ∨ e = .urlsafe) :
    decodeBase64Container U (e.encode bytes) = validateDecodedContainer U bytes := by
  have hpadded : pad 4 (unpad (e.encode bytes)) = e.encode bytes := by
    rw [unpad_encode]
    rcases h with rfl | rfl <;> rfl
  rw [decodeBase64Container, hpadded]
  rcases h with rfl | rfl
  · rw [b64decode_encode]
    rfl
  · rw [map_toStandard_urlsafe, b64decode_encode]
    -- the first candidate is the second, or has a letter that does not decode
    cases hfirst : b64decode (Encoding.urlsafe.encode bytes) with
    | some raw => rw [b64decode_urlsafe hfirst]; rfl
    | none =>
      have hne : Encoding.base64.encode bytes ≠ Encoding.urlsafe.encode bytes := by
        intro heq
        rw [← heq, b64decode_encode] at hfirst
        exact absurd hfirst (by simp)
      rw [if_pos hne]
      rfl

theorem decodeHexContainer_encode {upper : Bool} :
    decodeHexContainer U ((Encoding.hex upper).encode bytes) =
      validateDecodedContainer U bytes := by
  have hletters : (Encoding.hex upper).encode bytes = (hexAlphabet upper).encode bytes := by
    rw [Encoding.encode_eq, signs_hex, List.replicate_zero, List.append_nil, Encoding.letters]
  have hdecode : (hexAlphabet false).decode ((hexAlphabet upper).encode bytes) = some bytes :=
    @Alphabet.decode_encode 4 (hexAlphabet upper) bytes (by decide) (by decide)
  have heven : ((hexAlphabet upper).encode bytes).length % 2 = 0 := by
    rw [show ((hexAlphabet upper).encode bytes).length = bytes.length * 2 from length_hex_letters,
      Nat.mul_mod_left]
  rw [decodeHexContainer, hletters, fromhex, if_pos heven, hdecode]
  rfl

theorem decodeBase32Container_encode :
    decodeBase32Container U (Encoding.base32.encode bytes) = validateDecodedContainer U bytes := by
  have hdecode : b32decode (Encoding.base32.encode bytes) = some bytes := by
    rw [b32decode, unpad_encode, if_pos]
    · exact Alphabet.decode_encode (by decide) (by decide)
    · refine ⟨length_pad (by decide) _, ?_⟩
      rw [Encoding.encode_eq, List.length_append, List.length_replicate, Nat.add_sub_cancel_left]
      exact signs_base32
  have hpadded : pad 8 (unpad (Encoding.base32.encode bytes)) = Encoding.base32.encode bytes := by
    rw [unpad_encode]
    rfl
  rw [decodeBase32Container, hpadded, hdecode]
  rfl

/-! ### Finding a run -/

/-- Signs that fill up a block, as many as the run may have. -/
theorem matchLength_signs {items : List (Item Char)} {before : Option Char} {n most : ℕ}
    (hn : n ≤ most) (hstop : ∀ c ∈ v.head?, isRunChar c = false)
    (hrest : matchLength items (lastOf before (List.replicate n '=')) v = some 0) :
    matchLength (.run 1 (· = '=') 0 (some most) :: items) before (List.replicate n '=' ++ v) =
      some n := by
  have hsign : ∀ c ∈ v.head?, decide (c = '=') = false := by
    intro c hc
    rw [decide_eq_false_iff_not]
    rintro rfl
    exact absurd (hstop _ hc) (by decide)
  have hrun := @matchLength_run_append _ items before (List.replicate n '=') v 0 0 (some most)
    (· = '=') 1 n Nat.one_pos (by simp) (Nat.zero_le _) (by simp) hsign (by simpa using hn) hrest
  rw [hrun, List.length_replicate, Nat.add_zero]

/-- Before the signs, and before the text after the blob, stands no letter. -/
theorem isLetter_head?_eq_false (n : ℕ) (hstop : ∀ c ∈ v.head?, isRunChar c = false) :
    ∀ c ∈ (List.replicate n '=' ++ v).head?, e.isLetter c = false := by
  intro c hc
  cases n with
  | zero => exact e.isLetter_eq_false (hstop c hc)
  | succ n =>
    obtain rfl : '=' = c := by simpa [List.replicate_succ] using hc
    exact e.isLetter_eq_sign

/-- The letters of a blob are one run of its scanner. -/
theorem matchLength_letters {items : List (Item Char)} {before : Option Char} {size lo k n : ℕ}
    {rest : List Char} (hsize : 0 < size) (hlen : (e.letters bytes).length = k * size)
    (hlo : lo ≤ k) (hstop : ∀ c ∈ rest.head?, e.isLetter c = false)
    (hrest : matchLength items (lastOf before (e.letters bytes)) rest = some n) :
    matchLength (.run size e.isLetter lo none :: items) before (e.letters bytes ++ rest) =
      some ((e.letters bytes).length + n) :=
  matchLength_run_append hsize hlen hlo e.isLetter_of_mem hstop
    (fun _ h => absurd h (by simp)) hrest

theorem matchLength_encodedRun {before : Option Char} (h : e = .base64 ∨ e = .urlsafe)
    (hlong : e.minRun ≤ (e.letters bytes).length) (hstop : ∀ c ∈ v.head?, isRunChar c = false) :
    matchLength encodedRun before (e.encode bytes ++ v) = some (e.encode bytes).length := by
  have hclass : e.isLetter = isBase64Char := by rcases h with rfl | rfl <;> rfl
  have hmin : e.minRun = 16 := by rcases h with rfl | rfl <;> rfl
  rw [Encoding.encode_eq, List.append_assoc, List.length_append, List.length_replicate, encodedRun,
    ← hclass]
  exact matchLength_letters Nat.one_pos (Nat.mul_one _).symm (hmin ▸ hlong)
    (isLetter_head?_eq_false _ hstop) (matchLength_signs (signs_base64 h) hstop rfl)

theorem matchLength_hexRun {before : Option Char} {upper : Bool}
    (hlong : (Encoding.hex upper).minRun ≤ ((Encoding.hex upper).letters bytes).length)
    (hbefore : ∀ c ∈ before, isRunChar c = false) (hstop : ∀ c ∈ v.head?, isRunChar c = false) :
    matchLength hexRun before ((Encoding.hex upper).encode bytes ++ v) =
      some ((Encoding.hex upper).encode bytes).length := by
  have hletters : (Encoding.hex upper).encode bytes = (Encoding.hex upper).letters bytes := by
    rw [Encoding.encode_eq, signs_hex, List.replicate_zero, List.append_nil]
  have hlen := @length_hex_letters bytes upper
  rw [hlen, Encoding.minRun] at hlong
  have htwelve : 12 ≤ bytes.length := by omega
  rw [hletters, hexRun, notAfter, matchLength_look ((Encoding.hex upper).not_any_isLetter hbefore)]
  refine matchLength_letters (n := 0) Nat.two_pos hlen htwelve
    (fun c hc => Encoding.isLetter_eq_false _ (hstop c hc)) ?_
  rw [notAhead, matchLength_look ((Encoding.hex upper).not_any_isLetter hstop), matchLength_nil]

theorem matchLength_base32Run {before : Option Char}
    (hlong : Encoding.base32.minRun ≤ (Encoding.base32.letters bytes).length)
    (hbefore : ∀ c ∈ before, isRunChar c = false) (hstop : ∀ c ∈ v.head?, isRunChar c = false) :
    matchLength base32Run before (Encoding.base32.encode bytes ++ v) =
      some (Encoding.base32.encode bytes).length := by
  have hsigns : Encoding.base32.signs bytes ≤ 6 :=
    (by decide : ∀ n ∈ [0, 1, 3, 4, 6], n ≤ 6) _ signs_base32
  rw [Encoding.encode_eq, List.append_assoc, List.length_append, List.length_replicate, base32Run,
    notAfter, matchLength_look (Encoding.base32.not_any_isLetter hbefore)]
  refine matchLength_letters Nat.one_pos (Nat.mul_one _).symm hlong
    (isLetter_head?_eq_false _ hstop) (matchLength_signs hsigns hstop ?_)
  rw [notAhead, matchLength_look (Encoding.base32.not_any_isLetter hstop), matchLength_nil]

theorem group_middle (l : List Char) :
    group (u ++ (l ++ v)) (u.length, u.length + l.length) = l := by
  rw [group, ← List.append_assoc, ← List.length_append, List.take_left, List.drop_left]

/-- A scanner finds its blob between delimiters. -/
theorem mem_decodedRuns {items : List (Item Char)} {decoder : List Char → Option (List Char)}
    {blob decoded : List Char} (hscanner : (items, decoder) ∈ scanners U)
    (hitems : ∀ c, ∀ i ∈ items, i.takes c → isRunChar c = true)
    (hu : ∀ c ∈ u.getLast?, isRunChar c = false) (hblob : 0 < blob.length)
    (hmatch : matchLength items (lastOf none u) (blob ++ v) = some blob.length)
    (hdecode : decoder blob = some decoded) :
    ((u.length, u.length + blob.length), decoded) ∈ decodedRuns U (u ++ (blob ++ v)) := by
  refine List.mem_flatMap.2
    ⟨_, hscanner, List.mem_filterMap.2 ⟨_, mem_finditer_middle hmatch hblob ?_,
    ?_⟩⟩
  · intro c hc i hi htakes
    exact absurd (hitems c i hi htakes) (by simp [hu c hc])
  · rw [group_middle, show (items, decoder).2 blob = some decoded from hdecode]
    rfl

theorem takes_encodedRun : ∀ c, ∀ i ∈ encodedRun, i.takes c → isRunChar c = true := by
  intro c
  simp only [encodedRun, List.forall_mem_cons, Item.takes, isRunChar, Bool.or_eq_true]
  exact ⟨Or.inl, Or.inr, fun _ h => absurd h List.not_mem_nil⟩

theorem takes_hexRun : ∀ c, ∀ i ∈ hexRun, i.takes c → isRunChar c = true := by
  intro c
  simp only [hexRun, notAfter, notAhead, List.forall_mem_cons, Item.takes, isRunChar,
    Bool.or_eq_true]
  exact ⟨False.elim, fun h => .inl (isBase64Char_of_isHexChar h), False.elim,
    fun _ h => absurd h List.not_mem_nil⟩

theorem takes_base32Run : ∀ c, ∀ i ∈ base32Run, i.takes c → isRunChar c = true := by
  intro c
  simp only [base32Run, notAfter, notAhead, List.forall_mem_cons, Item.takes, isRunChar,
    Bool.or_eq_true]
  exact ⟨False.elim, fun h => .inl (isBase64Char_of_isBase32Char h), Or.inr, False.elim,
    fun _ h => absurd h List.not_mem_nil⟩

/-- **An encoded text between delimiters** is one run, and is decoded to what it was made from. -/
theorem decodedRuns_encode {decoded : List Char} (hlong : e.minRun ≤ (e.letters bytes).length)
    (hd : Delimited u v) (hvalid : validateDecodedContainer U bytes = some decoded) :
    ((u.length, u.length + (e.encode bytes).length), decoded) ∈
      decodedRuns U (u ++ (e.encode bytes ++ v)) := by
  have hlast : ∀ c ∈ lastOf none u, isRunChar c = false := by
    rw [lastOf, Option.or_none]
    exact hd.1
  have hpos : 0 < (e.encode bytes).length := by
    have := Encoding.eight_le hlong
    have hmin : 0 < e.minRun := by cases e <;> exact Nat.succ_pos _
    rw [Encoding.encode_eq, List.length_append]
    omega
  cases e with
  | base64 =>
    exact mem_decodedRuns (by simp [scanners]) takes_encodedRun hd.1 hpos
      (matchLength_encodedRun (.inl rfl) hlong hd.2)
      ((decodeBase64Container_encode (.inl rfl)).trans hvalid)
  | urlsafe =>
    exact mem_decodedRuns (by simp [scanners]) takes_encodedRun hd.1 hpos
      (matchLength_encodedRun (.inr rfl) hlong hd.2)
      ((decodeBase64Container_encode (.inr rfl)).trans hvalid)
  | hex upper =>
    exact mem_decodedRuns (by simp [scanners]) takes_hexRun hd.1 hpos
      (matchLength_hexRun hlong hlast hd.2) (decodeHexContainer_encode.trans hvalid)
  | base32 =>
    exact mem_decodedRuns (by simp [scanners]) takes_base32Run hd.1 hpos
      (matchLength_base32Run hlong hlast hd.2) (decodeBase32Container_encode.trans hvalid)

/-! ### Probing nested texts -/

theorem printableAscii_nest (h : PrintableAscii s) : PrintableAscii (nest es s) := by
  cases es with
  | nil => exact h
  | cons e es => exact Encoding.printableAscii_encode

/-- What the outermost layer of a nested text is decoded to. -/
theorem validate_nest (h : PrintableAscii s) (hlong : LongEnough (e :: es) s) :
    validateDecodedContainer U (utf8 (nest es s)) = some (nest es s) := by
  refine validateDecodedContainer_utf8 (printableAscii_nest h) ?_
  have height := Encoding.eight_le hlong.1
  rwa [(printableAscii_nest h).length_utf8] at height

theorem onSurface_of_search {p : Pattern} (hp : p ∈ patterns) (h : p.search s = true) :
    onSurface U patterns s = true := by
  rw [onSurface, List.any_eq_true]
  refine ⟨s, ?_, List.any_eq_true.2 ⟨p, hp, h⟩⟩
  simp only [surfaces]
  split_ifs
  · exact List.mem_cons_self
  · exact List.mem_singleton_self _

/-- What a probe looks at. -/
theorem probeEncoded_iff {remaining : ℕ} {decoded : List Char} :
    probeEncoded U patterns remaining decoded = true ↔ onSurface U patterns decoded = true ∨
      ∃ inner, ProbeCall U inner (remaining, decoded) ∧
        probeEncoded U patterns inner.1 inner.2 = true := by
  cases remaining with
  | zero =>
    rw [probeEncoded]
    refine (or_iff_left ?_).symm
    rintro ⟨inner, hcall, -⟩
    exact absurd hcall.1 (by simp)
  | succ remaining =>
    rw [probeEncoded, Bool.or_eq_true, List.any_eq_true]
    refine or_congr_right ⟨?_, ?_⟩
    · rintro ⟨run, hrun, hprobe⟩
      exact ⟨(remaining, run.2), ⟨rfl, run.1, hrun⟩, hprobe⟩
    · rintro ⟨⟨r, inner⟩, ⟨hr, m, hm⟩, hprobe⟩
      obtain rfl : remaining = r := Nat.succ_injective hr
      exact ⟨(m, inner), hm, hprobe⟩

/-- **The probe sees through as many encodings as it has levels left.** -/
theorem probeEncoded_nest {p : Pattern} (hp : p ∈ patterns) (hs : p.search s = true)
    (hascii : PrintableAscii s) : ∀ {remaining}, es.length ≤ remaining → LongEnough es s →
      probeEncoded U patterns remaining (nest es s) = true := by
  induction es with
  | nil => exact fun _ _ => probeEncoded_iff.2 (.inl (onSurface_of_search hp hs))
  | cons e es ih =>
    intro remaining hle hlong
    obtain ⟨remaining, rfl⟩ := Nat.exists_eq_add_of_lt (Nat.lt_of_succ_le hle)
    have hdelimited : Delimited [] [] :=
      ⟨fun _ h => absurd h (by simp), fun _ h => absurd h (by simp)⟩
    have hrun := decodedRuns_encode hlong.1 hdelimited (validate_nest (U := U) hascii hlong)
    rw [List.nil_append, List.append_nil] at hrun
    refine probeEncoded_iff.2 (.inr ⟨(es.length + remaining, nest es s), ⟨rfl, _, hrun⟩, ?_⟩)
    exact ih (Nat.le_add_right _ _) hlong.2

/-- The levels left go down with each call. -/
theorem wellFounded_probeCall : WellFounded (ProbeCall U) := by
  refine Subrelation.wf (fun {inner outer} h => ?_) (measure Prod.fst).wf
  exact Nat.lt_of_succ_le h.1.ge

variable (U patterns)

/-- **Credentials under encodings.**  A printable ASCII text that some pattern matches, under one to
three encodings that are each as long as the run of their scanner, is covered by a span wherever it
stands between delimiters.  A probe asks for the surfaces of its text and for the probes that it
calls, and the calls are well founded. -/
theorem scanEncodedSurfaces_spec :
    (∀ (s : List Char) (es : List Encoding) (u v : List Char), PrintableAscii s →
      (∃ p ∈ patterns, p.search s = true) → 1 ≤ es.length → es.length ≤ 3 → LongEnough es s →
      Delimited u v →
        ∃ span ∈ scanEncodedSurfaces U patterns encodedMaxDepth (u ++ (nest es s ++ v)),
          span.1 ≤ u.length ∧ u.length + (nest es s).length ≤ span.2) ∧
    (∀ remaining decoded, probeEncoded U patterns remaining decoded = true ↔
      onSurface U patterns decoded = true ∨ ∃ inner, ProbeCall U inner (remaining, decoded) ∧
        probeEncoded U patterns inner.1 inner.2 = true) ∧
    WellFounded (ProbeCall U) := by
  refine ⟨?_, fun _ _ => probeEncoded_iff, wellFounded_probeCall⟩
  rintro s es u v hascii ⟨p, hp, hs⟩ hone hthree hlong hd
  cases es with
  | nil => exact absurd hone (by simp)
  | cons e es =>
    have hrun := decodedRuns_encode hlong.1 hd (validate_nest (U := U) hascii hlong)
    have hprobe := probeEncoded_nest (U := U) hp hs hascii (Nat.le_of_succ_le_succ hthree) hlong.2
    exact exists_mem_merge (List.mem_map.2 ⟨_, List.mem_filter.2 ⟨hrun, hprobe⟩, rfl⟩)

/-- The characters for ASCII texts. -/
def Unicode.ascii : Unicode where
  nfkc text := text
  isPrintable c := 32 ≤ c.toNat && c.toNat ≤ 126
  isPrintable_ascii c h h' := by rw [decide_eq_true h, decide_eq_true h']; rfl

/-- A token in hexadecimal digits inside base64. -/
theorem scanEncodedSurfaces_hex :
    ∃ span ∈ scanEncodedSurfaces .ascii [openaiProject.pattern .ascii] encodedMaxDepth
      ("blob ".toList ++ (nest [.base64, .hex false] "sk-proj-0123456789abcdefghij".toList ++
        " in log".toList)),
      span.1 ≤ "blob ".toList.length ∧ "blob ".toList.length +
        (nest [.base64, .hex false] "sk-proj-0123456789abcdefghij".toList).length ≤ span.2 := by
  refine (scanEncodedSurfaces_spec .ascii [openaiProject.pattern .ascii]).1 _ _ _ _ ?_
    ⟨_, List.mem_singleton_self _, ?_⟩ ?_ ?_ ⟨?_, ?_, trivial⟩ ⟨?_, ?_⟩
  all_goals decide +kernel

end Shiroe

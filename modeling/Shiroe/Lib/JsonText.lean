import Shiroe.Lib.Json

/-!
# The canonical text of a JSON value

`Json.dumps ascii` is the text `json.dumps(v, sort_keys=True, separators=(",", ":"),
ensure_ascii=ascii)`.  A dict is held in key order, so sorting the keys leaves it as it is.

The ASCII text determines the value (`Json.dumps_injective`).  The proof reads the text from the
left: a value is recognised by its first character, a string by a one-character decoder
(`Json.readChar`), a number as the longest run of number characters.  What follows a value never
starts with a number character (`Json.NoNum`), so the run ends where the number does.
-/

namespace Shiroe

namespace Json

/-! ### Rendering -/

/-- `'{0:04x}'.format(n)` for `n < 0x10000`. -/
def hex4 (n : ℕ) : List Char :=
  [(n / 4096 % 16).digitChar, (n / 256 % 16).digitChar, (n / 16 % 16).digitChar,
    (n % 16).digitChar]

/-- `\\uXXXX`, a surrogate pair for a character outside the basic plane. -/
def escUnicode (c : Char) : List Char :=
  if c.toNat < 0x10000 then '\\' :: 'u' :: hex4 c.toNat
  else '\\' :: 'u' :: hex4 (0xd800 + (c.toNat - 0x10000) / 1024) ++
    '\\' :: 'u' :: hex4 (0xdc00 + (c.toNat - 0x10000) % 1024)

/-- The escape of one character of a string. -/
def escChar (ascii : Bool) (c : Char) : List Char :=
  if c = '"' then ['\\', '"']
  else if c = '\\' then ['\\', '\\']
  else if c = '\n' then ['\\', 'n']
  else if c = '\r' then ['\\', 'r']
  else if c = '\t' then ['\\', 't']
  else if c = '\x0c' then ['\\', 'f']
  else if c = '\x08' then ['\\', 'b']
  else if c.toNat < 0x20 ∨ (ascii = true ∧ 0x7e < c.toNat) then escUnicode c
  else [c]

/-- A string literal. -/
def dumpsStr (ascii : Bool) (s : String) : List Char :=
  '"' :: s.toList.flatMap (escChar ascii) ++ ['"']

/-- The decimal text of an integer. -/
def dumpsInt : ℤ → List Char
  | .ofNat n => Nat.toDigits 10 n
  | .negSucc n => '-' :: Nat.toDigits 10 (n + 1)

mutual
/-- `json.dumps(v, sort_keys=True, separators=(",", ":"), ensure_ascii=ascii)`. -/
def dumps (ascii : Bool) : Json → List Char
  | .null => ['n', 'u', 'l', 'l']
  | .bool true => ['t', 'r', 'u', 'e']
  | .bool false => ['f', 'a', 'l', 's', 'e']
  | .int n => dumpsInt n
  | .float x => x.repr.toList
  | .str s => dumpsStr ascii s
  | .arr l => '[' :: dumpsItems ascii l
  | .obj d => '{' :: dumpsFields ascii d
/-- The items of an array and the closing bracket. -/
def dumpsItems (ascii : Bool) : List Json → List Char
  | [] => [']']
  | [a] => dumps ascii a ++ [']']
  | a :: b :: l => dumps ascii a ++ ',' :: dumpsItems ascii (b :: l)
/-- The fields of an object and the closing brace. -/
def dumpsFields (ascii : Bool) : List (String × Json) → List Char
  | [] => ['}']
  | [(k, a)] => dumpsStr ascii k ++ ':' :: dumps ascii a ++ ['}']
  | (k, a) :: b :: d =>
    dumpsStr ascii k ++ ':' :: dumps ascii a ++ ',' :: dumpsFields ascii (b :: d)
end

/-! ### Reading one character of a string literal -/

/-- The value of a lower-case hexadecimal digit. -/
def hexVal (c : Char) : Option ℕ := (List.range 16).find? fun d => d.digitChar == c

theorem hexVal_digitChar : ∀ d < 16, hexVal d.digitChar = some d := by decide

/-- Read four hexadecimal digits. -/
def readHex4 : List Char → Option (ℕ × List Char)
  | a :: b :: c :: d :: s => do
    return (4096 * (← hexVal a) + 256 * (← hexVal b) + 16 * (← hexVal c) + (← hexVal d), s)
  | _ => none

theorem readHex4_hex4 {n : ℕ} (h : n < 0x10000) (s : List Char) :
    readHex4 (hex4 n ++ s) = some (n, s) := by
  have e₁ := hexVal_digitChar (n / 4096 % 16) (by omega)
  have e₂ := hexVal_digitChar (n / 256 % 16) (by omega)
  have e₃ := hexVal_digitChar (n / 16 % 16) (by omega)
  have e₄ := hexVal_digitChar (n % 16) (by omega)
  have e : 4096 * (n / 4096 % 16) + 256 * (n / 256 % 16) + 16 * (n / 16 % 16) + n % 16 = n := by
    omega
  simp only [hex4, List.cons_append, List.nil_append, readHex4, e₁, e₂, e₃, e₄,
    Option.bind_eq_bind, Option.bind_some, e, Option.pure_def]

/-- Read one character of a string literal; `none` at its closing quote. -/
def readChar : List Char → Option (Char × List Char)
  | '"' :: _ => none
  | '\\' :: '"' :: s => some ('"', s)
  | '\\' :: '\\' :: s => some ('\\', s)
  | '\\' :: 'n' :: s => some ('\n', s)
  | '\\' :: 'r' :: s => some ('\r', s)
  | '\\' :: 't' :: s => some ('\t', s)
  | '\\' :: 'f' :: s => some ('\x0c', s)
  | '\\' :: 'b' :: s => some ('\x08', s)
  | '\\' :: 'u' :: s => do
    let (n, s) ← readHex4 s
    if n < 0xd800 ∨ 0xdbff < n then return (Char.ofNat n, s)
    let (m, s) ← readHex4 (s.drop 2)
    return (Char.ofNat (0x10000 + (n - 0xd800) * 1024 + (m - 0xdc00)), s)
  | c :: s => some (c, s)
  | [] => none

/-- The code point of a character: below the surrogates, or between them and the end. -/
theorem toNat_valid (c : Char) :
    c.toNat < 0xd800 ∨ (0xdfff < c.toNat ∧ c.toNat < 0x110000) := c.valid

/-- A surrogate pair is read as the character it encodes. -/
theorem readChar_pair {hi lo : ℕ} (h₁ : 0xd800 ≤ hi) (h₂ : hi ≤ 0xdbff) (h₃ : lo < 0x10000)
    (s : List Char) :
    readChar ('\\' :: 'u' :: hex4 hi ++ ('\\' :: 'u' :: hex4 lo ++ s)) =
      some (Char.ofNat (0x10000 + (hi - 0xd800) * 1024 + (lo - 0xdc00)), s) := by
  have hhi : hi < 0x10000 := by omega
  have hs : ¬ (hi < 0xd800 ∨ 0xdbff < hi) := by omega
  simp only [List.cons_append, readChar, readHex4_hex4 hhi, Option.bind_eq_bind,
    Option.bind_some, if_neg hs, List.drop_succ_cons, List.drop_zero, readHex4_hex4 h₃,
    Option.pure_def]
theorem readChar_escUnicode (c : Char) (s : List Char) :
    readChar (escUnicode c ++ s) = some (c, s) := by
  have hv := toNat_valid c
  unfold escUnicode
  split_ifs with h
  · have hs : c.toNat < 0xd800 ∨ 0xdbff < c.toNat := by omega
    simp only [List.cons_append, readChar, readHex4_hex4 h, Option.bind_eq_bind,
      Option.bind_some, hs, ↓reduceIte, Char.ofNat_toNat, Option.pure_def]
  · rw [List.append_assoc, readChar_pair (by omega) (by omega) (by omega),
      show 0x10000 + (0xd800 + (c.toNat - 0x10000) / 1024 - 0xd800) * 1024 +
        (0xdc00 + (c.toNat - 0x10000) % 1024 - 0xdc00) = c.toNat by omega, Char.ofNat_toNat]

theorem readChar_escChar (ascii : Bool) (c : Char) (s : List Char) :
    readChar (escChar ascii c ++ s) = some (c, s) := by
  unfold escChar
  split_ifs with h₁ h₂ h₃ h₄ h₅ h₆ h₇ h₈
  · subst h₁; rfl
  · subst h₂; rfl
  · subst h₃; rfl
  · subst h₄; rfl
  · subst h₅; rfl
  · subst h₆; rfl
  · subst h₇; rfl
  · exact readChar_escUnicode c s
  · rw [List.singleton_append, readChar.eq_def]
    split <;> simp_all

/-- The body of a literal is read back from its text: no escape starts with a quote. -/
theorem flatMap_escChar_inj (ascii : Bool) :
    ∀ (l l' s s' : List Char), l.flatMap (escChar ascii) ++ '"' :: s =
      l'.flatMap (escChar ascii) ++ '"' :: s' → l = l' ∧ s = s'
  | [], [], s, s', h => by simpa using h
  | [], c :: l, s, s', h => by
    have := congrArg readChar h
    rw [List.flatMap_cons, List.append_assoc, readChar_escChar] at this
    cases this
  | c :: l, [], s, s', h => by
    have := congrArg readChar h
    rw [List.flatMap_cons, List.append_assoc, readChar_escChar] at this
    cases this
  | c :: l, c' :: l', s, s', h => by
    have hr := congrArg readChar h
    rw [List.flatMap_cons, List.flatMap_cons, List.append_assoc, List.append_assoc,
      readChar_escChar, readChar_escChar, Option.some.injEq, Prod.mk.injEq] at hr
    obtain ⟨rfl, h'⟩ := hr
    obtain ⟨rfl, rfl⟩ := flatMap_escChar_inj ascii l l' s s' h'
    exact ⟨rfl, rfl⟩

theorem dumpsStr_inj {ascii : Bool} {a b : String} {s s' : List Char}
    (h : dumpsStr ascii a ++ s = dumpsStr ascii b ++ s') : a = b ∧ s = s' := by
  simp only [dumpsStr, List.cons_append, List.append_assoc, List.nil_append, List.cons.injEq,
    true_and] at h
  obtain ⟨hl, hs⟩ := flatMap_escChar_inj ascii _ _ _ _ h
  exact ⟨String.toList_injective hl, hs⟩

/-! ### Numbers -/

/-- The characters of the text of a number, `NaN` and `Infinity` included. -/
def numChar (c : Char) : Bool := floatChar c || ['N', 'a', 'I', 'n', 'f', 'i', 't', 'y'].contains c

theorem numChar_of_floatChar {c : Char} (h : floatChar c = true) : numChar c = true := by
  simp [numChar, h]

/-- `s` does not start with a number character. -/
def NoNum (s : List Char) : Prop := ∀ c ∈ s.head?, numChar c = false

theorem noNum_nil : NoNum [] := by simp [NoNum]

theorem noNum_cons {c : Char} {s : List Char} (h : numChar c = false) : NoNum (c :: s) := by
  simpa [NoNum] using h

/-- A run of number characters ends where a text without one begins. -/
theorem run_inj : ∀ {x y s s' : List Char}, (∀ c ∈ x, numChar c = true) →
    (∀ c ∈ y, numChar c = true) → NoNum s → NoNum s' → x ++ s = y ++ s' → x = y ∧ s = s'
  | [], [], s, s', _, _, _, _, h => by simpa using h
  | [], c :: y, s, s', _, hy, hs, _, h => by
    simp only [List.nil_append, List.cons_append] at h
    have := hs c (by simp [h])
    rw [hy c List.mem_cons_self] at this
    cases this
  | c :: x, [], s, s', hx, _, _, hs', h => by
    simp only [List.nil_append, List.cons_append] at h
    have := hs' c (by simp [← h])
    rw [hx c List.mem_cons_self] at this
    cases this
  | c :: x, c' :: y, s, s', hx, hy, hs, hs', h => by
    simp only [List.cons_append, List.cons.injEq] at h
    obtain ⟨rfl, h⟩ := h
    obtain ⟨rfl, rfl⟩ := run_inj (fun a ha => hx a (List.mem_cons_of_mem _ ha))
      (fun a ha => hy a (List.mem_cons_of_mem _ ha)) hs hs' h
    exact ⟨rfl, rfl⟩

theorem floatChar_of_isDigit {c : Char} (h : c.isDigit = true) : floatChar c = true := by
  simp [floatChar, h]

theorem isDigit_of_mem_toDigits {n : ℕ} {c : Char} (h : c ∈ Nat.toDigits 10 n) :
    c.isDigit = true :=
  Nat.isDigit_of_mem_toDigits (by decide) (by decide) h

theorem floatChar_of_mem_dumpsInt {n : ℤ} {c : Char} (h : c ∈ dumpsInt n) :
    floatChar c = true := by
  cases n with
  | ofNat n => exact floatChar_of_isDigit (isDigit_of_mem_toDigits h)
  | negSucc n =>
    rcases List.mem_cons.1 h with rfl | h
    · rfl
    · exact floatChar_of_isDigit (isDigit_of_mem_toDigits h)

theorem toDigits_inj {m n : ℕ} (h : Nat.toDigits 10 m = Nat.toDigits 10 n) : m = n := by
  have := congrArg (Nat.ofDigitChars 10 · 0) h
  simpa only [Nat.ofDigitChars_ten_toDigits] using this

theorem dumpsInt_inj {m n : ℤ} (h : dumpsInt m = dumpsInt n) : m = n := by
  have hdash : ∀ (k l : ℕ), Nat.toDigits 10 k ≠ '-' :: Nat.toDigits 10 l := fun k l h => by
    have : '-' ∈ Nat.toDigits 10 k := by rw [h]; exact List.mem_cons_self
    exact absurd (isDigit_of_mem_toDigits this) (by decide)
  cases m with
  | ofNat m =>
    cases n with
    | ofNat n => rw [toDigits_inj h]
    | negSucc n => exact absurd h (hdash m (n + 1))
  | negSucc m =>
    cases n with
    | ofNat n => exact absurd h.symm (hdash n (m + 1))
    | negSucc n =>
      simp only [dumpsInt, List.cons.injEq, true_and] at h
      have := toDigits_inj h
      rw [Nat.succ_injective this]

/-- The text of a float is not made of digits and a sign alone. -/
theorem exists_not_digit (x : PyFloat) : ∃ c ∈ x.repr.toList, ¬ (c = '-' ∨ c.isDigit = true) := by
  rcases x.isRepr with hx | hx
  · rw [Bool.and_eq_true, List.any_eq_true] at hx
    obtain ⟨c, hc, hce⟩ := hx.2
    refine ⟨c, hc, ?_⟩
    simp only [Bool.or_eq_true, beq_iff_eq] at hce
    rcases hce with rfl | rfl <;> decide
  · have hnames : ∀ s ∈ nonFinite, ∃ c ∈ s.toList, ¬ (c = '-' ∨ c.isDigit = true) := by decide
    exact hnames _ hx

/-- The text of an integer has neither a point nor an exponent. -/
theorem dumpsInt_ne_repr (n : ℤ) (x : PyFloat) : dumpsInt n ≠ x.repr.toList := by
  intro h
  obtain ⟨c, hc, hno⟩ := exists_not_digit x
  rw [← h] at hc
  refine hno ?_
  cases n with
  | ofNat n => exact Or.inr (isDigit_of_mem_toDigits hc)
  | negSucc n =>
    rcases List.mem_cons.1 hc with hc | hc
    · exact Or.inl hc
    · exact Or.inr (isDigit_of_mem_toDigits hc)

theorem numChar_of_mem_repr {x : PyFloat} {c : Char} (h : c ∈ x.repr.toList) :
    numChar c = true := by
  rcases x.isRepr with hx | hx
  · rw [Bool.and_eq_true, List.all_eq_true] at hx
    exact numChar_of_floatChar (hx.1 c h)
  · have hnames : ∀ s ∈ nonFinite, ∀ c ∈ s.toList, numChar c = true := by decide
    exact hnames _ hx c h

theorem repr_ne_nil (x : PyFloat) : x.repr.toList ≠ [] := by
  rcases x.isRepr with hx | hx
  · intro h
    rw [h] at hx
    exact Bool.false_ne_true hx
  · have hnames : ∀ s ∈ nonFinite, s.toList ≠ [] := by decide
    exact hnames _ hx

theorem dumpsInt_ne_nil (n : ℤ) : dumpsInt n ≠ [] := by
  cases n with
  | ofNat n => exact Nat.toDigits_ne_nil
  | negSucc n => exact List.cons_ne_nil _ _

/-! ### The text determines the value -/

/-- The text of a number: an integer or a float. -/
def IsNum (j : Json) (x : List Char) : Prop :=
  (∃ n, j = .int n ∧ x = dumpsInt n) ∨ ∃ y, j = .float y ∧ x = y.repr.toList

theorem IsNum.numChar {j : Json} {x : List Char} (h : IsNum j x) : ∀ c ∈ x, numChar c = true := by
  rintro c hc
  obtain ⟨n, -, rfl⟩ | ⟨y, -, rfl⟩ := h
  · exact numChar_of_floatChar (floatChar_of_mem_dumpsInt hc)
  · exact numChar_of_mem_repr hc

theorem IsNum.inj {j j' : Json} {x : List Char} (h : IsNum j x) (h' : IsNum j' x) : j = j' := by
  obtain ⟨n, rfl, hn⟩ | ⟨y, rfl, hy⟩ := h <;> obtain ⟨n', rfl, hn'⟩ | ⟨y', rfl, hy'⟩ := h'
  · rw [dumpsInt_inj (hn.symm.trans hn')]
  · exact absurd (hn.symm.trans hy') (dumpsInt_ne_repr n y')
  · exact absurd (hn'.symm.trans hy) (dumpsInt_ne_repr n' y)
  · have := String.toList_injective (hy.symm.trans hy')
    cases y; cases y'; simp_all

/-- The first character of a text tells which kind of value it is. -/
def firstClass (c : Char) : ℕ :=
  if c = 'n' then 0 else if c = 't' then 1 else if c = 'f' then 2 else if c = '"' then 3
  else if c = '[' then 4 else if c = '{' then 5
  else if floatChar c ∨ c = 'N' ∨ c = 'I' then 6 else 7

/-- The class of a value. -/
def classOf : Json → ℕ
  | .null => 0
  | .bool true => 1
  | .bool false => 2
  | .str _ => 3
  | .arr _ => 4
  | .obj _ => 5
  | .int _ => 6
  | .float _ => 6

theorem firstClass_of_floatChar {c : Char} (h : floatChar c = true) : firstClass c = 6 := by
  unfold firstClass
  split_ifs <;> simp_all [floatChar]

theorem exists_head (ascii : Bool) (j : Json) :
    ∃ c t, dumps ascii j = c :: t ∧ firstClass c = classOf j := by
  cases j with
  | null => exact ⟨_, _, rfl, rfl⟩
  | bool b => cases b <;> exact ⟨_, _, rfl, rfl⟩
  | str s => exact ⟨_, _, rfl, rfl⟩
  | arr l => exact ⟨_, _, rfl, rfl⟩
  | obj d => exact ⟨_, _, rfl, rfl⟩
  | int n =>
    obtain ⟨c, t, h⟩ := List.exists_cons_of_ne_nil (dumpsInt_ne_nil n)
    refine ⟨c, t, h, firstClass_of_floatChar (floatChar_of_mem_dumpsInt (n := n) ?_)⟩
    rw [h]; exact List.mem_cons_self
  | float x =>
    obtain ⟨c, t, h⟩ := List.exists_cons_of_ne_nil (repr_ne_nil x)
    refine ⟨c, t, h, ?_⟩
    rcases x.isRepr with hx | hx
    · rw [Bool.and_eq_true, List.all_eq_true] at hx
      exact firstClass_of_floatChar (hx.1 c (by rw [h]; exact List.mem_cons_self))
    · have hnames : ∀ s ∈ nonFinite, ∀ c ∈ s.toList.head?, firstClass c = 6 := by decide
      exact hnames _ hx c (by rw [h]; rfl)

theorem classOf_eq {ascii : Bool} {j j' : Json} {s s' : List Char}
    (h : dumps ascii j ++ s = dumps ascii j' ++ s') : classOf j = classOf j' := by
  obtain ⟨c, t, e, hc⟩ := exists_head ascii j
  obtain ⟨c', t', e', hc'⟩ := exists_head ascii j'
  rw [e, e', List.cons_append, List.cons_append, List.cons.injEq] at h
  rw [← hc, ← hc', h.1]

theorem isNum_of_classOf (ascii : Bool) {j : Json} (h : classOf j = 6) :
    IsNum j (dumps ascii j) := by
  cases j with
  | int n => exact Or.inl ⟨n, rfl, rfl⟩
  | float x => exact Or.inr ⟨x, rfl, rfl⟩
  | bool b => cases b <;> cases h
  | _ => cases h

theorem dumps_num_inj {ascii : Bool} {j j' : Json} {s s' : List Char} (hj : classOf j = 6)
    (hs : NoNum s) (hs' : NoNum s') (h : dumps ascii j ++ s = dumps ascii j' ++ s') :
    j = j' ∧ s = s' := by
  have hn := isNum_of_classOf ascii hj
  have hn' := isNum_of_classOf ascii ((classOf_eq h).symm.trans hj)
  obtain ⟨e, rfl⟩ := run_inj hn.numChar hn'.numChar hs hs' h
  rw [e] at hn
  exact ⟨hn.inj hn', rfl⟩

theorem noNum_comma (s : List Char) : NoNum (',' :: s) := noNum_cons rfl
theorem noNum_bracket (s : List Char) : NoNum (']' :: s) := noNum_cons rfl
theorem noNum_brace (s : List Char) : NoNum ('}' :: s) := noNum_cons rfl

theorem dumps_ne_bracket {ascii : Bool} {j : Json} {s s' : List Char} :
    dumps ascii j ++ s ≠ ']' :: s' := by
  intro h
  obtain ⟨c, t, e, hc⟩ := exists_head ascii j
  rw [e, List.cons_append, List.cons.injEq] at h
  rw [h.1] at hc
  cases j with
  | bool b => cases b <;> cases hc
  | _ => cases hc

mutual
/-- A value's text, followed by something that cannot continue a number, is read back. -/
theorem dumps_append_inj (ascii : Bool) : ∀ (j j' : Json) {s s' : List Char}, NoNum s → NoNum s' →
    dumps ascii j ++ s = dumps ascii j' ++ s' → j = j' ∧ s = s'
  | .int n, j', _, _, hs, hs', h => dumps_num_inj (j := .int n) rfl hs hs' h
  | .float x, j', _, _, hs, hs', h => dumps_num_inj (j := .float x) rfl hs hs' h
  | .null, j', _, _, hs, hs', h => by
    have hc := classOf_eq h
    cases j' with
    | null => exact ⟨rfl, List.append_cancel_left h⟩
    | bool b => cases b <;> cases hc
    | _ => cases hc
  | .bool b, j', _, _, hs, hs', h => by
    have hc := classOf_eq h
    cases j' with
    | bool b' => 
      cases b <;> cases b' <;> first | exact ⟨rfl, List.append_cancel_left h⟩ | cases hc
    | _ => cases b <;> cases hc
  | .str a, j', _, _, hs, hs', h => by
    have hc := classOf_eq h
    cases j' with
    | str b =>
      obtain ⟨rfl, hs⟩ := dumpsStr_inj h
      exact ⟨rfl, hs⟩
    | bool b => cases b <;> cases hc
    | _ => cases hc
  | .arr l, j', _, _, hs, hs', h => by
    have hc := classOf_eq h
    cases j' with
    | arr l' =>
      obtain ⟨rfl, hs⟩ := dumpsItems_append_inj ascii l l' (List.cons.inj h).2
      exact ⟨rfl, hs⟩
    | bool b => cases b <;> cases hc
    | _ => cases hc
  | .obj d, j', _, _, hs, hs', h => by
    have hc := classOf_eq h
    cases j' with
    | obj d' =>
      obtain ⟨rfl, hs⟩ := dumpsFields_append_inj ascii d d' (List.cons.inj h).2
      exact ⟨rfl, hs⟩
    | bool b => cases b <;> cases hc
    | _ => cases hc
theorem dumpsItems_append_inj (ascii : Bool) : ∀ (l l' : List Json) {s s' : List Char},
    dumpsItems ascii l ++ s = dumpsItems ascii l' ++ s' → l = l' ∧ s = s'
  | [], [], _, _, h => by simpa [dumpsItems] using h
  | [], [a], _, _, h => by
    simp only [dumpsItems, List.append_assoc, List.cons_append, List.nil_append] at h
    exact absurd h.symm dumps_ne_bracket
  | [], a :: b :: l, _, _, h => by
    simp only [dumpsItems, List.append_assoc, List.cons_append, List.nil_append] at h
    exact absurd h.symm dumps_ne_bracket
  | [a], [], _, _, h => by
    simp only [dumpsItems, List.append_assoc, List.cons_append, List.nil_append] at h
    exact absurd h dumps_ne_bracket
  | a :: b :: l, [], _, _, h => by
    simp only [dumpsItems, List.append_assoc, List.cons_append, List.nil_append] at h
    exact absurd h dumps_ne_bracket
  | [a], [a'], _, _, h => by
    simp only [dumpsItems, List.append_assoc, List.cons_append, List.nil_append] at h
    obtain ⟨rfl, ht⟩ := dumps_append_inj ascii a a' (noNum_bracket _) (noNum_bracket _) h
    exact ⟨rfl, (List.cons.inj ht).2⟩
  | [a], a' :: b' :: l', _, _, h => by
    simp only [dumpsItems, List.append_assoc, List.cons_append, List.nil_append] at h
    obtain ⟨rfl, ht⟩ := dumps_append_inj ascii a a' (noNum_bracket _) (noNum_comma _) h
    exact absurd (List.cons.inj ht).1 (by decide)
  | a :: b :: l, [a'], _, _, h => by
    simp only [dumpsItems, List.append_assoc, List.cons_append, List.nil_append] at h
    obtain ⟨rfl, ht⟩ := dumps_append_inj ascii a a' (noNum_comma _) (noNum_bracket _) h
    exact absurd (List.cons.inj ht).1 (by decide)
  | a :: b :: l, a' :: b' :: l', _, _, h => by
    simp only [dumpsItems, List.append_assoc, List.cons_append] at h
    obtain ⟨rfl, ht⟩ := dumps_append_inj ascii a a' (noNum_comma _) (noNum_comma _) h
    obtain ⟨e, hs⟩ := dumpsItems_append_inj ascii (b :: l) (b' :: l') (List.cons.inj ht).2
    exact ⟨by rw [e], hs⟩
theorem dumpsFields_append_inj (ascii : Bool) : ∀ (d d' : List (String × Json))
    {s s' : List Char}, dumpsFields ascii d ++ s = dumpsFields ascii d' ++ s' → d = d' ∧ s = s'
  | [], [], _, _, h => by simpa [dumpsFields] using h
  | [], [(k, a)], _, _, h => by
    simp only [dumpsFields, dumpsStr, List.cons_append, List.cons.injEq] at h
    exact absurd h.1 (by decide)
  | [], (k, a) :: b :: d, _, _, h => by
    simp only [dumpsFields, dumpsStr, List.cons_append, List.cons.injEq] at h
    exact absurd h.1 (by decide)
  | [(k, a)], [], _, _, h => by
    simp only [dumpsFields, dumpsStr, List.cons_append, List.cons.injEq] at h
    exact absurd h.1 (by decide)
  | (k, a) :: b :: d, [], _, _, h => by
    simp only [dumpsFields, dumpsStr, List.cons_append, List.cons.injEq] at h
    exact absurd h.1 (by decide)
  | [(k, a)], [(k', a')], _, _, h => by
    simp only [dumpsFields, List.append_assoc, List.cons_append, List.nil_append] at h
    obtain ⟨rfl, hk⟩ := dumpsStr_inj h
    obtain ⟨rfl, ht⟩ := dumps_append_inj ascii a a' (noNum_brace _) (noNum_brace _)
      (List.cons.inj hk).2
    exact ⟨rfl, (List.cons.inj ht).2⟩
  | [(k, a)], (k', a') :: b' :: d', _, _, h => by
    simp only [dumpsFields, List.append_assoc, List.cons_append, List.nil_append] at h
    obtain ⟨rfl, hk⟩ := dumpsStr_inj h
    obtain ⟨rfl, ht⟩ := dumps_append_inj ascii a a' (noNum_brace _) (noNum_comma _)
      (List.cons.inj hk).2
    exact absurd (List.cons.inj ht).1 (by decide)
  | (k, a) :: b :: d, [(k', a')], _, _, h => by
    simp only [dumpsFields, List.append_assoc, List.cons_append, List.nil_append] at h
    obtain ⟨rfl, hk⟩ := dumpsStr_inj h
    obtain ⟨rfl, ht⟩ := dumps_append_inj ascii a a' (noNum_comma _) (noNum_brace _)
      (List.cons.inj hk).2
    exact absurd (List.cons.inj ht).1 (by decide)
  | (k, a) :: b :: d, (k', a') :: b' :: d', _, _, h => by
    simp only [dumpsFields, List.append_assoc, List.cons_append] at h
    obtain ⟨rfl, hk⟩ := dumpsStr_inj h
    obtain ⟨rfl, ht⟩ := dumps_append_inj ascii a a' (noNum_comma _) (noNum_comma _)
      (List.cons.inj hk).2
    obtain ⟨e, hs⟩ := dumpsFields_append_inj ascii (b :: d) (b' :: d') (List.cons.inj ht).2
    exact ⟨by rw [e], hs⟩
end

/-- **The canonical text determines the value.** -/
theorem dumps_injective (ascii : Bool) {j j' : Json} (h : dumps ascii j = dumps ascii j') :
    j = j' :=
  (dumps_append_inj ascii j j' noNum_nil noNum_nil (by rw [h])).1

/-! ### ASCII output -/

theorem toNat_digitChar : ∀ d < 16, d.digitChar.toNat < 128 := by decide

theorem ascii_hex4 {n : ℕ} {c : Char} (h : c ∈ hex4 n) : c.toNat < 128 := by
  simp only [hex4, List.mem_cons, List.not_mem_nil, or_false] at h
  have hd : ∀ m, (m % 16).digitChar.toNat < 128 := fun m => toNat_digitChar _ (by omega)
  rcases h with rfl | rfl | rfl | rfl <;> exact hd _

/-- With `ensure_ascii` a character is written in ASCII. -/
theorem ascii_escChar {c d : Char} (h : d ∈ escChar true c) : d.toNat < 128 := by
  unfold escChar at h
  split_ifs at h with h₁ h₂ h₃ h₄ h₅ h₆ h₇ h₈
  -- the seven short escapes, a `\\uXXXX` escape or a pair of them, and the character itself
  iterate 7
    · simp only [List.mem_cons, List.not_mem_nil, or_false] at h
      rcases h with rfl | rfl <;> decide
  · unfold escUnicode at h
    split_ifs at h
    · simp only [List.mem_cons] at h
      rcases h with rfl | rfl | h
      · decide
      · decide
      · exact ascii_hex4 h
    · simp only [List.mem_cons, List.mem_append] at h
      rcases h with (rfl | rfl | h) | rfl | rfl | h
      · decide
      · decide
      · exact ascii_hex4 h
      · decide
      · decide
      · exact ascii_hex4 h
  · rw [List.mem_singleton] at h
    rw [h]
    have : ¬ 0x7e < c.toNat := fun hc => h₈ (Or.inr ⟨rfl, hc⟩)
    omega

theorem ascii_dumpsStr {s : String} {c : Char} (h : c ∈ dumpsStr true s) : c.toNat < 128 := by
  simp only [dumpsStr, List.mem_cons, List.mem_append, List.mem_flatMap, List.cons_append,
    List.not_mem_nil, or_false] at h
  rcases h with rfl | ⟨d, -, h⟩ | rfl
  · decide
  · exact ascii_escChar h
  · decide

end Json

end Shiroe

import Shiroe.Lib.JsonText

/-!
# Texts that are JSON

`Json.scan` walks a text the way `json.loads` does, blanks between the tokens included, and says
what kind of value it holds; `none` is a text that `json.loads` rejects.  The values themselves
are not built, so a text can come from anywhere.

* `Json.scan_stringList` : a list of string literals is an array.
-/

namespace Shiroe

namespace Json

/-- The kind of a value. -/
inductive Kind where
  | null | bool | number | string | array | object
  deriving DecidableEq, Repr

/-! ### Tokens -/

/-- The blanks between tokens. -/
def isBlank (c : Char) : Bool := [' ', '\t', '\n', '\r'].contains c

/-- The text after its leading blanks. -/
def skipBlanks (s : List Char) : List Char := s.dropWhile isBlank

/-- A hexadecimal digit of either case. -/
def isHexDigit (c : Char) : Bool :=
  c.isDigit || ['a', 'b', 'c', 'd', 'e', 'f', 'A', 'B', 'C', 'D', 'E', 'F'].contains c

/-- The text after a string literal whose opening quote has been read. -/
def scanString : List Char → Option (List Char)
  | '"' :: s => some s
  | '\\' :: 'u' :: a :: b :: c :: d :: s =>
    if [a, b, c, d].all isHexDigit then scanString s else none
  | '\\' :: c :: s =>
    if ['"', '\\', '/', 'b', 'f', 'n', 'r', 't'].contains c then scanString s else none
  | c :: s => if c.toNat < 0x20 then none else scanString s
  | [] => none

/-- The text after a run of digits. -/
def skipDigits (s : List Char) : List Char := s.dropWhile Char.isDigit

/-- The text after a fraction, if there is one. -/
def scanFraction : List Char → List Char
  | '.' :: c :: s => if c.isDigit then skipDigits s else '.' :: c :: s
  | s => s

/-- The text after an exponent, if there is one. -/
def scanExponent (s : List Char) : List Char :=
  match s with
  | e :: s' =>
    if e = 'e' ∨ e = 'E' then
      let digits := if s'.head? = some '+' ∨ s'.head? = some '-' then s'.tail else s'
      if digits.head?.any Char.isDigit then skipDigits digits else s
    else s
  | [] => s

/-- The text after a number.  An integer of more than 4300 digits is refused. -/
def scanNumber (s : List Char) : Option (List Char) :=
  let digits := if s.head? = some '-' then s.tail else s
  let rest :=
    match digits with
    | '0' :: s => some s
    | c :: s => if c.isDigit then some (skipDigits s) else none
    | [] => none
  rest.bind fun rest =>
    let after := scanExponent (scanFraction rest)
    if after = rest ∧ 4300 < (digits.takeWhile Char.isDigit).length then none else some after

/-- The names that stand for values. -/
def names : List (List Char × Kind) :=
  [("null".toList, .null), ("true".toList, .bool), ("false".toList, .bool),
    ("NaN".toList, .number), ("Infinity".toList, .number), ("-Infinity".toList, .number)]

/-- A name or a number at the start of a text. -/
def scanScalar (s : List Char) : Option (Kind × List Char) :=
  match names.find? fun n => n.1.isPrefixOf s with
  | some n => some (n.2, s.drop n.1.length)
  | none => (scanNumber s).map (Kind.number, ·)

/-! ### Values -/

mutual
/-- The kind of the value at the start of a text, and what follows it. -/
def scanValue : ℕ → List Char → Option (Kind × List Char)
  | 0, _ => none
  | n + 1, s =>
    match s with
    | '"' :: s => (scanString s).map (Kind.string, ·)
    | '[' :: s =>
      if (skipBlanks s).head? = some ']' then some (.array, (skipBlanks s).tail)
      else (scanItems n (skipBlanks s)).map (Kind.array, ·)
    | '{' :: s =>
      if (skipBlanks s).head? = some '}' then some (.object, (skipBlanks s).tail)
      else (scanFields n (skipBlanks s)).map (Kind.object, ·)
    | s => scanScalar s
/-- The text after the items of an array and the closing bracket. -/
def scanItems : ℕ → List Char → Option (List Char)
  | 0, _ => none
  | n + 1, s =>
    (scanValue n s).bind fun r =>
      match skipBlanks r.2 with
      | ']' :: s => some s
      | ',' :: s => scanItems n (skipBlanks s)
      | _ => none
/-- The text after the fields of an object and the closing brace. -/
def scanFields : ℕ → List Char → Option (List Char)
  | 0, _ => none
  | n + 1, s =>
    if s.head? = some '"' then
      (scanString s.tail).bind fun s =>
        if (skipBlanks s).head? = some ':' then
          (scanValue n (skipBlanks (skipBlanks s).tail)).bind fun r =>
            match skipBlanks r.2 with
            | '}' :: s => some s
            | ',' :: s => scanFields n (skipBlanks s)
            | _ => none
        else none
    else none
end

/-- The kind of the value that `json.loads` reads off a text. -/
def scan (s : List Char) : Option Kind :=
  match scanValue (s.length + 1) (skipBlanks s) with
  | some (k, rest) => if skipBlanks rest = [] then some k else none
  | none => none

/-! ### Lists of string literals -/

variable (ascii : Bool)

theorem isHexDigit_digitChar : ∀ d < 16, isHexDigit d.digitChar = true := by decide

theorem scanString_hex4 (n : ℕ) (s : List Char) :
    scanString ('\\' :: 'u' :: hex4 n ++ s) = scanString s := by
  have h : ∀ m, isHexDigit (m % 16).digitChar = true := fun m =>
    isHexDigit_digitChar _ (Nat.mod_lt _ (by decide))
  simp only [hex4, List.cons_append, List.nil_append]
  rw [scanString]
  simp [h]

/-- An escaped character is walked over. -/
theorem scanString_escChar (c : Char) (s : List Char) :
    scanString (escChar ascii c ++ s) = scanString s := by
  unfold escChar
  split_ifs with h₁ h₂ h₃ h₄ h₅ h₆ h₇ h₈
  iterate 7 rfl
  · unfold escUnicode
    split_ifs
    · exact scanString_hex4 _ _
    · rw [List.append_assoc]
      exact (scanString_hex4 _ _).trans (scanString_hex4 _ _)
  · simp only [not_or] at h₈
    simp only [List.cons_append, List.nil_append]
    rw [scanString.eq_def]
    split
    · rename_i heq
      cases heq
      exact absurd rfl h₁
    · rename_i heq
      cases heq
      exact absurd rfl h₂
    · rename_i heq
      cases heq
      exact absurd rfl h₂
    · rename_i heq
      cases heq
      rw [if_neg h₈.1]
    · rename_i heq
      cases heq

theorem scanString_body (l : List Char) (s : List Char) :
    scanString (l.flatMap (escChar ascii) ++ '"' :: s) = some s := by
  induction l with
  | nil => rfl
  | cons c l ih => rw [List.flatMap_cons, List.append_assoc, scanString_escChar, ih]

/-- A string literal is read up to its closing quote. -/
theorem scanValue_dumpsStr (n : ℕ) (t : String) (s : List Char) :
    scanValue (n + 1) (dumpsStr ascii t ++ s) = some (.string, s) := by
  have htext : dumpsStr ascii t ++ s = '"' :: (t.toList.flatMap (escChar ascii) ++ '"' :: s) := by
    simp [dumpsStr]
  rw [htext, scanValue, scanString_body]
  rfl

/-- The items of a list of strings and the closing bracket. -/
def stringItems (l : List String) : List Char :=
  List.intercalate [',', ' '] (l.map (dumpsStr ascii)) ++ [']']

theorem stringItems_cons_cons (t u : String) (l : List String) :
    stringItems ascii (t :: u :: l) =
      dumpsStr ascii t ++ ',' :: ' ' :: stringItems ascii (u :: l) := by
  simp only [stringItems, List.map_cons, List.intercalate_cons_cons, List.append_assoc]
  rfl

/-- The items begin with a quote. -/
theorem stringItems_eq (t : String) (l : List String) :
    ∃ s, stringItems ascii (t :: l) = '"' :: s := by
  cases l with
  | nil => exact ⟨_, rfl⟩
  | cons u l =>
    rw [stringItems_cons_cons]
    exact ⟨_, rfl⟩

theorem length_stringItems (l : List String) : l.length + 1 ≤ (stringItems ascii l).length := by
  induction l with
  | nil => exact le_rfl
  | cons t l ih =>
    cases l with
    | nil => simp [stringItems, dumpsStr]
    | cons u l =>
      rw [stringItems_cons_cons]
      simp only [List.length_append, List.length_cons] at ih ⊢
      omega

theorem scanItems_strings (t : String) (l : List String) {n : ℕ} (hn : l.length + 1 < n) :
    scanItems n (stringItems ascii (t :: l)) = some [] := by
  induction l generalizing t n with
  | nil =>
    obtain ⟨n, rfl⟩ : ∃ m, n = m + 2 := ⟨n - 2, by simp at hn; omega⟩
    have hone : stringItems ascii [t] = dumpsStr ascii t ++ [']'] := by simp [stringItems]
    rw [hone, scanItems, scanValue_dumpsStr]
    rfl
  | cons u l ih =>
    obtain ⟨n, rfl⟩ : ∃ m, n = m + 2 := ⟨n - 2, by simp at hn; omega⟩
    obtain ⟨s, hs⟩ := stringItems_eq ascii u l
    rw [stringItems_cons_cons, scanItems, scanValue_dumpsStr]
    change scanItems (n + 1) (skipBlanks (' ' :: stringItems ascii (u :: l))) = some []
    have hquote : skipBlanks (' ' :: stringItems ascii (u :: l)) = stringItems ascii (u :: l) := by
      rw [hs]
      rfl
    rw [hquote]
    exact ih u (by simp only [List.length_cons] at hn; omega)

/-- **The text of a list of strings is an array.** -/
theorem scan_stringList (l : List String) : scan ('[' :: stringItems ascii l) = some .array := by
  cases l with
  | nil => rfl
  | cons t l =>
    obtain ⟨s, hs⟩ := stringItems_eq ascii t l
    have hlen := length_stringItems ascii (t :: l)
    have hitems := scanItems_strings ascii t l (n := ('[' :: stringItems ascii (t :: l)).length) (by
      simp only [List.length_cons] at hlen ⊢
      omega)
    -- the opening bracket leads to the items, which begin with a quote
    have hvalue : scanValue (('[' :: stringItems ascii (t :: l)).length + 1)
        ('[' :: stringItems ascii (t :: l)) = some (.array, []) := by
      rw [scanValue]
      have hskip : skipBlanks (stringItems ascii (t :: l)) = stringItems ascii (t :: l) := by
        rw [hs]
        rfl
      rw [hskip, hitems, if_neg (by rw [hs]; simp)]
      rfl
    have hopen : skipBlanks ('[' :: stringItems ascii (t :: l)) =
        '[' :: stringItems ascii (t :: l) := rfl
    rw [scan, hopen, hvalue]
    rfl

end Json

end Shiroe

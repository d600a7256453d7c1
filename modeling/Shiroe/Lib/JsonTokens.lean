import Shiroe.Lib.JsonRead
import Shiroe.Lib.JsonScan

/-!
# What the canonical text is made of

The canonical text holds no blank between its tokens, and its characters are ASCII or stand in a
string of the value.  `Json.scan`, which walks any text, walks over it and finds the kind of the
value; floats are left out, and an integer may not have more digits than `json.loads` takes.

* `Json.mem_dumps` : where the characters of the text come from;
* `Json.scan_dumps` : the text of a plain value is walked over.
-/

namespace Shiroe

namespace Json

variable (ascii : Bool)

/-! ### Its characters -/

mutual
/-- The characters of the strings and keys of a value. -/
def chars : Json → List Char
  | .str s => s.toList
  | .arr l => charsItems l
  | .obj d => charsFields d
  | _ => []
/-- `chars` of the items of an array. -/
def charsItems : List Json → List Char
  | [] => []
  | a :: l => chars a ++ charsItems l
/-- `chars` of the fields of an object, with their keys. -/
def charsFields : List (String × Json) → List Char
  | [] => []
  | (k, a) :: d => k.toList ++ chars a ++ charsFields d
end

theorem ascii_of_numChar {c : Char} (h : numChar c = true) : c.toNat < 128 := by
  simp only [numChar, floatChar, Bool.or_eq_true, beq_iff_eq, List.contains_eq_mem,
    List.mem_cons, List.not_mem_nil, or_false, decide_eq_true_eq] at h
  rcases h with ((((h | rfl) | rfl) | rfl) | rfl) | rfl | rfl | rfl | rfl | rfl | rfl | rfl | rfl
  · have h57 : c.val.toNat ≤ 57 := by
      simp only [Char.isDigit, Bool.and_eq_true, decide_eq_true_eq] at h
      exact h.2
    exact lt_of_le_of_lt h57 (by decide)
  all_goals decide

/-- What is written for a character of a string is ASCII, or the character itself. -/
theorem mem_escChar {c d : Char} (h : d ∈ escChar ascii c) : d.toNat < 128 ∨ d = c := by
  cases ascii with
  | true => exact Or.inl (ascii_escChar h)
  | false =>
    by_cases hplain : escChar false c = [c]
    · rw [hplain, List.mem_singleton] at h
      exact Or.inr h
    · -- every escape is written with `ensure_ascii` as well
      have hsame : escChar false c = escChar true c := by
        unfold escChar at hplain ⊢
        split_ifs at hplain ⊢ <;> simp_all
      exact Or.inl (ascii_escChar (hsame ▸ h))

theorem mem_dumpsStr {s : String} {c : Char} (h : c ∈ dumpsStr ascii s) :
    c.toNat < 128 ∨ c ∈ s.toList := by
  simp only [dumpsStr, List.mem_cons, List.mem_append, List.mem_flatMap, List.cons_append,
    List.not_mem_nil, or_false] at h
  rcases h with rfl | ⟨d, hd, h⟩ | rfl
  · exact Or.inl (by decide)
  · rcases mem_escChar ascii h with h | rfl
    · exact Or.inl h
    · exact Or.inr hd
  · exact Or.inl (by decide)

mutual
/-- **A character of the text is ASCII or stands in a string of the value.** -/
theorem mem_dumps {c : Char} : ∀ j : Json, c ∈ dumps ascii j → c.toNat < 128 ∨ c ∈ chars j
  | .null, h => by
    have hall : ∀ c ∈ ['n', 'u', 'l', 'l'], c.toNat < 128 := by decide
    exact Or.inl (hall c h)
  | .bool true, h => by
    have hall : ∀ c ∈ ['t', 'r', 'u', 'e'], c.toNat < 128 := by decide
    exact Or.inl (hall c h)
  | .bool false, h => by
    have hall : ∀ c ∈ ['f', 'a', 'l', 's', 'e'], c.toNat < 128 := by decide
    exact Or.inl (hall c h)
  | .int n, h => Or.inl (ascii_of_numChar (numChar_of_floatChar (floatChar_of_mem_dumpsInt h)))
  | .float x, h => Or.inl (ascii_of_numChar (numChar_of_mem_repr h))
  | .str s, h => mem_dumpsStr ascii h
  | .arr l, h => by
    rcases List.mem_cons.1 h with rfl | h
    · exact Or.inl (by decide)
    · exact mem_dumpsItems l h
  | .obj d, h => by
    rcases List.mem_cons.1 h with rfl | h
    · exact Or.inl (by decide)
    · exact mem_dumpsFields d h
theorem mem_dumpsItems {c : Char} :
    ∀ l : List Json, c ∈ dumpsItems ascii l → c.toNat < 128 ∨ c ∈ charsItems l
  | [], h => by
    rw [List.mem_singleton.1 h]
    exact Or.inl (by decide)
  | [a], h => by
    rw [dumpsItems, List.mem_append, List.mem_singleton] at h
    rcases h with h | rfl
    · exact (mem_dumps a h).imp_right fun h => List.mem_append_left _ h
    · exact Or.inl (by decide)
  | a :: b :: l, h => by
    rw [dumpsItems, List.mem_append, List.mem_cons] at h
    rcases h with h | rfl | h
    · exact (mem_dumps a h).imp_right fun h => List.mem_append_left _ h
    · exact Or.inl (by decide)
    · exact (mem_dumpsItems (b :: l) h).imp_right fun h => List.mem_append_right _ h
theorem mem_dumpsFields {c : Char} :
    ∀ d : List (String × Json), c ∈ dumpsFields ascii d → c.toNat < 128 ∨ c ∈ charsFields d
  | [], h => by
    rw [List.mem_singleton.1 h]
    exact Or.inl (by decide)
  | [(k, a)], h => by
    simp only [dumpsFields, List.mem_append, List.mem_cons, List.not_mem_nil, or_false] at h
    rw [charsFields, List.mem_append, List.mem_append]
    rcases h with (h | rfl | h) | rfl
    · exact (mem_dumpsStr ascii h).imp_right fun h => Or.inl (Or.inl h)
    · exact Or.inl (by decide)
    · exact (mem_dumps a h).imp_right fun h => Or.inl (Or.inr h)
    · exact Or.inl (by decide)
  | (k, a) :: b :: d, h => by
    simp only [dumpsFields, List.mem_append, List.mem_cons] at h
    rw [charsFields, List.mem_append, List.mem_append]
    rcases h with (h | rfl | h) | rfl | h
    · exact (mem_dumpsStr ascii h).imp_right fun h => Or.inl (Or.inl h)
    · exact Or.inl (by decide)
    · exact (mem_dumps a h).imp_right fun h => Or.inl (Or.inr h)
    · exact Or.inl (by decide)
    · exact (mem_dumpsFields (b :: d) h).imp_right fun h => Or.inr h
end

theorem charsItems_map {α : Type} (f : α → Json) (l : List α) :
    charsItems (l.map f) = l.flatMap fun a => chars (f a) := by
  induction l with
  | nil => rfl
  | cons a l ih => rw [List.map_cons, charsItems, ih, List.flatMap_cons]

theorem mem_charsFields_dictInsert {c : Char} {k : String} {v : Json} {d : List (String × Json)}
    (h : c ∈ charsFields (dictInsert k v d)) :
    c ∈ k.toList ∨ c ∈ chars v ∨ c ∈ charsFields d := by
  induction d with
  | nil => simpa [dictInsert, charsFields, or_assoc] using h
  | cons kv d ih =>
    obtain ⟨k₀, v₀⟩ := kv
    rw [dictInsert] at h
    split_ifs at h with h₁ h₂ <;>
      simp only [charsFields, List.mem_append] at h ⊢ <;> tauto

theorem mem_chars_mkObj {c : Char} {fields : List (String × Json)}
    (h : c ∈ chars (mkObj fields)) : c ∈ charsFields fields := by
  induction fields with
  | nil => exact h
  | cons kv fields ih =>
    obtain ⟨k, v⟩ := kv
    rw [charsFields, List.mem_append, List.mem_append]
    rcases mem_charsFields_dictInsert h with h | h | h
    · exact Or.inl (Or.inl h)
    · exact Or.inl (Or.inr h)
    · exact Or.inr (ih h)

/-! ### Walking over it -/

mutual
/-- The value holds no float, and no integer of more than 4300 digits. -/
def Plain : Json → Prop
  | .int n => (Nat.toDigits 10 n.natAbs).length ≤ 4300
  | .float _ => False
  | .arr l => PlainItems l
  | .obj d => PlainFields d
  | _ => True
/-- `Plain` for the items of an array. -/
def PlainItems : List Json → Prop
  | [] => True
  | a :: l => Plain a ∧ PlainItems l
/-- `Plain` for the fields of an object. -/
def PlainFields : List (String × Json) → Prop
  | [] => True
  | (_, a) :: d => Plain a ∧ PlainFields d
end

theorem wfItems_iff {l : List Json} : WFItems l ↔ ∀ a ∈ l, a.WF := by
  induction l with
  | nil => simp [WFItems]
  | cons a l ih => rw [WFItems, ih, List.forall_mem_cons]

theorem plainItems_iff {l : List Json} : PlainItems l ↔ ∀ a ∈ l, Plain a := by
  induction l with
  | nil => simp [PlainItems]
  | cons a l ih => rw [PlainItems, ih, List.forall_mem_cons]

theorem PlainFields.dictInsert {k : String} {v : Json} {d : List (String × Json)} (hv : Plain v)
    (hd : PlainFields d) : PlainFields (dictInsert k v d) := by
  induction d with
  | nil => exact ⟨hv, trivial⟩
  | cons kv d ih =>
    simp only [Json.dictInsert]
    split_ifs
    · exact ⟨hv, hd⟩
    · exact ⟨hv, hd.2⟩
    · exact ⟨hd.1, ih hd.2⟩

/-- An object built from plain values is plain. -/
theorem Plain.mkObj {fields : List (String × Json)} (h : PlainFields fields) :
    Plain (mkObj fields) := by
  induction fields with
  | nil => exact trivial
  | cons kv fields ih => exact PlainFields.dictInsert h.1 (ih h.2)

/-- The kind of a value. -/
def kind : Json → Kind
  | .null => .null
  | .bool _ => .bool
  | .int _ => .number
  | .float _ => .number
  | .str _ => .string
  | .arr _ => .array
  | .obj _ => .object

/-- What can stand behind a value in a text without blanks. -/
def Follows (s : List Char) : Prop := ∀ c ∈ s.head?, c = ',' ∨ c = ']' ∨ c = '}'

theorem follows_nil : Follows [] := by simp [Follows]

theorem follows_comma (s : List Char) : Follows (',' :: s) := by simp [Follows]

theorem follows_bracket (s : List Char) : Follows (']' :: s) := by simp [Follows]

theorem follows_brace (s : List Char) : Follows ('}' :: s) := by simp [Follows]

theorem skipBlanks_cons {c : Char} (h : isBlank c = false) (s : List Char) :
    skipBlanks (c :: s) = c :: s := by
  rw [skipBlanks, List.dropWhile_cons_of_neg (by simp [h])]

/-- The text of a value begins with no blank. -/
theorem skipBlanks_dumps (j : Json) (s : List Char) :
    skipBlanks (dumps ascii j ++ s) = dumps ascii j ++ s := by
  obtain ⟨c, t, h, hc⟩ := exists_head ascii j
  rw [h]
  refine skipBlanks_cons ?_ (t ++ s)
  by_contra hblank
  have hclass : ∀ c ∈ [' ', '\t', '\n', '\r'], firstClass c = 7 := by decide
  have hseven := hclass c (by simpa only [isBlank, List.contains_eq_mem, decide_eq_true_eq,
    Bool.not_eq_false] using hblank)
  rw [hc] at hseven
  cases j with
  | bool b => cases b <;> cases hseven
  | _ => cases hseven

theorem skipBlanks_dumpsItems (a : Json) (l : List Json) (s : List Char) :
    skipBlanks (dumpsItems ascii (a :: l) ++ s) = dumpsItems ascii (a :: l) ++ s := by
  cases l with
  | nil => rw [dumpsItems, List.append_assoc, skipBlanks_dumps]
  | cons b l => rw [dumpsItems, List.append_assoc, skipBlanks_dumps]

theorem skipBlanks_dumpsFields (f : String × Json) (d : List (String × Json)) (s : List Char) :
    skipBlanks (dumpsFields ascii (f :: d) ++ s) = dumpsFields ascii (f :: d) ++ s := by
  obtain ⟨k, a⟩ := f
  cases d with
  | nil => exact skipBlanks_cons (by decide) _
  | cons g d => exact skipBlanks_cons (by decide) _

/-! ### Integers -/

/-- Only zero is written with a leading zero. -/
theorem head?_toDigits {n : ℕ} (hn : n ≠ 0) : (Nat.toDigits 10 n).head? ≠ some '0' := by
  induction n using Nat.strong_induction_on with
  | _ n ih =>
    rcases lt_or_ge n 10 with hlt | hge
    · rw [Nat.toDigits_of_lt_base hlt]
      have hdigit : ∀ d < 10, d ≠ 0 → d.digitChar ≠ '0' := by decide
      simpa using hdigit n hlt hn
    · rw [Nat.toDigits_of_base_le (by decide) hge, List.head?_append_of_ne_nil _
        Nat.toDigits_ne_nil]
      exact ih (n / 10) (by omega) (by omega)

variable {ascii}

theorem skipDigits_append {x s : List Char} (hx : ∀ c ∈ x, c.isDigit = true) (hs : Follows s) :
    skipDigits (x ++ s) = s ∧ (x ++ s).takeWhile Char.isDigit = x := by
  have hnot : ∀ c ∈ s.head?, c.isDigit = false := by
    intro c hc
    rcases hs c hc with rfl | rfl | rfl <;> rfl
  rw [skipDigits, List.dropWhile_append_of_pos hx, List.takeWhile_append_of_pos hx]
  cases s with
  | nil => simp
  | cons c s =>
    have hc := hnot c rfl
    rw [List.dropWhile_cons_of_neg (by simp [hc]), List.takeWhile_cons_of_neg (by simp [hc])]
    simp

theorem scanFraction_follows {s : List Char} (hs : Follows s) :
    scanExponent (scanFraction s) = s := by
  cases s with
  | nil => rfl
  | cons c s =>
    rcases hs c rfl with rfl | rfl | rfl <;> rfl

/-- The digits of an integer are walked over. -/
theorem scanNumber_dumpsInt {n : ℤ} (hn : (Nat.toDigits 10 n.natAbs).length ≤ 4300)
    {s : List Char} (hs : Follows s) : scanNumber (dumpsInt n ++ s) = some s := by
  have hdigit : ∀ c ∈ Nat.toDigits 10 n.natAbs, c.isDigit = true := fun c hc =>
    isDigit_of_mem_toDigits hc
  obtain ⟨c, x, hx⟩ := List.exists_cons_of_ne_nil (Nat.toDigits_ne_nil (b := 10) (n := n.natAbs))
  have hc : c.isDigit = true := hdigit c (by rw [hx]; exact List.mem_cons_self)
  -- the sign is stripped
  have hsign : (if (dumpsInt n ++ s).head? = some '-' then (dumpsInt n ++ s).tail
      else dumpsInt n ++ s) = Nat.toDigits 10 n.natAbs ++ s := by
    cases n with
    | ofNat k =>
      have hx' : Nat.toDigits 10 k = c :: x := hx
      change (if (Nat.toDigits 10 k ++ s).head? = some '-' then _ else Nat.toDigits 10 k ++ s) = _
      rw [if_neg]
      · rfl
      · rw [hx', List.cons_append, List.head?_cons, Option.some.injEq]
        rintro rfl
        cases hc
    | negSucc k => rfl
  -- nothing is left of a fraction or an exponent behind the digits
  have hend : ∀ r : Option (List Char), r = some s → (r.bind fun rest =>
      if scanExponent (scanFraction rest) = rest ∧
        4300 < ((Nat.toDigits 10 n.natAbs ++ s).takeWhile Char.isDigit).length then none
      else some (scanExponent (scanFraction rest))) = some s := by
    rintro r rfl
    rw [Option.bind_some, scanFraction_follows hs, (skipDigits_append hdigit hs).2, if_neg]
    rintro ⟨-, hlong⟩
    omega
  unfold scanNumber
  dsimp only
  rw [hsign]
  refine hend _ ?_
  by_cases hzero : n.natAbs = 0
  · rw [hzero]
    rfl
  · have hc0 : c ≠ '0' := fun h => head?_toDigits hzero (by rw [hx, h]; rfl)
    have htail := (skipDigits_append (fun d hd => hdigit d (by
      rw [hx]
      exact List.mem_cons_of_mem _ hd)) hs).1
    rw [hx, List.cons_append]
    split
    · rename_i heq
      exact absurd (List.cons.inj heq).1 hc0
    · rename_i heq
      cases heq
      rw [if_pos hc, htail]
    · rename_i heq
      cases heq

/-- No name begins like an integer. -/
theorem name_not_before {m : List Char × Kind} (hm : m ∈ names) {c : Char} (hc : c.isDigit = true)
    (s : List Char) : ¬ m.1 <+: c :: s ∧ ¬ m.1 <+: '-' :: c :: s := by
  have hnames : ∀ m ∈ names, m.1 ≠ [] ∧ m.1.tail ≠ [] ∧ m.1.head?.any Char.isDigit = false ∧
      (m.1.head? = some '-' → m.1.tail.head?.any Char.isDigit = false) := by decide
  obtain ⟨hne, htail, hhead, hsecond⟩ := hnames m hm
  obtain ⟨a, l, hl⟩ := List.exists_cons_of_ne_nil hne
  rw [hl] at htail hhead hsecond ⊢
  obtain ⟨b, t, ht⟩ := List.exists_cons_of_ne_nil htail
  rw [List.tail_cons] at ht
  subst ht
  constructor
  · rintro ⟨r, hr⟩
    rw [(List.cons.inj hr).1] at hhead
    simp [hc] at hhead
  · rintro ⟨r, hr⟩
    have htwo : a = '-' ∧ b = c := ⟨(List.cons.inj hr).1, (List.cons.inj (List.cons.inj hr).2).1⟩
    rw [htwo.1, htwo.2] at hsecond
    simp [hc] at hsecond

/-- An integer is not a name. -/
theorem scanScalar_dumpsInt {n : ℤ} (hn : (Nat.toDigits 10 n.natAbs).length ≤ 4300)
    {s : List Char} (hs : Follows s) : scanScalar (dumpsInt n ++ s) = some (.number, s) := by
  have hnone : (names.find? fun m => m.1.isPrefixOf (dumpsInt n ++ s)) = none := by
    rw [List.find?_eq_none]
    intro m hm hpre
    have hpre := List.isPrefixOf_iff_prefix.1 hpre
    cases n with
    | ofNat k =>
      obtain ⟨c, x, hx⟩ := List.exists_cons_of_ne_nil (Nat.toDigits_ne_nil (b := 10) (n := k))
      rw [dumpsInt, hx] at hpre
      exact (name_not_before hm (isDigit_of_mem_toDigits (hx ▸ List.mem_cons_self)) _).1 hpre
    | negSucc k =>
      obtain ⟨c, x, hx⟩ := List.exists_cons_of_ne_nil (Nat.toDigits_ne_nil (b := 10) (n := k + 1))
      rw [dumpsInt, hx] at hpre
      exact (name_not_before hm (isDigit_of_mem_toDigits (hx ▸ List.mem_cons_self)) _).2 hpre
  rw [scanScalar, hnone, scanNumber_dumpsInt hn hs]
  rfl

/-! ### The whole text -/

variable (ascii)

mutual
theorem scanValue_dumps : ∀ (j : Json) {n : ℕ} {s : List Char}, Plain j → Follows s →
    (dumps ascii j).length ≤ n → scanValue n (dumps ascii j ++ s) = some (kind j, s)
  | j, 0, s, _, _, hn => by
    obtain ⟨c, t, h, -⟩ := exists_head ascii j
    rw [h] at hn
    simp at hn
  | .null, n + 1, s, _, _, _ => rfl
  | .bool true, n + 1, s, _, _, _ => rfl
  | .bool false, n + 1, s, _, _, _ => rfl
  | .int k, n + 1, s, hj, hs, _ => by
    obtain ⟨c, t, h, hc⟩ := exists_head ascii (.int k)
    have hclass : ∀ d ∈ ['"', '[', '{'], firstClass d ≠ 6 := by decide
    have hne : ∀ d ∈ ['"', '[', '{'], c ≠ d := fun d hd hcd => hclass d hd (hcd ▸ hc)
    have hscalar : scanValue (n + 1) (c :: (t ++ s)) = scanScalar (c :: (t ++ s)) := by
      unfold scanValue
      split <;> simp_all
    rw [h, List.cons_append, hscalar, ← List.cons_append, ← h]
    exact scanScalar_dumpsInt hj hs
  | .str t, n + 1, s, _, _, _ => scanValue_dumpsStr ascii n t s
  | .arr [], n + 1, s, _, _, _ => rfl
  | .arr (a :: l), n + 1, s, hj, _, hn => by
    have hitems := scanItems_dumps a l (n := n) (s := s) hj (by simpa [dumps] using hn)
    rw [dumps, List.cons_append, scanValue, skipBlanks_dumpsItems,
      if_neg (dumpsItems_ne_bracket ascii), hitems]
    rfl
  | .obj [], n + 1, s, _, _, _ => rfl
  | .obj (f :: d), n + 1, s, hj, _, hn => by
    have hfields := scanFields_dumps f d (n := n) (s := s) hj (by simpa [dumps] using hn)
    rw [dumps, List.cons_append, scanValue, skipBlanks_dumpsFields,
      if_neg (dumpsFields_ne_brace ascii), hfields]
    rfl
theorem scanItems_dumps : ∀ (a : Json) (l : List Json) {n : ℕ} {s : List Char},
    PlainItems (a :: l) → (dumpsItems ascii (a :: l)).length ≤ n →
      scanItems n (dumpsItems ascii (a :: l) ++ s) = some s
  | a, [], 0, s, _, hn => by simp [dumpsItems] at hn
  | a, b :: l, 0, s, _, hn => by simp [dumpsItems] at hn
  | a, [], n + 1, s, hj, hn => by
    have ha := scanValue_dumps a (n := n) hj.1 (follows_bracket s)
      (by simp only [dumpsItems, List.length_append, List.length_cons] at hn; omega)
    rw [dumpsItems, List.append_assoc, List.singleton_append, scanItems, ha]
    rfl
  | a, b :: l, n + 1, s, hj, hn => by
    simp only [dumpsItems, List.length_append, List.length_cons] at hn
    have ha := scanValue_dumps a (n := n) hj.1 (follows_comma (dumpsItems ascii (b :: l) ++ s))
      (by omega)
    have hl := scanItems_dumps b l (n := n) (s := s) hj.2 (by omega)
    rw [dumpsItems, List.append_assoc, List.cons_append, scanItems, ha, Option.bind_some,
      skipBlanks_cons (by decide)]
    change scanItems n (skipBlanks (dumpsItems ascii (b :: l) ++ s)) = some s
    rw [skipBlanks_dumpsItems, hl]
theorem scanFields_dumps : ∀ (f : String × Json) (d : List (String × Json)) {n : ℕ}
    {s : List Char}, PlainFields (f :: d) → (dumpsFields ascii (f :: d)).length ≤ n →
      scanFields n (dumpsFields ascii (f :: d) ++ s) = some s
  | (k, a), [], 0, s, _, hn => by simp [dumpsFields] at hn
  | (k, a), g :: d, 0, s, _, hn => by simp [dumpsFields] at hn
  | (k, a), [], n + 1, s, hj, hn => by
    simp only [dumpsFields, List.length_append, List.length_cons] at hn
    have ha := scanValue_dumps a (n := n) hj.1 (follows_brace s) (by omega)
    have hkey := scanString_body ascii k.toList (':' :: (dumps ascii a ++ '}' :: s))
    simp only [dumpsFields, dumpsStr, List.append_assoc, List.cons_append, List.nil_append,
      scanFields, List.head?_cons, if_true, List.tail_cons, hkey, Option.bind_some]
    rw [skipBlanks_cons (by decide), List.head?_cons, if_pos rfl, List.tail_cons, skipBlanks_dumps,
      ha, Option.bind_some, skipBlanks_cons (by decide)]
    rfl
  | (k, a), g :: d, n + 1, s, hj, hn => by
    simp only [dumpsFields, List.length_append, List.length_cons] at hn
    have ha := scanValue_dumps a (n := n) hj.1 (follows_comma (dumpsFields ascii (g :: d) ++ s))
      (by omega)
    have hd := scanFields_dumps g d (n := n) (s := s) hj.2 (by omega)
    have hkey := scanString_body ascii k.toList
      (':' :: (dumps ascii a ++ ',' :: (dumpsFields ascii (g :: d) ++ s)))
    simp only [dumpsFields, dumpsStr, List.append_assoc, List.cons_append, List.nil_append,
      scanFields, List.head?_cons, if_true, List.tail_cons, hkey, Option.bind_some]
    rw [skipBlanks_cons (by decide), List.head?_cons, if_pos rfl, List.tail_cons, skipBlanks_dumps,
      ha, Option.bind_some, skipBlanks_cons (by decide)]
    change scanFields n (skipBlanks (dumpsFields ascii (g :: d) ++ s)) = some s
    rw [skipBlanks_dumpsFields, hd]
end

/-- **The text of a plain value is walked over, and its kind is found.** -/
theorem scan_dumps {j : Json} (hj : Plain j) : scan (dumps ascii j) = some (kind j) := by
  have hskip := skipBlanks_dumps ascii j []
  have h := scanValue_dumps ascii j (n := (dumps ascii j).length + 1) hj follows_nil (by omega)
  rw [List.append_nil] at h hskip
  rw [scan, hskip, h]
  rfl

end Json

end Shiroe

import Shiroe.Lib.JsonText

/-!
# Reading JSON text back

`Json.loads` is `json.loads` on a text without blanks between its tokens, as `json.dumps` writes it
with the separators `","` and `":"`.  A dict is built by setting key after key, so of two fields
under one key the later counts, and the dict has no order of its own; `Json.reread` is what that
makes of a value whose fields may come in any order.

* `Json.loads_dumps` : the text of `j` is read as `j.reread`;
* `Json.reread_eq_self` : that is `j` itself exactly when `j` lists its keys in increasing order;
* `Json.extends_of_le` : a text that goes on is read as its beginning is, but for a number there.
-/

namespace Shiroe

namespace Json

/-! ### What a reader keeps of a value -/

/-- The dict that has the given fields set one after the other. -/
def dictOf (fields : List (String × Json)) : List (String × Json) :=
  fields.foldl (fun d kv => dictInsert kv.1 kv.2 d) []

mutual
/-- `json.loads(json.dumps(j))`. -/
def reread : Json → Json
  | .arr l => .arr (rereadItems l)
  | .obj d => .obj (dictOf (rereadFields d))
  | .null => .null
  | .bool b => .bool b
  | .int n => .int n
  | .float x => .float x
  | .str s => .str s
/-- `reread` on the items of an array. -/
def rereadItems : List Json → List Json
  | [] => []
  | a :: as => reread a :: rereadItems as
/-- `reread` on the fields of an object. -/
def rereadFields : List (String × Json) → List (String × Json)
  | [] => []
  | (k, a) :: as => (k, reread a) :: rereadFields as
end

theorem wf_dictOf {fields : List (String × Json)} (h : WFFields fields) :
    (Json.obj (dictOf fields)).WF := by
  suffices H : ∀ d, (Json.obj d).WF →
      (Json.obj (fields.foldl (fun d kv => dictInsert kv.1 kv.2 d) d)).WF from
    H [] ⟨List.Pairwise.nil, trivial⟩
  induction fields with
  | nil => exact fun d hd => hd
  | cons kv fields ih =>
    exact fun d hd => ih h.2 _ ⟨sorted_dictInsert hd.1, WFFields.dictInsert h.1 hd.2⟩

mutual
/-- A value that was read lists its keys in order. -/
theorem wf_reread : ∀ j : Json, j.reread.WF
  | .null => trivial
  | .bool _ => trivial
  | .int _ => trivial
  | .float _ => trivial
  | .str _ => trivial
  | .arr l => wf_rereadItems l
  | .obj d => wf_dictOf (wf_rereadFields d)
theorem wf_rereadItems : ∀ l : List Json, WFItems (rereadItems l)
  | [] => trivial
  | a :: l => ⟨wf_reread a, wf_rereadItems l⟩
theorem wf_rereadFields : ∀ d : List (String × Json), WFFields (rereadFields d)
  | [] => trivial
  | (_, a) :: d => ⟨wf_reread a, wf_rereadFields d⟩
end

/-- A key after all others goes to the end. -/
theorem dictInsert_last {k : String} {v : Json} {d : List (String × Json)}
    (h : ∀ k' ∈ d.map Prod.fst, k' < k) : dictInsert k v d = d ++ [(k, v)] := by
  induction d with
  | nil => rfl
  | cons kv d ih =>
    obtain ⟨k₀, v₀⟩ := kv
    have hk : k₀ < k := h k₀ (by simp)
    rw [dictInsert, if_neg (not_lt.2 hk.le), if_neg hk.ne',
      ih fun k' hk' => h k' (List.mem_cons_of_mem _ hk')]
    rfl

theorem dictOf_of_sorted {d : List (String × Json)} (h : (d.map Prod.fst).Pairwise (· < ·)) :
    dictOf d = d := by
  suffices H : ∀ (d₀ : List (String × Json)), ((d₀ ++ d).map Prod.fst).Pairwise (· < ·) →
      d.foldl (fun d kv => dictInsert kv.1 kv.2 d) d₀ = d₀ ++ d from H [] h
  induction d with
  | nil => exact fun d₀ _ => (List.append_nil d₀).symm
  | cons kv d ih =>
    intro d₀ hd
    have hlast : ∀ k' ∈ d₀.map Prod.fst, k' < kv.1 := by
      rw [List.map_append, List.pairwise_append] at hd
      exact fun k' hk' => hd.2.2 k' hk' kv.1 (by simp)
    rw [List.foldl_cons, dictInsert_last hlast,
      ih (h.sublist (List.Sublist.map _ (List.sublist_cons_self kv d))) _ (by simpa using hd),
      List.append_assoc]
    rfl

mutual
theorem WF.reread : ∀ {j : Json}, j.WF → j.reread = j
  | .null, _ => rfl
  | .bool _, _ => rfl
  | .int _, _ => rfl
  | .float _, _ => rfl
  | .str _, _ => rfl
  | .arr l, h => by rw [Json.reread, WFItems.reread (l := l) h]
  | .obj d, h => by rw [Json.reread, WFFields.reread (d := d) h.2, dictOf_of_sorted h.1]
theorem WFItems.reread : ∀ {l : List Json}, WFItems l → rereadItems l = l
  | [], _ => rfl
  | _ :: _, h => by rw [rereadItems, WF.reread h.1, WFItems.reread h.2]
theorem WFFields.reread : ∀ {d : List (String × Json)}, WFFields d → rereadFields d = d
  | [], _ => rfl
  | (_, _) :: _, h => by rw [rereadFields, WF.reread h.1, WFFields.reread h.2]
end

/-- **A value is read back as it was iff its keys come in increasing order**, at every depth. -/
theorem reread_eq_self {j : Json} : j.reread = j ↔ j.WF :=
  ⟨fun h => h ▸ wf_reread j, WF.reread⟩

theorem rereadFields_dictInsert (k : String) (v : Json) (d : List (String × Json)) :
    rereadFields (dictInsert k v d) = dictInsert k v.reread (rereadFields d) := by
  induction d with
  | nil => rfl
  | cons kv d ih =>
    obtain ⟨k₀, v₀⟩ := kv
    simp only [dictInsert, rereadFields]
    split_ifs <;> simp [rereadFields, ih]

/-- A dict is read back field by field. -/
theorem reread_mkObj (fields : List (String × Json)) :
    (mkObj fields).reread = mkObj (fields.map fun kv => (kv.1, kv.2.reread)) := by
  have hfields : rereadFields (fields.foldr (fun kv d => dictInsert kv.1 kv.2 d) []) =
      (fields.map fun kv => (kv.1, kv.2.reread)).foldr (fun kv d => dictInsert kv.1 kv.2 d) [] := by
    induction fields with
    | nil => rfl
    | cons kv fields ih =>
      rw [List.foldr_cons, rereadFields_dictInsert, ih, List.map_cons, List.foldr_cons]
  rw [mkObj, reread, hfields, dictOf_of_sorted (KeySorted.mkObj _ _ rfl), mkObj]

/-! ### The reader -/

/-- Read one character of a string literal: a backslash begins one of the escapes, and control
characters do not stand by themselves. -/
def readUnit : List Char → Option (Char × List Char)
  | '\\' :: c :: s =>
    if c ∈ ['"', '\\', 'n', 'r', 't', 'f', 'b', 'u'] then readChar ('\\' :: c :: s) else none
  | ['\\'] => none
  | c :: s => if c.toNat < 0x20 then none else readChar (c :: s)
  | [] => none

/-- The characters of a string literal up to its closing quote. -/
def readBody : ℕ → List Char → Option (List Char × List Char)
  | 0, _ => none
  | n + 1, s =>
    if s.head? = some '"' then some ([], s.tail)
    else do
      let (c, s) ← readUnit s
      let (l, s) ← readBody n s
      return (c :: l, s)

/-- The text of a number without its sign. -/
def unsigned (l : List Char) : List Char := if l.head? = some '-' then l.tail else l

/-- The number with the given text. -/
def toNumber (l : List Char) : Option Json :=
  if unsigned l ≠ [] ∧ (unsigned l).all Char.isDigit = true then
    let n : ℤ := Nat.ofDigitChars 10 (unsigned l) 0
    some (.int (if l.head? = some '-' then -n else n))
  else if h : (((String.ofList l).toList.all floatChar &&
      (String.ofList l).toList.any fun c => c == '.' || c == 'e') = true ∨
        String.ofList l ∈ nonFinite) then
    some (.float ⟨String.ofList l, h⟩)
  else none

/-- The longest run of number characters as a number. -/
def readNumber (s : List Char) : Option (Json × List Char) :=
  (toNumber (s.takeWhile numChar)).map fun j => (j, s.dropWhile numChar)

/-- One of the names `null`, `true` and `false`. -/
def readName (name : List Char) (j : Json) (s : List Char) : Option (Json × List Char) :=
  if name.isPrefixOf s then some (j, s.drop name.length) else none

/-- Read a key and the colon after it. -/
def readKey (n : ℕ) : List Char → Option (String × List Char)
  | '"' :: s => do
    let (k, s) ← readBody n s
    if s.head? = some ':' then some (String.ofList k, s.tail) else none
  | _ => none

mutual
/-- Read a value from the start of a text; also what follows it. -/
def readValue : ℕ → List Char → Option (Json × List Char)
  | 0, _ => none
  | n + 1, s =>
    match s with
    | [] => none
    | 'n' :: s => readName ['u', 'l', 'l'] .null s
    | 't' :: s => readName ['r', 'u', 'e'] (.bool true) s
    | 'f' :: s => readName ['a', 'l', 's', 'e'] (.bool false) s
    | '"' :: s => (readBody n s).map fun r => (.str (String.ofList r.1), r.2)
    | '[' :: s =>
      if s.head? = some ']' then some (.arr [], s.tail)
      else (readItems n s).map fun r => (.arr r.1, r.2)
    | '{' :: s =>
      if s.head? = some '}' then some (.obj [], s.tail)
      else (readFields n s).map fun r => (.obj (dictOf r.1), r.2)
    | c :: s => readNumber (c :: s)
/-- Read the items of an array up to the closing bracket. -/
def readItems : ℕ → List Char → Option (List Json × List Char)
  | 0, _ => none
  | n + 1, s => do
    let (a, s) ← readValue n s
    match s with
    | ']' :: s => return ([a], s)
    | ',' :: s => do
      let (l, s) ← readItems n s
      return (a :: l, s)
    | _ => none
/-- Read the fields of an object up to the closing brace. -/
def readFields : ℕ → List Char → Option (List (String × Json) × List Char)
  | 0, _ => none
  | n + 1, s => do
    let (k, s) ← readKey n s
    let (a, s) ← readValue n s
    match s with
    | '}' :: s => return ([(k, a)], s)
    | ',' :: s => do
      let (d, s) ← readFields n s
      return ((k, a) :: d, s)
    | _ => none
end

/-- `json.loads(s)`. -/
def loads (s : List Char) : Option Json :=
  match readValue (s.length + 1) s with
  | some (j, []) => some j
  | _ => none

/-! ### Texts are read as what was written -/

variable (ascii : Bool)

theorem head?_escChar (c : Char) (s : List Char) : (escChar ascii c ++ s).head? ≠ some '"' := by
  intro h
  obtain ⟨t, ht⟩ : ∃ t, escChar ascii c ++ s = '"' :: t := by
    cases hs : escChar ascii c ++ s with
    | nil => rw [hs] at h; cases h
    | cons d t => rw [hs] at h; cases h; exact ⟨t, rfl⟩
  have hr := readChar_escChar ascii c s
  rw [ht] at hr
  cases hr

theorem readUnit_escChar (c : Char) (s : List Char) :
    readUnit (escChar ascii c ++ s) = some (c, s) := by
  have hr := readChar_escChar ascii c s
  unfold escChar at hr ⊢
  split_ifs at hr ⊢ with h₁ h₂ h₃ h₄ h₅ h₆ h₇ h₈
  iterate 7 exact hr
  · unfold escUnicode at hr ⊢
    split_ifs at hr ⊢ <;> exact hr
  · have hc : ¬ c.toNat < 0x20 := fun h => h₈ (Or.inl h)
    rw [List.singleton_append] at hr ⊢
    unfold readUnit
    split
    · rename_i heq
      exact absurd (List.cons.inj heq).1 h₂
    · rename_i heq
      exact absurd (List.cons.inj heq).1 h₂
    · rename_i heq
      cases heq
      rw [if_neg hc, hr]
    · rename_i heq
      cases heq

theorem readBody_flatMap {n : ℕ} {l : List Char} (h : l.length < n) (s : List Char) :
    readBody n (l.flatMap (escChar ascii) ++ '"' :: s) = some (l, s) := by
  induction l generalizing n with
  | nil =>
    obtain ⟨m, rfl⟩ : ∃ m, n = m + 1 := ⟨n - 1, by simp at h; omega⟩
    rfl
  | cons c l ih =>
    obtain ⟨m, rfl⟩ : ∃ m, n = m + 1 := ⟨n - 1, by simp at h; omega⟩
    rw [List.flatMap_cons, List.append_assoc, readBody, if_neg (head?_escChar ascii c _),
      readUnit_escChar]
    simp only [Option.bind_eq_bind, Option.bind_some,
      ih (n := m) (by simpa using h), Option.pure_def]

/-- A string literal is at least as long as its text and two quotes. -/
theorem length_dumpsStr (s : String) : s.toList.length + 2 ≤ (dumpsStr ascii s).length := by
  have hbody : ∀ l : List Char, l.length ≤ (l.flatMap (escChar ascii)).length := by
    intro l
    induction l with
    | nil => exact le_refl 0
    | cons c l ih =>
      have hne : (escChar ascii c).length ≠ 0 := by
        intro h0
        have hr := readChar_escChar ascii c []
        rw [List.length_eq_zero_iff.1 h0] at hr
        cases hr
      rw [List.flatMap_cons, List.length_append, List.length_cons]
      omega
  have := hbody s.toList
  simp only [dumpsStr, List.length_append, List.length_cons, List.length_nil]
  omega

theorem toNumber_dumpsInt (n : ℤ) : toNumber (dumpsInt n) = some (.int n) := by
  have hall : ∀ k : ℕ, (Nat.toDigits 10 k).all Char.isDigit = true := fun k =>
    List.all_eq_true.2 fun c hc => isDigit_of_mem_toDigits hc
  cases n with
  | ofNat k =>
    have hhead : (Nat.toDigits 10 k).head? ≠ some '-' := by
      intro h
      exact absurd (isDigit_of_mem_toDigits (List.mem_of_mem_head? h)) (by decide)
    have hu : unsigned (Nat.toDigits 10 k) = Nat.toDigits 10 k := if_neg hhead
    rw [dumpsInt, toNumber, hu, if_pos ⟨Nat.toDigits_ne_nil, hall k⟩]
    simp only [if_neg hhead, Nat.ofDigitChars_ten_toDigits]
    rfl
  | negSucc k =>
    have hu : unsigned ('-' :: Nat.toDigits 10 (k + 1)) = Nat.toDigits 10 (k + 1) := rfl
    rw [dumpsInt, toNumber, hu, if_pos ⟨Nat.toDigits_ne_nil, hall (k + 1)⟩]
    simp only [List.head?_cons, if_true, Nat.ofDigitChars_ten_toDigits]
    rfl

theorem toNumber_repr (x : PyFloat) : toNumber x.repr.toList = some (.float x) := by
  -- a text of digits alone is the text of an integer, which no `repr` is
  have hno : ¬ (unsigned x.repr.toList ≠ [] ∧
      (unsigned x.repr.toList).all Char.isDigit = true) := by
    rintro ⟨-, hall⟩
    obtain ⟨c, hc, hno⟩ := exists_not_digit x
    refine hno ?_
    unfold unsigned at hall
    split_ifs at hall with hneg
    · rw [← List.cons_head?_tail hneg] at hc
      rcases List.mem_cons.1 hc with hc | hc
      · exact Or.inl hc
      · exact Or.inr (List.all_eq_true.1 hall c hc)
    · exact Or.inr (List.all_eq_true.1 hall c hc)
  have hrepr : ((String.ofList x.repr.toList).toList.all floatChar &&
      (String.ofList x.repr.toList).toList.any fun c => c == '.' || c == 'e') = true ∨
        String.ofList x.repr.toList ∈ nonFinite := by
    rw [String.ofList_toList]
    exact x.isRepr
  rw [toNumber, if_neg hno, dif_pos hrepr]
  simp only [String.ofList_toList]

theorem readNumber_append {x s : List Char} {j : Json} (hx : ∀ c ∈ x, numChar c = true)
    (hs : NoNum s) (hj : toNumber x = some j) : readNumber (x ++ s) = some (j, s) := by
  have htake : (x ++ s).takeWhile numChar = x := by
    rw [List.takeWhile_append_of_pos hx]
    cases s with
    | nil => simp
    | cons c s => rw [List.takeWhile_cons_of_neg (by simp [hs c rfl]), List.append_nil]
  have hdrop : (x ++ s).dropWhile numChar = s := by
    rw [List.dropWhile_append_of_pos hx]
    cases s with
    | nil => rfl
    | cons c s => rw [List.dropWhile_cons_of_neg (by simp [hs c rfl])]
  rw [readNumber, htake, hdrop, hj]
  rfl

theorem readValue_quote (n : ℕ) (s : List Char) : readValue (n + 1) ('"' :: s) =
    (readBody n s).map fun r => (.str (String.ofList r.1), r.2) := rfl

theorem readValue_bracket (n : ℕ) (s : List Char) : readValue (n + 1) ('[' :: s) =
    if s.head? = some ']' then some (.arr [], s.tail)
    else (readItems n s).map fun r => (.arr r.1, r.2) := rfl

theorem readValue_brace (n : ℕ) (s : List Char) : readValue (n + 1) ('{' :: s) =
    if s.head? = some '}' then some (.obj [], s.tail)
    else (readFields n s).map fun r => (.obj (dictOf r.1), r.2) := rfl

/-- A value whose text starts like a number is read as one. -/
theorem readValue_number {n : ℕ} {c : Char} {s : List Char} (h : firstClass c = 6) :
    readValue (n + 1) (c :: s) = readNumber (c :: s) := by
  have hclass : ∀ d ∈ ['n', 't', 'f', '"', '[', '{'], firstClass d ≠ 6 := by decide
  have hne : ∀ d ∈ ['n', 't', 'f', '"', '[', '{'], c ≠ d := fun d hd hcd => hclass d hd (hcd ▸ h)
  unfold readValue
  split <;> simp_all

theorem readKey_dumpsStr {n : ℕ} {k : String} (h : (dumpsStr ascii k).length ≤ n + 1)
    (s : List Char) : readKey n (dumpsStr ascii k ++ ':' :: s) = some (k, s) := by
  have hlen := length_dumpsStr ascii k
  have hbody : readBody n (k.toList.flatMap (escChar ascii) ++ '"' :: ':' :: s) =
      some (k.toList, ':' :: s) := readBody_flatMap ascii (by omega) _
  simp only [dumpsStr, List.cons_append, List.append_assoc, List.nil_append, readKey, hbody,
    Option.bind_eq_bind, Option.bind_some, List.head?_cons, if_true, List.tail_cons,
    String.ofList_toList]

theorem readValue_dumpsStr {n : ℕ} {t : String} (h : (dumpsStr ascii t).length ≤ n + 1)
    (s : List Char) : readValue (n + 1) (dumpsStr ascii t ++ s) = some (.str t, s) := by
  have hlen := length_dumpsStr ascii t
  have hbody : readBody n (t.toList.flatMap (escChar ascii) ++ '"' :: s) = some (t.toList, s) :=
    readBody_flatMap ascii (by omega) s
  simp only [dumpsStr, List.cons_append, List.append_assoc, List.nil_append, readValue_quote, hbody,
    Option.map_some, String.ofList_toList]

theorem dumpsItems_ne_bracket {a : Json} {l : List Json} {s : List Char} :
    (dumpsItems ascii (a :: l) ++ s).head? ≠ some ']' := by
  intro h
  have hcons : ∀ t, (dumps ascii a ++ t).head? = some ']' → False := fun t ht =>
    @dumps_ne_bracket ascii a t _ (List.cons_head?_tail ht).symm
  cases l with
  | nil =>
    rw [dumpsItems, List.append_assoc] at h
    exact hcons _ h
  | cons b l =>
    rw [dumpsItems, List.append_assoc] at h
    exact hcons _ h

theorem dumpsFields_ne_brace {f : String × Json} {d : List (String × Json)} {s : List Char} :
    (dumpsFields ascii (f :: d) ++ s).head? ≠ some '}' := by
  obtain ⟨k, a⟩ := f
  cases d <;> simp [dumpsFields, dumpsStr]

mutual
theorem readValue_dumps : ∀ (j : Json) {n : ℕ} {s : List Char}, NoNum s →
    (dumps ascii j).length ≤ n → readValue n (dumps ascii j ++ s) = some (reread j, s)
  | j, 0, s, _, hn => by
    obtain ⟨c, t, h, -⟩ := exists_head ascii j
    rw [h] at hn
    simp at hn
  | .null, n + 1, s, _, _ => rfl
  | .bool true, n + 1, s, _, _ => rfl
  | .bool false, n + 1, s, _, _ => rfl
  | .int k, n + 1, s, hs, _ => by
    obtain ⟨c, t, h, hc⟩ := exists_head ascii (.int k)
    rw [h, List.cons_append, readValue_number hc, ← List.cons_append, ← h]
    exact readNumber_append (fun c hc => numChar_of_floatChar (floatChar_of_mem_dumpsInt hc)) hs
      (toNumber_dumpsInt k)
  | .float x, n + 1, s, hs, _ => by
    obtain ⟨c, t, h, hc⟩ := exists_head ascii (.float x)
    rw [h, List.cons_append, readValue_number hc, ← List.cons_append, ← h]
    exact readNumber_append (fun c hc => numChar_of_mem_repr hc) hs (toNumber_repr x)
  | .str t, n + 1, s, _, hn => readValue_dumpsStr ascii hn s
  | .arr [], n + 1, s, _, _ => rfl
  | .arr (a :: l), n + 1, s, _, hn => by
    have hitems := readItems_dumps a l (n := n) (s := s) (by simpa [dumps] using hn)
    rw [dumps, List.cons_append, readValue_bracket, if_neg (dumpsItems_ne_bracket ascii), hitems]
    rfl
  | .obj [], n + 1, s, _, _ => rfl
  | .obj (f :: d), n + 1, s, _, hn => by
    have hfields := readFields_dumps f d (n := n) (s := s) (by simpa [dumps] using hn)
    rw [dumps, List.cons_append, readValue_brace, if_neg (dumpsFields_ne_brace ascii), hfields]
    rfl
theorem readItems_dumps : ∀ (a : Json) (l : List Json) {n : ℕ} {s : List Char},
    (dumpsItems ascii (a :: l)).length ≤ n →
      readItems n (dumpsItems ascii (a :: l) ++ s) = some (rereadItems (a :: l), s)
  | a, [], 0, s, hn => by simp [dumpsItems] at hn
  | a, b :: l, 0, s, hn => by simp [dumpsItems] at hn
  | a, [], n + 1, s, hn => by
    have ha := readValue_dumps a (n := n) (noNum_bracket s)
      (by simp only [dumpsItems, List.length_append, List.length_cons] at hn; omega)
    rw [dumpsItems, List.append_assoc, List.singleton_append, readItems, ha]
    rfl
  | a, b :: l, n + 1, s, hn => by
    simp only [dumpsItems, List.length_append, List.length_cons] at hn
    have ha := readValue_dumps a (n := n) (noNum_comma (dumpsItems ascii (b :: l) ++ s)) (by omega)
    have hl := readItems_dumps b l (n := n) (s := s) (by omega)
    rw [dumpsItems, List.append_assoc, List.cons_append, readItems, ha]
    simp only [Option.bind_eq_bind, Option.bind_some, hl]
    rfl
theorem readFields_dumps : ∀ (f : String × Json) (d : List (String × Json)) {n : ℕ}
    {s : List Char}, (dumpsFields ascii (f :: d)).length ≤ n →
      readFields n (dumpsFields ascii (f :: d) ++ s) = some (rereadFields (f :: d), s)
  | (k, a), [], 0, s, hn => by simp [dumpsFields] at hn
  | (k, a), g :: d, 0, s, hn => by simp [dumpsFields] at hn
  | (k, a), [], n + 1, s, hn => by
    simp only [dumpsFields, List.length_append, List.length_cons] at hn
    have ha := readValue_dumps a (n := n) (noNum_brace s) (by omega)
    have hk := readKey_dumpsStr ascii (n := n) (k := k) (by omega) (dumps ascii a ++ '}' :: s)
    simp only [dumpsFields, List.append_assoc, List.cons_append, List.nil_append, readFields, hk,
      Option.bind_eq_bind, Option.bind_some, ha]
    rfl
  | (k, a), g :: d, n + 1, s, hn => by
    simp only [dumpsFields, List.length_append, List.length_cons] at hn
    have ha := readValue_dumps a (n := n) (noNum_comma (dumpsFields ascii (g :: d) ++ s)) (by omega)
    have hk := readKey_dumpsStr ascii (n := n) (k := k) (by omega)
      (dumps ascii a ++ ',' :: (dumpsFields ascii (g :: d) ++ s))
    have hd := readFields_dumps g d (n := n) (s := s) (by omega)
    simp only [dumpsFields, List.append_assoc, List.cons_append, readFields, hk,
      Option.bind_eq_bind, Option.bind_some, ha, hd]
    rfl
end

/-- **The text of a value is read back as `reread` of it.** -/
theorem loads_dumps (j : Json) : loads (dumps ascii j) = some j.reread := by
  have h := readValue_dumps ascii j (n := (dumps ascii j).length + 1) noNum_nil (by omega)
  rw [List.append_nil] at h
  rw [loads, h]

/-! ### A longer text is read the same way

Reading never looks beyond the end of a value, except that a number goes on as long as its
characters do. -/

theorem readHex4_append {s r : List Char} {n : ℕ} (h : readHex4 s = some (n, r)) (t : List Char) :
    readHex4 (s ++ t) = some (n, r ++ t) := by
  obtain ⟨a, b, c, d, s', rfl⟩ : ∃ a b c d s', s = a :: b :: c :: d :: s' := by
    unfold readHex4 at h
    split at h
    · exact ⟨_, _, _, _, _, rfl⟩
    · cases h
  simp only [readHex4, Option.bind_eq_bind, Option.bind_eq_some_iff, Option.pure_def,
    Option.some.injEq, Prod.mk.injEq, List.cons_append] at h ⊢
  obtain ⟨a', ha, b', hb, c', hc, d', hd, hn, rfl⟩ := h
  exact ⟨a', ha, b', hb, c', hc, d', hd, hn, rfl⟩

theorem readChar_unicode_append {s r : List Char} {c : Char}
    (h : readChar ('\\' :: 'u' :: s) = some (c, r)) (t : List Char) :
    readChar ('\\' :: 'u' :: (s ++ t)) = some (c, r ++ t) := by
  simp only [readChar, Option.bind_eq_bind, Option.bind_eq_some_iff] at h ⊢
  obtain ⟨⟨n, s₁⟩, hn, h⟩ := h
  refine ⟨(n, s₁ ++ t), readHex4_append hn t, ?_⟩
  split_ifs at h ⊢ with hpair
  · cases h
    rfl
  · simp only [Option.pure_def, Option.bind_eq_some_iff] at h ⊢
    obtain ⟨⟨m, s₂⟩, hm, h⟩ := h
    -- the second half of a pair was there to be read
    have hlen : 2 ≤ s₁.length := by
      by_contra hshort
      rw [List.drop_eq_nil_of_le (by omega)] at hm
      cases hm
    refine ⟨(m, s₂ ++ t), ?_, ?_⟩
    · rw [List.drop_append_of_le_length hlen]
      exact readHex4_append hm t
    · simp only [Option.some.injEq, Prod.mk.injEq] at h ⊢
      exact ⟨h.1, by rw [h.2]⟩

/-- Outside the escapes a character stands for itself. -/
theorem readChar_plain {c : Char} (hc : c ≠ '\\') (s : List Char) :
    readChar (c :: s) = if c = '"' then none else some (c, s) := by
  unfold readChar
  split <;> simp_all

theorem readUnit_append {s r : List Char} {c : Char} (h : readUnit s = some (c, r))
    (t : List Char) : readUnit (s ++ t) = some (c, r ++ t) := by
  cases s with
  | nil => cases h
  | cons d s =>
    by_cases hd : d = '\\'
    · subst hd
      cases s with
      | nil => cases h
      | cons e s =>
        rw [readUnit] at h
        rw [List.cons_append, List.cons_append, readUnit]
        split_ifs at h with he
        rw [if_pos he]
        simp only [List.mem_cons, List.not_mem_nil, or_false] at he
        rcases he with rfl | rfl | rfl | rfl | rfl | rfl | rfl | rfl
        iterate 7 cases h; rfl
        exact readChar_unicode_append h t
    · have hplain : ∀ s, readUnit (d :: s) =
          if d.toNat < 0x20 then none else readChar (d :: s) := by
        intro s
        unfold readUnit
        split <;> simp_all
      rw [hplain, readChar_plain hd] at h
      rw [List.cons_append, hplain, readChar_plain hd]
      split_ifs at h ⊢
      cases h
      rfl

theorem readBody_append {n m : ℕ} {s r l : List Char} (h : readBody n s = some (l, r))
    (hnm : n ≤ m) (t : List Char) : readBody m (s ++ t) = some (l, r ++ t) := by
  induction n generalizing m s l with
  | zero => cases h
  | succ n ih =>
    obtain ⟨m, rfl⟩ : ∃ k, m = k + 1 := ⟨m - 1, by omega⟩
    rw [readBody] at h ⊢
    cases s with
    | nil => simp [readUnit] at h
    | cons d s =>
      rw [List.cons_append, List.head?_cons] at *
      split_ifs at h ⊢ with hd
      · cases h
        rfl
      · simp only [Option.bind_eq_bind, Option.bind_eq_some_iff, Option.pure_def, Option.some.injEq,
          Prod.mk.injEq] at h ⊢
        obtain ⟨⟨c, s₁⟩, hc, ⟨l₁, s₂⟩, hl, rfl, rfl⟩ := h
        exact ⟨(c, s₁ ++ t), readUnit_append hc t, (l₁, s₂ ++ t), ih hl (by omega), rfl, rfl⟩

theorem readKey_append {n m : ℕ} {s r : List Char} {k : String} (h : readKey n s = some (k, r))
    (hnm : n ≤ m) (t : List Char) : readKey m (s ++ t) = some (k, r ++ t) := by
  unfold readKey at h
  split at h
  · simp only [Option.bind_eq_bind, Option.bind_eq_some_iff] at h
    obtain ⟨⟨l, s₁⟩, hl, h⟩ := h
    split_ifs at h with hcolon
    cases h
    obtain ⟨s₂, rfl⟩ : ∃ s₂, s₁ = ':' :: s₂ := ⟨s₁.tail, (List.cons_head?_tail hcolon).symm⟩
    rw [List.cons_append, readKey, readBody_append hl hnm t]
    rfl
  · cases h

theorem readName_append {name s r : List Char} {i j : Json} (h : readName name i s = some (j, r))
    (t : List Char) : readName name i (s ++ t) = some (j, r ++ t) := by
  unfold readName at h ⊢
  split_ifs at h with hp
  cases h
  obtain ⟨s', rfl⟩ := List.isPrefixOf_iff_prefix.1 hp
  rw [List.append_assoc, if_pos (List.isPrefixOf_iff_prefix.2 (List.prefix_append _ _)),
    List.drop_left, List.drop_left]

theorem readNumber_append_text {s r : List Char} {j : Json} (h : readNumber s = some (j, r))
    (hr : r ≠ []) (t : List Char) : readNumber (s ++ t) = some (j, r ++ t) := by
  rw [readNumber, Option.map_eq_some_iff] at h
  obtain ⟨j', hj, heq⟩ := h
  cases heq
  have hs : s = s.takeWhile numChar ++ s.dropWhile numChar := (List.takeWhile_append_dropWhile).symm
  have hno : NoNum (s.dropWhile numChar ++ t) := by
    intro c hc
    rw [List.head?_append_of_ne_nil _ hr] at hc
    have := List.head?_dropWhile_not numChar s
    rw [Option.mem_def.1 hc] at this
    simpa using this
  conv_lhs => rw [hs, List.append_assoc]
  exact readNumber_append (fun c hc => List.all_eq_true.1 List.all_takeWhile c hc) hno hj

theorem classOf_toNumber {l : List Char} {j : Json} (h : toNumber l = some j) : classOf j = 6 := by
  unfold toNumber at h
  split_ifs at h <;> cases h <;> rfl

/-- What a step along the items of an array can read. -/
theorem readItems_succ {n : ℕ} {s r : List Char} {l : List Json} :
    readItems (n + 1) s = some (l, r) ↔ ∃ a,
      (readValue n s = some (a, ']' :: r) ∧ l = [a]) ∨
        ∃ s' l', readValue n s = some (a, ',' :: s') ∧ readItems n s' = some (l', r) ∧
          l = a :: l' := by
  rw [readItems]
  simp only [Option.bind_eq_bind, Option.bind_eq_some_iff]
  constructor
  · rintro ⟨⟨a, s₁⟩, ha, h⟩
    split at h
    · rename_i s₂ heq
      cases heq
      cases h
      exact ⟨a, Or.inl ⟨ha, rfl⟩⟩
    · rename_i s₂ heq
      cases heq
      obtain ⟨⟨l', s₃⟩, hl, h⟩ := Option.bind_eq_some_iff.1 h
      cases h
      exact ⟨a, Or.inr ⟨s₂, l', ha, hl, rfl⟩⟩
    · cases h
  · rintro ⟨a, ⟨ha, rfl⟩ | ⟨s', l', ha, hl, rfl⟩⟩
    · exact ⟨_, ha, rfl⟩
    · exact ⟨_, ha, Option.bind_eq_some_iff.2 ⟨_, hl, rfl⟩⟩

/-- What a step along the fields of an object can read. -/
theorem readFields_succ {n : ℕ} {s r : List Char} {d : List (String × Json)} :
    readFields (n + 1) s = some (d, r) ↔ ∃ k s₁ a, readKey n s = some (k, s₁) ∧
      ((readValue n s₁ = some (a, '}' :: r) ∧ d = [(k, a)]) ∨
        ∃ s' d', readValue n s₁ = some (a, ',' :: s') ∧ readFields n s' = some (d', r) ∧
          d = (k, a) :: d') := by
  rw [readFields]
  simp only [Option.bind_eq_bind, Option.bind_eq_some_iff]
  constructor
  · rintro ⟨⟨k, s₁⟩, hk, ⟨a, s₂⟩, ha, h⟩
    split at h
    · rename_i s₃ heq
      cases heq
      cases h
      exact ⟨k, s₁, a, hk, Or.inl ⟨ha, rfl⟩⟩
    · rename_i s₃ heq
      cases heq
      obtain ⟨⟨d', s₄⟩, hd, h⟩ := Option.bind_eq_some_iff.1 h
      cases h
      exact ⟨k, s₁, a, hk, Or.inr ⟨s₃, d', ha, hd, rfl⟩⟩
    · cases h
  · rintro ⟨k, s₁, a, hk, ⟨ha, rfl⟩ | ⟨s', d', ha, hd, rfl⟩⟩
    · exact ⟨_, hk, _, ha, rfl⟩
    · exact ⟨_, hk, _, ha, Option.bind_eq_some_iff.2 ⟨_, hd, rfl⟩⟩

theorem ne_nil_of_readItems {n : ℕ} {s r : List Char} {l : List Json}
    (h : readItems n s = some (l, r)) : s ≠ [] := by
  rintro rfl
  rcases n with - | n
  · cases h
  · obtain ⟨a, ⟨ha, -⟩ | ⟨s', l', ha, -, -⟩⟩ := readItems_succ.1 h
    all_goals rcases n with - | n <;> cases ha

theorem ne_nil_of_readFields {n : ℕ} {s r : List Char} {d : List (String × Json)}
    (h : readFields n s = some (d, r)) : s ≠ [] := by
  rintro rfl
  rcases n with - | n
  · cases h
  · obtain ⟨k, s₁, a, hk, -⟩ := readFields_succ.1 h
    cases hk

/-- What is read from a text that goes on is read from any text that begins like it, as long as no
number reaches the end of the shorter text. -/
structure Extends (n m : ℕ) : Prop where
  value : ∀ {s r : List Char} {j : Json}, readValue n s = some (j, r) →
    (r ≠ [] ∨ classOf j ≠ 6) → ∀ t, readValue m (s ++ t) = some (j, r ++ t)
  items : ∀ {s r : List Char} {l : List Json}, readItems n s = some (l, r) →
    ∀ t, readItems m (s ++ t) = some (l, r ++ t)
  fields : ∀ {s r : List Char} {d : List (String × Json)}, readFields n s = some (d, r) →
    ∀ t, readFields m (s ++ t) = some (d, r ++ t)

theorem Extends.value_succ {n m : ℕ} (h : Extends n m) (hnm : n ≤ m) {s r : List Char} {j : Json}
    (hs : readValue (n + 1) s = some (j, r)) (hend : r ≠ [] ∨ classOf j ≠ 6) (t : List Char) :
    readValue (m + 1) (s ++ t) = some (j, r ++ t) := by
  unfold readValue at hs
  split at hs
  · cases hs
  · exact readName_append hs t
  · exact readName_append hs t
  · exact readName_append hs t
  · obtain ⟨⟨l, s'⟩, hl, heq⟩ := Option.map_eq_some_iff.1 hs
    cases heq
    rw [List.cons_append, readValue_quote, readBody_append hl hnm t]
    rfl
  · rw [List.cons_append, readValue_bracket]
    split_ifs at hs with hclose
    · cases hs
      rw [← List.cons_head?_tail hclose]
      rfl
    · obtain ⟨⟨l, s'⟩, hl, heq⟩ := Option.map_eq_some_iff.1 hs
      cases heq
      rw [if_neg (by rwa [List.head?_append_of_ne_nil _ (ne_nil_of_readItems hl)]), h.items hl t]
      rfl
  · rw [List.cons_append, readValue_brace]
    split_ifs at hs with hclose
    · cases hs
      rw [← List.cons_head?_tail hclose]
      rfl
    · obtain ⟨⟨d, s'⟩, hd, heq⟩ := Option.map_eq_some_iff.1 hs
      cases heq
      rw [if_neg (by rwa [List.head?_append_of_ne_nil _ (ne_nil_of_readFields hd)]), h.fields hd t]
      rfl
  · rename_i c s' h₁ h₂ h₃ h₄ h₅ h₆
    have hnum : readValue (m + 1) (c :: (s' ++ t)) = readNumber (c :: (s' ++ t)) := by
      unfold readValue
      split <;> simp_all
    rw [List.cons_append, hnum, ← List.cons_append]
    obtain ⟨k, hk, heq⟩ := Option.map_eq_some_iff.1 hs
    have hj : classOf j = 6 := by
      cases heq
      exact classOf_toNumber hk
    exact readNumber_append_text hs (hend.resolve_right (not_not_intro hj)) t

theorem Extends.items_succ {n m : ℕ} (h : Extends n m) {s r : List Char} {l : List Json}
    (hs : readItems (n + 1) s = some (l, r)) (t : List Char) :
    readItems (m + 1) (s ++ t) = some (l, r ++ t) := by
  rw [readItems_succ] at hs ⊢
  obtain ⟨a, ⟨ha, rfl⟩ | ⟨s', l', ha, hl, rfl⟩⟩ := hs
  · exact ⟨a, Or.inl ⟨h.value ha (Or.inl (List.cons_ne_nil _ _)) t, rfl⟩⟩
  · exact ⟨a, Or.inr ⟨s' ++ t, l', h.value ha (Or.inl (List.cons_ne_nil _ _)) t, h.items hl t, rfl⟩⟩

theorem Extends.fields_succ {n m : ℕ} (h : Extends n m) (hnm : n ≤ m) {s r : List Char}
    {d : List (String × Json)} (hs : readFields (n + 1) s = some (d, r)) (t : List Char) :
    readFields (m + 1) (s ++ t) = some (d, r ++ t) := by
  rw [readFields_succ] at hs ⊢
  obtain ⟨k, s₁, a, hk, ⟨ha, rfl⟩ | ⟨s', d', ha, hd, rfl⟩⟩ := hs
  · exact ⟨k, s₁ ++ t, a, readKey_append hk hnm t,
      Or.inl ⟨h.value ha (Or.inl (List.cons_ne_nil _ _)) t, rfl⟩⟩
  · exact ⟨k, s₁ ++ t, a, readKey_append hk hnm t,
      Or.inr ⟨s' ++ t, d', h.value ha (Or.inl (List.cons_ne_nil _ _)) t, h.fields hd t, rfl⟩⟩

theorem extends_of_le {n m : ℕ} (hnm : n ≤ m) : Extends n m := by
  induction n generalizing m with
  | zero => exact ⟨nofun, nofun, nofun⟩
  | succ n ih =>
    obtain ⟨m, rfl⟩ : ∃ k, m = k + 1 := ⟨m - 1, by omega⟩
    have h : Extends n m := ih (by omega)
    exact ⟨h.value_succ (by omega), h.items_succ, h.fields_succ (by omega)⟩

end Json

end Shiroe

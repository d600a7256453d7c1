import Shiroe.Transfer.Manifest

/-!
# Texts for people

`json.dumps(value, indent=2, sort_keys=True)`: the tokens of the canonical text, with a line for
each item and each field.  A value that is read from any text has its fields in order.

* `Json.wf_of_loads` : what `json.loads` returns is well formed;
* `withoutBlanks_indented` : the blanks are all that the indented text adds.
-/

namespace Shiroe

namespace Json

/-! ### What is read -/

theorem wf_of_toNumber {l : List Char} {j : Json} (h : toNumber l = some j) : j.WF := by
  have hclass := classOf_toNumber h
  cases j with
  | arr _ | obj _ => cases hclass
  | _ => trivial

theorem wf_of_readName {name s r : List Char} {j j' : Json} (hj : j.WF)
    (h : readName name j s = some (j', r)) : j'.WF := by
  unfold readName at h
  split_ifs at h
  cases h
  exact hj

/-- What is read with some fuel is well formed. -/
structure ReadsWF (n : ℕ) : Prop where
  value : ∀ {s r : List Char} {j : Json}, readValue n s = some (j, r) → j.WF
  items : ∀ {s r : List Char} {l : List Json}, readItems n s = some (l, r) → WFItems l
  fields : ∀ {s r : List Char} {d : List (String × Json)}, readFields n s = some (d, r) → WFFields d

theorem ReadsWF.value_succ {n : ℕ} (h : ReadsWF n) {s r : List Char} {j : Json}
    (hs : readValue (n + 1) s = some (j, r)) : j.WF := by
  unfold readValue at hs
  split at hs
  · cases hs
  · exact wf_of_readName (j := .null) trivial hs
  · exact wf_of_readName (j := .bool true) trivial hs
  · exact wf_of_readName (j := .bool false) trivial hs
  · obtain ⟨⟨l, s'⟩, -, heq⟩ := Option.map_eq_some_iff.1 hs
    cases heq
    trivial
  · split_ifs at hs
    · cases hs
      trivial
    · obtain ⟨⟨l, s'⟩, hl, heq⟩ := Option.map_eq_some_iff.1 hs
      cases heq
      exact h.items hl
  · split_ifs at hs
    · cases hs
      exact wf_dictOf (show WFFields [] from trivial)
    · obtain ⟨⟨d, s'⟩, hd, heq⟩ := Option.map_eq_some_iff.1 hs
      cases heq
      exact wf_dictOf (h.fields hd)
  · obtain ⟨j', hj, heq⟩ := Option.map_eq_some_iff.1 hs
    cases heq
    exact wf_of_toNumber hj

theorem readsWF (n : ℕ) : ReadsWF n := by
  induction n with
  | zero =>
    constructor
    all_goals
      intro s r x h
      cases h
  | succ n ih =>
    refine ⟨ih.value_succ, fun hs => ?_, fun hs => ?_⟩
    · obtain ⟨a, ⟨ha, rfl⟩ | ⟨s', l', ha, hl, rfl⟩⟩ := readItems_succ.1 hs
      · exact ⟨ih.value ha, trivial⟩
      · exact ⟨ih.value ha, ih.items hl⟩
    · obtain ⟨k, s₁, a, -, ⟨ha, rfl⟩ | ⟨s', d', ha, hd, rfl⟩⟩ := readFields_succ.1 hs
      · exact ⟨ih.value ha, trivial⟩
      · exact ⟨ih.value ha, ih.fields hd⟩

/-- What is read from a text is well formed. -/
theorem wf_of_loads {s : List Char} {j : Json} (h : loads s = some j) : j.WF := by
  unfold loads at h
  split at h
  · rename_i j' hj
    cases h
    exact (readsWF _).value hj
  · cases h

/-! ### What is written -/

/-- A line break, and the blanks at the start of the next line. -/
def lineBreak (level : ℕ) : List Char := '\n' :: List.replicate (2 * level) ' '

mutual
/-- `json.dumps(j, indent=2)` at a level. -/
def dumpsIndent (level : ℕ) : Json → List Char
  | .arr [] => ['[', ']']
  | .arr (a :: l) => '[' :: (lineBreak (level + 1) ++ indentItems level (a :: l))
  | .obj [] => ['{', '}']
  | .obj (kv :: d) => '{' :: (lineBreak (level + 1) ++ indentFields level (kv :: d))
  | .null => dumps true .null
  | .bool b => dumps true (.bool b)
  | .int n => dumps true (.int n)
  | .float x => dumps true (.float x)
  | .str s => dumps true (.str s)
/-- The items of an array with its closing bracket. -/
def indentItems (level : ℕ) : List Json → List Char
  | [] => [']']
  | [a] => dumpsIndent (level + 1) a ++ (lineBreak level ++ [']'])
  | a :: b :: l =>
    dumpsIndent (level + 1) a ++ ',' :: (lineBreak (level + 1) ++ indentItems level (b :: l))
/-- The fields of an object with its closing brace. -/
def indentFields (level : ℕ) : List (String × Json) → List Char
  | [] => ['}']
  | [(k, a)] => dumpsStr true k ++ ':' :: ' ' ::
    (dumpsIndent (level + 1) a ++ (lineBreak level ++ ['}']))
  | (k, a) :: b :: d =>
    dumpsStr true k ++ ':' :: ' ' :: (dumpsIndent (level + 1) a ++
      ',' :: (lineBreak (level + 1) ++ indentFields level (b :: d)))
end

example : dumpsIndent 0 (.mkObj [("a", .arr [.int 1, .arr []]), ("b", .mkObj [])]) =
    "\x7b\n  \"a\": [\n    1,\n    []\n  ],\n  \"b\": \x7b\x7d\n\x7d".toList := by decide +kernel

end Json

/-! ### The blanks -/

theorem withoutBlanks_lineBreak (level : ℕ) (s : List Char) :
    withoutBlanks false (Json.lineBreak level ++ s) = withoutBlanks false s := by
  have hblanks : ∀ n, withoutBlanks false (List.replicate n ' ' ++ s) = withoutBlanks false s := by
    intro n
    induction n with
    | zero => rfl
    | succ n ih =>
      rw [List.replicate_succ, List.cons_append, withoutBlanks, if_pos (by decide), ih]
  rw [Json.lineBreak, List.cons_append, withoutBlanks, if_pos (by decide), hblanks]

theorem withoutBlanks_space (s : List Char) :
    withoutBlanks false (' ' :: s) = withoutBlanks false s := by
  rw [withoutBlanks, if_pos (by decide)]

mutual
theorem withoutBlanks_indent : ∀ (level : ℕ) (j : Json) (s : List Char),
    withoutBlanks false (j.dumpsIndent level ++ s) = j.dumps true ++ withoutBlanks false s
  | _, .null, s => withoutBlanks_value true .null s
  | _, .bool b, s => withoutBlanks_value true (.bool b) s
  | _, .int n, s => withoutBlanks_value true (.int n) s
  | _, .float x, s => withoutBlanks_value true (.float x) s
  | _, .str t, s => withoutBlanks_value true (.str t) s
  | _, .arr [], s => withoutBlanks_value true (.arr []) s
  | _, .obj [], s => withoutBlanks_value true (.obj []) s
  | level, .arr (a :: l), s => by
    rw [Json.dumpsIndent, List.cons_append, withoutBlanks_token (by decide) (by decide),
      List.append_assoc, withoutBlanks_lineBreak, withoutBlanks_indentItems level (a :: l) s]
    rfl
  | level, .obj (kv :: d), s => by
    rw [Json.dumpsIndent, List.cons_append, withoutBlanks_token (by decide) (by decide),
      List.append_assoc, withoutBlanks_lineBreak, withoutBlanks_indentFields level (kv :: d) s]
    rfl
theorem withoutBlanks_indentItems : ∀ (level : ℕ) (l : List Json) (s : List Char),
    withoutBlanks false (Json.indentItems level l ++ s) =
      Json.dumpsItems true l ++ withoutBlanks false s
  | _, [], s => rfl
  | level, [a], s => by
    simp only [Json.indentItems, Json.dumpsItems, List.append_assoc, List.cons_append,
      List.nil_append]
    rw [withoutBlanks_indent (level + 1) a, withoutBlanks_lineBreak]
    rfl
  | level, a :: b :: l, s => by
    simp only [Json.indentItems, Json.dumpsItems, List.append_assoc, List.cons_append]
    rw [withoutBlanks_indent (level + 1) a, withoutBlanks_token (by decide) (by decide),
      withoutBlanks_lineBreak, withoutBlanks_indentItems level (b :: l) s]
theorem withoutBlanks_indentFields : ∀ (level : ℕ) (d : List (String × Json)) (s : List Char),
    withoutBlanks false (Json.indentFields level d ++ s) =
      Json.dumpsFields true d ++ withoutBlanks false s
  | _, [], s => rfl
  | level, [(k, a)], s => by
    simp only [Json.indentFields, Json.dumpsFields, List.append_assoc, List.cons_append,
      List.nil_append]
    rw [withoutBlanks_dumpsStr, withoutBlanks_token (by decide) (by decide), withoutBlanks_space,
      withoutBlanks_indent (level + 1) a, withoutBlanks_lineBreak]
    rfl
  | level, (k, a) :: b :: d, s => by
    simp only [Json.indentFields, Json.dumpsFields, List.append_assoc, List.cons_append]
    rw [withoutBlanks_dumpsStr, withoutBlanks_token (by decide) (by decide), withoutBlanks_space,
      withoutBlanks_indent (level + 1) a, withoutBlanks_token (by decide) (by decide),
      withoutBlanks_lineBreak, withoutBlanks_indentFields level (b :: d) s]
end

/-- **The indented text has the tokens of the canonical one**, and is read as it. -/
theorem withoutBlanks_indented (j : Json) :
    withoutBlanks false (j.dumpsIndent 0 ++ ['\n']) = j.dumps true := by
  rw [withoutBlanks_indent]
  exact List.append_nil _

end Shiroe

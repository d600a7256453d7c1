import Shiroe.Lib.JsonTokens
import Shiroe.Lib.TextLines

/-!
# The text of a value on a line

The text of a value holds no control character, so it stands on one line, and the text of an object
starts and ends with its braces.  What was read as a value is not read any more when an object
follows it on the line.

* `Json.solid_dumps` : the text of an object is a solid line;
* `Json.loads_extra` : a value with an object behind it is not read.
-/

namespace Shiroe

namespace Json

variable (ascii : Bool)

/-! ### No control characters -/

theorem toNat_escChar_ge {c d : Char} (h : d ∈ escChar ascii c) : 0x20 ≤ d.toNat := by
  have hdigit : ∀ k < 16, 0x20 ≤ k.digitChar.toNat := by decide
  have hhex : ∀ {n : ℕ}, d ∈ hex4 n → 0x20 ≤ d.toNat := by
    intro n h
    simp only [hex4, List.mem_cons, List.not_mem_nil, or_false] at h
    have hd : ∀ m, 0x20 ≤ (m % 16).digitChar.toNat := fun m => hdigit _ (by omega)
    rcases h with rfl | rfl | rfl | rfl <;> exact hd _
  unfold escChar at h
  split_ifs at h with h₁ h₂ h₃ h₄ h₅ h₆ h₇ h₈
  -- the seven short escapes, a `\\uXXXX` escape or a pair of them, and the character itself
  iterate 7
    · simp only [List.mem_cons, List.not_mem_nil, or_false] at h
      rcases h with rfl | rfl <;> decide
  · unfold escUnicode at h
    split_ifs at h
    · simp only [List.mem_cons] at h
      rcases h with rfl | rfl | h
      · decide
      · decide
      · exact hhex h
    · simp only [List.mem_cons, List.mem_append] at h
      rcases h with (rfl | rfl | h) | rfl | rfl | h
      · decide
      · decide
      · exact hhex h
      · decide
      · decide
      · exact hhex h
  · rw [List.mem_singleton] at h
    rw [h]
    have : ¬ c.toNat < 0x20 := fun hc => h₈ (Or.inl hc)
    omega

theorem toNat_dumpsStr_ge {s : String} {c : Char} (h : c ∈ dumpsStr ascii s) : 0x20 ≤ c.toNat := by
  simp only [dumpsStr, List.mem_cons, List.mem_append, List.mem_flatMap, List.cons_append,
    List.not_mem_nil, or_false] at h
  rcases h with rfl | ⟨d, -, h⟩ | rfl
  · decide
  · exact toNat_escChar_ge ascii h
  · decide

theorem toNat_ge_of_numChar {c : Char} (h : numChar c = true) : 0x20 ≤ c.toNat := by
  simp only [numChar, floatChar, Bool.or_eq_true, beq_iff_eq, List.contains_eq_mem,
    List.mem_cons, List.not_mem_nil, or_false, decide_eq_true_eq] at h
  rcases h with ((((h | rfl) | rfl) | rfl) | rfl) | rfl | rfl | rfl | rfl | rfl | rfl | rfl | rfl
  · have h48 : 48 ≤ c.val.toNat := by
      simp only [Char.isDigit, Bool.and_eq_true, decide_eq_true_eq] at h
      exact h.1
    exact le_trans (by decide) h48
  all_goals decide

mutual
/-- **The text of a value holds no control character.** -/
theorem toNat_dumps_ge {c : Char} : ∀ j : Json, c ∈ dumps ascii j → 0x20 ≤ c.toNat
  | .null, h => by
    have hall : ∀ c ∈ ['n', 'u', 'l', 'l'], 0x20 ≤ c.toNat := by decide
    exact hall c h
  | .bool true, h => by
    have hall : ∀ c ∈ ['t', 'r', 'u', 'e'], 0x20 ≤ c.toNat := by decide
    exact hall c h
  | .bool false, h => by
    have hall : ∀ c ∈ ['f', 'a', 'l', 's', 'e'], 0x20 ≤ c.toNat := by decide
    exact hall c h
  | .int n, h => toNat_ge_of_numChar (numChar_of_floatChar (floatChar_of_mem_dumpsInt h))
  | .float x, h => toNat_ge_of_numChar (numChar_of_mem_repr h)
  | .str s, h => toNat_dumpsStr_ge ascii h
  | .arr l, h => by
    rcases List.mem_cons.1 h with rfl | h
    · decide
    · exact toNat_dumpsItems_ge l h
  | .obj d, h => by
    rcases List.mem_cons.1 h with rfl | h
    · decide
    · exact toNat_dumpsFields_ge d h
theorem toNat_dumpsItems_ge {c : Char} :
    ∀ l : List Json, c ∈ dumpsItems ascii l → 0x20 ≤ c.toNat
  | [], h => by
    rw [List.mem_singleton.1 h]
    decide
  | [a], h => by
    rw [dumpsItems, List.mem_append, List.mem_singleton] at h
    rcases h with h | rfl
    · exact toNat_dumps_ge a h
    · decide
  | a :: b :: l, h => by
    rw [dumpsItems, List.mem_append, List.mem_cons] at h
    rcases h with h | rfl | h
    · exact toNat_dumps_ge a h
    · decide
    · exact toNat_dumpsItems_ge (b :: l) h
theorem toNat_dumpsFields_ge {c : Char} :
    ∀ d : List (String × Json), c ∈ dumpsFields ascii d → 0x20 ≤ c.toNat
  | [], h => by
    rw [List.mem_singleton.1 h]
    decide
  | [(k, a)], h => by
    simp only [dumpsFields, List.mem_append, List.mem_cons, List.not_mem_nil, or_false] at h
    rcases h with (h | rfl | h) | rfl
    · exact toNat_dumpsStr_ge ascii h
    · decide
    · exact toNat_dumps_ge a h
    · decide
  | (k, a) :: b :: d, h => by
    simp only [dumpsFields, List.mem_append, List.mem_cons] at h
    rcases h with (h | rfl | h) | rfl | h
    · exact toNat_dumpsStr_ge ascii h
    · decide
    · exact toNat_dumps_ge a h
    · decide
    · exact toNat_dumpsFields_ge (b :: d) h
end

/-! ### On a line -/

theorem getLast?_dumpsFields : ∀ d : List (String × Json),
    (dumpsFields ascii d).getLast? = some '}'
  | [] => rfl
  | [(k, a)] => by
    rw [dumpsFields, List.getLast?_append_of_ne_nil _ (List.cons_ne_nil _ _)]
    rfl
  | (k, a) :: b :: d => by
    have ih := getLast?_dumpsFields (b :: d)
    have hne : dumpsFields ascii (b :: d) ≠ [] := fun hnil => by
      rw [hnil] at ih
      cases ih
    rw [dumpsFields, List.getLast?_append_of_ne_nil _ (List.cons_ne_nil _ _),
      List.getLast?_cons_of_ne_nil hne, ih]

/-- The text of an object is a line without blanks around it, where neither a brace is a blank nor
any but a control character breaks a line. -/
theorem solid_dumps {sp brk : Char → Bool} (hopen : sp '{' = false) (hclose : sp '}' = false)
    (hbrk : ∀ c : Char, 0x20 ≤ c.toNat → brk c = false) (d : List (String × Json)) :
    TextLines.Solid sp brk (dumps ascii (.obj d)) where
  head := ⟨'{', rfl, hopen⟩
  last := by
    refine ⟨'}', ?_, hclose⟩
    have hne : dumpsFields ascii d ≠ [] := fun hnil => by
      have := getLast?_dumpsFields ascii d
      rw [hnil] at this
      cases this
    rw [dumps, List.getLast?_cons_of_ne_nil hne, getLast?_dumpsFields]
    rfl
  unbroken c hc := hbrk c (toNat_dumps_ge ascii _ hc)

/-- A text that is read as a number to its end is read so where no number goes on behind it. -/
theorem readValue_number_append {n m : ℕ} {s r t : List Char} {j : Json}
    (h : readValue (n + 1) s = some (j, r)) (hr : r = []) (hj : classOf j = 6) (ht : NoNum t) :
    readValue (m + 1) (s ++ t) = some (j, t) := by
  have hname : ∀ {name s : List Char} {i : Json}, readName name i s = some (j, r) → j = i := by
    intro name s i h
    unfold readName at h
    split_ifs at h
    exact (Prod.mk.inj (Option.some.inj h)).1.symm
  unfold readValue at h
  split at h
  · cases h
  · rw [hname h] at hj
    exact absurd hj (by decide)
  · rw [hname h] at hj
    exact absurd hj (by decide)
  · rw [hname h] at hj
    exact absurd hj (by decide)
  · obtain ⟨l, -, heq⟩ := Option.map_eq_some_iff.1 h
    rw [← (Prod.mk.inj heq).1] at hj
    exact absurd hj (by rw [classOf]; decide)
  · split_ifs at h
    · rw [← (Prod.mk.inj (Option.some.inj h)).1] at hj
      exact absurd hj (by decide)
    · obtain ⟨l, -, heq⟩ := Option.map_eq_some_iff.1 h
      rw [← (Prod.mk.inj heq).1] at hj
      exact absurd hj (by rw [classOf]; decide)
  · split_ifs at h
    · rw [← (Prod.mk.inj (Option.some.inj h)).1] at hj
      exact absurd hj (by decide)
    · obtain ⟨d, -, heq⟩ := Option.map_eq_some_iff.1 h
      rw [← (Prod.mk.inj heq).1] at hj
      exact absurd hj (by rw [classOf]; decide)
  · rename_i c s' h₁ h₂ h₃ h₄ h₅ h₆
    have hnum : readValue (m + 1) (c :: (s' ++ t)) = readNumber (c :: (s' ++ t)) := by
      unfold readValue
      split <;> simp_all
    obtain ⟨k, hk, heq⟩ := Option.map_eq_some_iff.1 h
    obtain ⟨rfl, hdrop⟩ := Prod.mk.inj heq
    -- nothing is left behind the number, so all of the text is the number
    have hall : (c :: s').takeWhile numChar = c :: s' := by
      have := List.takeWhile_append_dropWhile (p := numChar) (l := c :: s')
      rwa [hdrop, hr, List.append_nil] at this
    rw [hall] at hk
    rw [List.cons_append, hnum, ← List.cons_append]
    exact readNumber_append (fun d hd => List.takeWhile_eq_self_iff.1 hall d hd) ht hk

/-- **A value with more than blanks behind it is not read**, where no number goes on. -/
theorem loads_extra {s t : List Char} (hs : (loads s).isSome = true) (ht : NoNum t) (hne : t ≠ []) :
    loads (s ++ t) = none := by
  obtain ⟨j, hj⟩ : ∃ j, readValue (s.length + 1) s = some (j, []) := by
    unfold loads at hs
    split at hs
    · exact ⟨_, by assumption⟩
    · cases hs
  have hlong : readValue ((s ++ t).length + 1) (s ++ t) = some (j, t) := by
    by_cases hclass : classOf j = 6
    · exact readValue_number_append hj rfl hclass ht
    · exact (extends_of_le (by rw [List.length_append]; omega)).value hj (Or.inr hclass) t
  rw [loads, hlong]
  cases t with
  | nil => exact absurd rfl hne
  | cons c t => rfl

end Json

end Shiroe

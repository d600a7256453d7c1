import Mathlib.Data.List.Basic
import Mathlib.Data.List.Infix

/-!
# Words with separators between them

A list is cut into its words, the stretches without a separator; words put together again with one
separator between them hide nothing: where a separator, a word and a separator stand in such a list,
the word is one of them.

* `words_append_cons` : a separator cuts the words in two;
* `sep_infix_iff` : the words that are found between separators;
* `sep_suffix_unique` : a list ends in one word only.
-/

namespace Shiroe

namespace Words

variable {α : Type*}

section Cut

variable (p : α → Bool)

/-- The stretches without a separator that are not empty. -/
def words (l : List α) : List (List α) := (l.splitOnP p).filter fun w => !w.isEmpty

variable {p} {l w x y : List α} {a : α}

theorem words_append_cons (h : p a = true) : words p (x ++ a :: y) = words p x ++ words p y := by
  rw [words, List.splitOnP_append_cons x y h, List.filter_append, words, words]

theorem words_of_free (h : ∀ c ∈ w, p c = false) (hne : w ≠ []) : words p w = [w] := by
  rw [words, List.splitOnP_eq_singleton h, List.filter_cons_of_pos (by simpa using hne),
    List.filter_nil]

theorem words_dropWhile (l : List α) : words p (l.dropWhile p) = words p l := by
  induction l with
  | nil => rfl
  | cons a l ih =>
    by_cases ha : p a = true
    · rw [List.dropWhile_cons_of_pos ha, ih]
      exact (words_append_cons (x := []) ha).symm
    · rw [List.dropWhile_cons_of_neg ha]

theorem free_of_mem_splitOnP (h : w ∈ l.splitOnP p) : ∀ c ∈ w, p c = false := by
  induction l generalizing w with
  | nil =>
    rw [List.splitOnP_nil, List.mem_singleton] at h
    rw [h]
    exact fun c hc => absurd hc List.not_mem_nil
  | cons a l ih =>
    rw [List.splitOnP_cons_eq_if_modifyHead] at h
    split_ifs at h with ha
    · rcases List.mem_cons.1 h with rfl | h
      · exact fun c hc => absurd hc List.not_mem_nil
      · exact ih h
    · obtain ⟨first, rest, hcut⟩ := List.exists_cons_of_ne_nil (List.splitOnP_ne_nil p l)
      rw [hcut, List.modifyHead_cons] at h
      rcases List.mem_cons.1 h with rfl | h
      · refine List.forall_mem_cons.2 ⟨by simpa using ha, ?_⟩
        exact ih (hcut ▸ List.mem_cons_self)
      · exact ih (hcut ▸ List.mem_cons_of_mem _ h)

/-- A word has no separator in it. -/
theorem free_of_mem_words (h : w ∈ words p l) : ∀ c ∈ w, p c = false :=
  free_of_mem_splitOnP (List.mem_filter.1 h).1

end Cut

/-! ### Words put together -/

variable {sep : α} {t u w x y l : List α} {ws : List (List α)}

theorem intercalate_cons_eq (w : List α) (ws : List (List α)) :
    [sep].intercalate (w :: ws) = w ++ ws.flatMap (sep :: ·) := by
  induction ws generalizing w with
  | nil => rw [List.intercalate_singleton, List.flatMap_nil, List.append_nil]
  | cons v ws ih =>
    rw [List.intercalate_cons_of_ne_nil (List.cons_ne_nil _ _), ih, List.flatMap_cons,
      List.append_assoc]
    rfl

/-- A prefix without the separator lies within the first word. -/
theorem prefix_iff (ht : sep ∉ t) : t <+: w ++ ws.flatMap (sep :: ·) ↔ t <+: w := by
  refine ⟨fun h => ?_, fun h => h.trans (List.prefix_append _ _)⟩
  rcases List.prefix_or_prefix_of_prefix h (List.prefix_append w _) with hshort | ⟨t', rfl⟩
  · exact hshort
  · rw [List.prefix_append_right_inj] at h
    cases ws with
    | nil =>
      rw [List.flatMap_nil, List.prefix_nil] at h
      rw [h, List.append_nil]
    | cons v ws =>
      rw [List.flatMap_cons, List.cons_append, List.prefix_cons_iff] at h
      rcases h with rfl | ⟨t'', rfl, -⟩
      · rw [List.append_nil]
      · exact absurd (List.mem_append_right _ List.mem_cons_self) ht

/-- A stretch that starts with the separator does not start inside a word. -/
theorem sep_infix_append (hw : sep ∉ w) : (sep :: t) <:+: w ++ l ↔ (sep :: t) <:+: l := by
  induction w with
  | nil => rfl
  | cons c w ih =>
    rw [List.mem_cons, not_or] at hw
    rw [List.cons_append, List.infix_cons_iff, ih hw.2]
    refine or_iff_right fun h => ?_
    exact hw.1 (List.cons_prefix_cons.1 h).1

theorem word_prefix_iff (ht : sep ∉ t) (hw : sep ∉ w) : t ++ [sep] <+: w ++ sep :: l ↔ t = w := by
  induction t generalizing w with
  | nil =>
    cases w with
    | nil => simp
    | cons c w =>
      rw [List.mem_cons, not_or] at hw
      simp [hw.1]
  | cons a t ih =>
    rw [List.mem_cons, not_or] at ht
    cases w with
    | nil => simp [Ne.symm ht.1]
    | cons c w =>
      rw [List.mem_cons, not_or] at hw
      rw [List.cons_append, List.cons_append, List.cons_prefix_cons, ih ht.2 hw.2, List.cons.injEq]

/-- **The words between separators.** -/
theorem sep_infix_iff (ht : sep ∉ t) (hw : sep ∉ w) (hws : ∀ v ∈ ws, sep ∉ v) :
    (sep :: (t ++ [sep])) <:+: (w ++ ws.flatMap (sep :: ·)) ++ [sep] ↔ t ∈ ws := by
  induction ws generalizing w with
  | nil =>
    rw [List.flatMap_nil, List.append_nil, sep_infix_append hw]
    simp only [List.not_mem_nil, iff_false]
    intro h
    have hlength := h.length_le
    simp at hlength
  | cons v ws ih =>
    obtain ⟨hv, hws⟩ := List.forall_mem_cons.1 hws
    obtain ⟨l, hl⟩ : ∃ l, ws.flatMap (sep :: ·) ++ [sep] = sep :: l := by
      cases ws with
      | nil => exact ⟨[], rfl⟩
      | cons u ws => exact ⟨_, rfl⟩
    rw [List.append_assoc, sep_infix_append hw, List.flatMap_cons, List.append_assoc,
      List.cons_append, List.infix_cons_iff, List.cons_prefix_cons, ← List.append_assoc,
      ih hv hws, List.append_assoc, hl, word_prefix_iff ht hv, List.mem_cons]
    exact or_congr_left (and_iff_right rfl)

/-- A list ends in one word only. -/
theorem sep_suffix_unique (hx : sep ∉ x) (hy : sep ∉ y) (h : (sep :: x) <:+ l)
    (h' : (sep :: y) <:+ l) : x = y := by
  have hshort : ∀ {x y : List α}, sep ∉ y → (sep :: x) <:+ (sep :: y) → x = y := by
    intro x y hy h
    rcases List.suffix_cons_iff.1 h with h | h
    · exact (List.cons.inj h).2
    · exact absurd (h.subset List.mem_cons_self) hy
  rcases List.suffix_or_suffix_of_suffix h h' with h | h
  · exact hshort hy h
  · exact (hshort hx h).symm

/-- What stands at the end or before a separator stands before one after a separator is added. -/
theorem infix_append_singleton {a : α} :
    (x ++ [a]) <:+: l ++ [a] ↔ x <:+ l ∨ (x ++ [a]) <:+: l := by
  constructor
  · rintro ⟨s, t, h⟩
    rcases List.eq_nil_or_concat t with rfl | ⟨t, c, rfl⟩
    · rw [List.append_nil, ← List.append_assoc] at h
      exact .inl ⟨s, List.append_cancel_right h⟩
    · rw [List.concat_eq_append, ← List.append_assoc] at h
      exact .inr ⟨s, t, (List.append_inj' h rfl).1⟩
  · rintro (⟨s, rfl⟩ | ⟨s, t, rfl⟩)
    · exact ⟨s, [], by simp⟩
    · exact ⟨s, t ++ [a], by simp⟩

end Words

end Shiroe

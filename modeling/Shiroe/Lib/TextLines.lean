import Mathlib.Data.List.DropRight

/-!
# The lines of a text

A reader goes through a text line by line, drops the blanks at both ends of a line and passes over
lines that are left empty.  A writer adds a line and a line break at the end of the text, whatever
stands there.

* `lines_append_line` : the new line is read by itself when nothing but blanks stands behind the
  last line break, and together with what stands there otherwise;
* `lines_written` : a text of whole lines is read as these lines.
-/

namespace Shiroe

namespace TextLines

variable {α : Type*} (sp brk : α → Bool)

/-- The text without the blanks at both ends. -/
def trim (l : List α) : List α := (l.dropWhile sp).rdropWhile sp

/-- The lines of a text, without the blanks around them, without those that are left empty. -/
def lines (text : List α) : List (List α) :=
  ((text.splitOnP brk).map (trim sp)).filter (!·.isEmpty)

/-- What stands behind the last line break of a text. -/
def openLine (text : List α) : List α := text.rtakeWhile (!brk ·)

/-- The text up to its last line break. -/
def closedLines (text : List α) : List α := text.rdropWhile (!brk ·)

/-- A text on one line that neither starts nor ends with a blank. -/
structure Solid (l : List α) : Prop where
  head : ∃ c ∈ l.head?, sp c = false
  last : ∃ c ∈ l.getLast?, sp c = false
  unbroken : ∀ c ∈ l, brk c = false

variable {sp brk}

/-! ### Blanks at the ends -/

theorem trim_eq_nil_iff {l : List α} : trim sp l = [] ↔ ∀ c ∈ l, sp c = true := by
  rw [trim, List.rdropWhile_eq_nil_iff]
  constructor
  · intro h c hc
    by_contra hno
    -- the first character that is no blank is left by the first pass
    have hne : l.dropWhile sp ≠ [] := fun hnil => hno (List.dropWhile_eq_nil_iff.1 hnil c hc)
    have hhead := List.head_dropWhile_not sp hne
    rw [h _ (List.head_mem hne)] at hhead
    cases hhead
  · intro h c hc
    exact h c ((List.dropWhile_sublist sp).mem hc)

theorem Solid.ne_nil {l : List α} (h : Solid sp brk l) : l ≠ [] := by
  rintro rfl
  obtain ⟨c, hc, -⟩ := h.head
  cases hc

theorem Solid.rdropWhile_append {l : List α} (h : Solid sp brk l) (x : List α) :
    (x ++ l).rdropWhile sp = x ++ l := by
  rw [List.rdropWhile_eq_self_iff]
  intro hne hlast
  obtain ⟨c, hc, hno⟩ := h.last
  have hget : l.getLast h.ne_nil = c := (List.getLast_eq_iff_getLast?_eq_some h.ne_nil).2 hc
  rw [List.getLast_append_of_ne_nil hne h.ne_nil, hget, hno] at hlast
  cases hlast

theorem Solid.dropWhile {l : List α} (h : Solid sp brk l) : l.dropWhile sp = l := by
  obtain ⟨c, hc, hno⟩ := h.head
  rw [← List.cons_head?_tail hc, List.dropWhile_cons_of_neg (by simp [hno])]

theorem Solid.trim {l : List α} (h : Solid sp brk l) : trim sp l = l := by
  rw [TextLines.trim, h.dropWhile]
  exact h.rdropWhile_append []

/-- Blanks in front of a text are dropped. -/
theorem trim_append_of_blank {x : List α} (hx : ∀ c ∈ x, sp c = true) (l : List α) :
    trim sp (x ++ l) = trim sp l := by
  rw [trim, List.dropWhile_append_of_pos hx, trim]

/-- A text in front of a solid one keeps the blanks between them. -/
theorem Solid.trim_append {l : List α} (h : Solid sp brk l) (x : List α) :
    ∃ b, (∀ c ∈ b, sp c = true) ∧ TextLines.trim sp (x ++ l) = TextLines.trim sp x ++ b ++ l := by
  by_cases hx : ∀ c ∈ x, sp c = true
  · refine ⟨[], List.forall_mem_nil _, ?_⟩
    rw [trim_append_of_blank hx, h.trim, trim_eq_nil_iff.2 hx]
    rfl
  · refine ⟨(x.dropWhile sp).rtakeWhile sp, fun c hc => List.mem_rtakeWhile_imp hc, ?_⟩
    have hdrop : (x ++ l).dropWhile sp = x.dropWhile sp ++ l := by
      rw [List.dropWhile_append, if_neg]
      rw [List.isEmpty_iff, List.dropWhile_eq_nil_iff]
      exact hx
    rw [TextLines.trim, hdrop, h.rdropWhile_append, TextLines.trim,
      List.rdropWhile_append_rtakeWhile]

/-! ### Lines -/

/-- What stands behind the last line break is the open line. -/
theorem openLine_append_cons {c : α} (hc : brk c = true) (a : List α) {l : List α}
    (hl : ∀ d ∈ l, brk d = false) : openLine brk (a ++ c :: l) = l := by
  have hrev : (a ++ c :: l).reverse = l.reverse ++ c :: a.reverse := by simp
  rw [openLine, List.rtakeWhile, hrev, List.takeWhile_append_of_pos, List.takeWhile_cons_of_neg,
    List.append_nil, List.reverse_reverse]
  · simp [hc]
  · intro d hd
    simp [hl d (List.mem_reverse.1 hd)]

theorem lines_nil : lines sp brk [] = [] := rfl

/-- A line break parts the lines in front of it from those behind it. -/
theorem lines_append_cons {c : α} (hc : brk c = true) (a b : List α) :
    lines sp brk (a ++ c :: b) = lines sp brk a ++ lines sp brk b := by
  simp only [lines, List.splitOnP_append_cons a b hc, List.map_append, List.filter_append]

theorem lines_of_unbroken {l : List α} (h : ∀ c ∈ l, brk c = false) :
    lines sp brk l = if trim sp l = [] then [] else [trim sp l] := by
  rw [lines, List.splitOnP_eq_singleton h, List.map_singleton]
  cases htrim : trim sp l <;> rfl

theorem closedLines_append_openLine (brk : α → Bool) (text : List α) :
    closedLines brk text ++ openLine brk text = text :=
  List.rdropWhile_append_rtakeWhile

theorem unbroken_openLine {text : List α} : ∀ c ∈ openLine brk text, brk c = false := by
  intro c hc
  simpa using List.mem_rtakeWhile_imp hc

theorem getLast?_closedLines {text : List α} :
    ∀ c ∈ (closedLines brk text).getLast?, brk c = true := by
  intro c hc
  have hne : closedLines brk text ≠ [] := by
    intro hnil
    rw [hnil] at hc
    cases hc
  have hlast : ¬ (!brk ((closedLines brk text).getLast hne)) = true :=
    List.rdropWhile_last_not (!brk ·) text hne
  rw [(List.getLast_eq_iff_getLast?_eq_some hne).2 hc] at hlast
  simpa using hlast

/-- What is written behind a text joins its open line. -/
theorem lines_append (text l : List α) : lines sp brk (text ++ l) =
    lines sp brk (closedLines brk text) ++ lines sp brk (openLine brk text ++ l) := by
  nth_rewrite 1 [← closedLines_append_openLine brk text]
  rw [List.append_assoc]
  rcases List.eq_nil_or_concat (closedLines brk text) with hnil | ⟨a, c, hconcat⟩
  · rw [hnil, lines_nil]
    rfl
  · have hc : brk c = true := getLast?_closedLines c (by rw [hconcat]; simp)
    rw [hconcat, List.concat_eq_append, List.append_assoc, List.singleton_append,
      lines_append_cons hc, lines_append_cons hc, lines_nil, List.append_nil]

/-- **A line at the end of a text** is read together with what stands behind the last line
break. -/
theorem lines_append_line {l : List α} (h : Solid sp brk l) {c : α} (hc : brk c = true)
    (text : List α) : lines sp brk (text ++ (l ++ [c])) =
      lines sp brk (closedLines brk text) ++ [trim sp (openLine brk text ++ l)] := by
  have hunbroken : ∀ d ∈ openLine brk text ++ l, brk d = false := by
    intro d hd
    rcases List.mem_append.1 hd with hd | hd
    · exact unbroken_openLine d hd
    · exact h.unbroken d hd
  have hne : trim sp (openLine brk text ++ l) ≠ [] := by
    obtain ⟨b, -, htrim⟩ := h.trim_append (openLine brk text)
    rw [htrim]
    exact List.append_ne_nil_of_right_ne_nil _ h.ne_nil
  rw [lines_append, ← List.append_assoc, lines_append_cons hc, lines_nil, List.append_nil,
    lines_of_unbroken hunbroken, if_neg hne]

/-- The lines of a text are those of its closed part, and its open line. -/
theorem lines_eq (text : List α) : lines sp brk text = lines sp brk (closedLines brk text) ++
    if trim sp (openLine brk text) = [] then [] else [trim sp (openLine brk text)] := by
  rw [← lines_of_unbroken unbroken_openLine]
  have happend : lines sp brk (text ++ []) = _ := lines_append text []
  rwa [List.append_nil, List.append_nil] at happend

/-- Behind nothing but blanks the new line is read by itself. -/
theorem lines_append_line_of_blank {l : List α} (h : Solid sp brk l) {c : α} (hc : brk c = true)
    {text : List α} (hblank : ∀ d ∈ openLine brk text, sp d = true) :
    lines sp brk (text ++ (l ++ [c])) = lines sp brk text ++ [l] := by
  rw [lines_append_line h hc, trim_append_of_blank hblank, h.trim, lines_eq text,
    if_pos (trim_eq_nil_iff.2 hblank), List.append_nil]

/-- **What is written line by line is read line by line.** -/
theorem lines_written {c : α} (hc : brk c = true) {ls : List (List α)}
    (h : ∀ l ∈ ls, Solid sp brk l) : lines sp brk (ls.flatMap (· ++ [c])) = ls := by
  induction ls with
  | nil => rfl
  | cons l ls ih =>
    obtain ⟨hl, hls⟩ := List.forall_mem_cons.1 h
    rw [List.flatMap_cons, List.append_assoc, List.singleton_append, lines_append_cons hc, ih hls,
      lines_of_unbroken hl.unbroken, hl.trim, if_neg hl.ne_nil]
    rfl

end TextLines

end Shiroe

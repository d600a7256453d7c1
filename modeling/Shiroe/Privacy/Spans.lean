import Shiroe.Base
import Shiroe.Lib.Filtered
import Shiroe.Lib.Spans

/-!
# The spans that a surface redacts

`privacy.py` scans a text on several surfaces.  A scan yields spans in the original text; they are
merged, and the text is redacted from the right.  The scans for split tokens look at a view of the
text without some of its white space, and carry the matches back over an index map.

A text is the list of its characters, as Python counts them, and a pattern is what its `finditer`
yields.

* `redactSpans_mergeSpans` : what merging and redacting leave of a text;
* `collapsedPatternSpans_spec` : which positions the scan of a collapsed view covers.
-/

namespace Shiroe

open Spans Filtered

/-- A compiled regular expression, by the spans of its matches, `finditer`, in every text. -/
structure Pattern where
  finditer : List Char → List (ℕ × ℕ)
  within : ∀ text, ∀ m ∈ finditer text, m.1 ≤ m.2 ∧ m.2 ≤ text.length

/-- `pattern.search(text)` finds a match. -/
def Pattern.search (p : Pattern) (text : List Char) : Bool := !(p.finditer text).isEmpty

/-- `_merge_spans`. -/
def mergeSpans (spans : List (ℕ × ℕ)) : List (ℕ × ℕ) := merge spans

/-- `_redact_spans`. -/
def redactSpans (text : List Char) (spans : List (ℕ × ℕ)) (replacement : List Char) : List Char :=
  replace replacement text spans

/-- **Merging and redacting.**  The merged spans are sorted, no two of them touch, and they cover
the positions that were given; redacting them puts the replacement where each span started and keeps
every character that none covers. -/
theorem redactSpans_mergeSpans (text replacement : List Char) (spans : List (ℕ × ℕ))
    (h : ∀ s ∈ spans, s.1 < s.2 ∧ s.2 ≤ text.length) :
    (mergeSpans spans).Pairwise (fun s t => s.2 < t.1) ∧
      (∀ s ∈ mergeSpans spans, s.1 < s.2 ∧ s.2 ≤ text.length) ∧
      (∀ i, Covers (mergeSpans spans) i ↔ Covers spans i) ∧
      redactSpans text (mergeSpans spans) replacement = text.zipIdx.flatMap fun p =>
        if Starts (mergeSpans spans) p.2 then replacement
        else if Covers (mergeSpans spans) p.2 then [] else [p.1] :=
  ⟨apart_merge spans, within_merge h, fun _ => covers_merge spans,
    replace_eq (within_merge h) (apart_merge spans)⟩

/-- Three spans out of order, two of them overlapping. -/
theorem redactSpans_mergeSpans_three :
    (mergeSpans [(6, 8), (1, 3), (2, 5)]).Pairwise (fun s t => s.2 < t.1) ∧
      (∀ s ∈ mergeSpans [(6, 8), (1, 3), (2, 5)], s.1 < s.2 ∧ s.2 ≤ "abcdefghi".toList.length) ∧
      (∀ i, Covers (mergeSpans [(6, 8), (1, 3), (2, 5)]) i ↔ Covers [(6, 8), (1, 3), (2, 5)] i) ∧
      redactSpans "abcdefghi".toList (mergeSpans [(6, 8), (1, 3), (2, 5)]) "*".toList =
        "abcdefghi".toList.zipIdx.flatMap fun p =>
          if Starts (mergeSpans [(6, 8), (1, 3), (2, 5)]) p.2 then "*".toList
          else if Covers (mergeSpans [(6, 8), (1, 3), (2, 5)]) p.2 then [] else [p.1] :=
  redactSpans_mergeSpans _ _ _ (by decide)

example : redactSpans "abcdefghi".toList (mergeSpans [(6, 8), (1, 3), (2, 5)]) "*".toList =
    "a*f*i".toList := by decide

/-! ### Collapsed views -/

variable (collapse : List Char → ℕ → Bool) (text : List Char)

/-- The characters that the collapsed view keeps, with their positions in the text. -/
def collapsedView : List (Char × ℕ) :=
  text.zipIdx.filter fun p => !(isSpace p.1 && collapse text p.2)

/-- The collapsed view, `"".join(collapsed_chars)`. -/
def collapsed : List Char := (collapsedView collapse text).map Prod.fst

/-- `index_map`. -/
def indexMap : List ℕ := (collapsedView collapse text).map Prod.snd

/-- `text[i].isspace()`. -/
def spaceAt (i : ℕ) : Bool := text[i]?.any isSpace

/-- The original span of a match in the collapsed view, where it is kept: the match is not empty and
its original span has white space in it. -/
def originalSpan (m : ℕ × ℕ) : Option (ℕ × ℕ) :=
  if m.2 ≤ m.1 then none
  else
    -- both indices are in range, since a match lies within the collapsed view
    let origStart := (indexMap collapse text).getD m.1 0
    let origEnd := (indexMap collapse text).getD (m.2 - 1) 0 + 1
    if (List.range' origStart (origEnd - origStart)).any (spaceAt text) then
      some (origStart, origEnd)
    else none

/-- `_collapsed_pattern_spans`. -/
def collapsedPatternSpans (patterns : List Pattern) : List (ℕ × ℕ) :=
  mergeSpans (patterns.flatMap fun p =>
    (p.finditer (collapsed collapse text)).filterMap (originalSpan collapse text))

/-- `_borders_punctuation`: the nearest neighbour on some side that is no white space is not
alphanumeric either. -/
def bordersPunctuation (isAlnum : Char → Bool) (text : List Char) (index : ℕ) : Bool :=
  ((text.take index).reverse.find? fun c => !isSpace c).any (fun c => !isAlnum c) ||
    ((text.drop (index + 1)).find? fun c => !isSpace c).any fun c => !isAlnum c

/-- `_scan_whitespace_split_classes`. -/
def scanWhitespaceSplitClasses (isAlnum : Char → Bool) (patterns : List Pattern) :
    List (ℕ × ℕ) :=
  collapsedPatternSpans (bordersPunctuation isAlnum) text patterns

/-- The character at a position is left out of the collapsed view. -/
def Dropped (i : ℕ) : Prop := spaceAt text i = true ∧ collapse text i = true

instance (i : ℕ) : Decidable (Dropped collapse text i) := inferInstanceAs (Decidable (_ ∧ _))

/-- The character at `k` of the collapsed view is the one at position `i` of the text: it is not
dropped, and `k` positions before it are not dropped. -/
def ComesFrom (k i : ℕ) : Prop :=
  i < text.length ∧ ¬Dropped collapse text i ∧
    ((List.range i).filter fun j => ¬Dropped collapse text j).length = k

variable {collapse text}

theorem collapsedView_eq :
    collapsedView collapse text = view (fun i => decide ¬Dropped collapse text i) text := by
  refine List.filter_congr fun p hp => ?_
  have hchar : text[p.2]? = some p.1 := List.mem_zipIdx_iff_getElem?.1 hp
  rw [Bool.eq_iff_iff]
  simp [Dropped, spaceAt, hchar]

theorem origin_iff {k i : ℕ} :
    Origin (fun i => decide ¬Dropped collapse text i) text.length k i ↔
      ComesFrom collapse text k i := by
  rw [Origin, ComesFrom, rank, List.countP_eq_length_filter, decide_eq_true_iff]

theorem getElem?_indexMap_iff {k i : ℕ} :
    (indexMap collapse text)[k]? = some i ↔ ComesFrom collapse text k i := by
  rw [← origin_iff, ← getElem?_indexMap, Filtered.indexMap, ← collapsedView_eq]
  rfl

/-- Every character of the collapsed view comes from a position of the text. -/
theorem exists_comesFrom {k : ℕ} (h : k < (collapsed collapse text).length) :
    ∃ i, ComesFrom collapse text k i := by
  rw [collapsed, collapsedView_eq, ← kept] at h
  obtain ⟨i, hi⟩ := exists_origin h
  exact ⟨i, origin_iff.1 hi⟩

theorem any_spaceAt_iff {first last : ℕ} :
    (List.range' first (last + 1 - first)).any (spaceAt text) = true ↔
      ∃ j, first ≤ j ∧ j ≤ last ∧ spaceAt text j = true := by
  rw [List.any_eq_true]
  refine exists_congr fun j => ?_
  rw [List.mem_range'_1, ← and_assoc]
  refine and_congr_left fun _ => ?_
  omega

theorem originalSpan_eq {m : ℕ × ℕ} {first last : ℕ} (hm : m.1 < m.2)
    (hfirst : ComesFrom collapse text m.1 first) (hlast : ComesFrom collapse text (m.2 - 1) last) :
    originalSpan collapse text m =
      if (List.range' first (last + 1 - first)).any (spaceAt text) then some (first, last + 1)
      else none := by
  rw [originalSpan, if_neg (by omega), List.getD_eq_getElem?_getD, List.getD_eq_getElem?_getD,
    getElem?_indexMap_iff.2 hfirst, getElem?_indexMap_iff.2 hlast]
  rfl

/-- The two ends of a match that is not empty. -/
theorem exists_ends {p : Pattern} {m : ℕ × ℕ} (hmem : m ∈ p.finditer (collapsed collapse text))
    (hm : m.1 < m.2) : ∃ first last : ℕ, ComesFrom collapse text m.1 first ∧
      ComesFrom collapse text (m.2 - 1) last := by
  have hlast := (p.within _ m hmem).2
  obtain ⟨first, hfirst⟩ := @exists_comesFrom collapse text m.1 (by omega)
  obtain ⟨last, hlast⟩ := @exists_comesFrom collapse text (m.2 - 1) (by omega)
  exact ⟨first, last, hfirst, hlast⟩

theorem originalSpan_eq_some {p : Pattern} {m s : ℕ × ℕ}
    (hmem : m ∈ p.finditer (collapsed collapse text)) :
    originalSpan collapse text m = some s ↔ m.1 < m.2 ∧ ∃ first last : ℕ,
      ComesFrom collapse text m.1 first ∧ ComesFrom collapse text (m.2 - 1) last ∧
        (∃ j, first ≤ j ∧ j ≤ last ∧ spaceAt text j = true) ∧ s = (first, last + 1) := by
  by_cases hm : m.1 < m.2
  · obtain ⟨first, last, hfirst, hlast⟩ := exists_ends hmem hm
    rw [originalSpan_eq hm hfirst hlast]
    constructor
    · intro h
      split_ifs at h with hspace
      exact ⟨hm, first, last, hfirst, hlast, any_spaceAt_iff.1 hspace, (Option.some.inj h).symm⟩
    · rintro ⟨-, first', last', hfirst', hlast', hspace, rfl⟩
      obtain rfl := (origin_iff.2 hfirst).unique (origin_iff.2 hfirst')
      obtain rfl := (origin_iff.2 hlast).unique (origin_iff.2 hlast')
      rw [if_pos (any_spaceAt_iff.2 hspace)]
  · rw [originalSpan, if_pos (not_lt.1 hm)]
    exact ⟨fun h => absurd h (by simp), fun h => absurd h.1 hm⟩

/-- A match spells what is kept of the stretch it comes from. -/
theorem kept_of_match {m : ℕ × ℕ} {first last : ℕ} (hm : m.1 < m.2)
    (hfirst : ComesFrom collapse text m.1 first) (hlast : ComesFrom collapse text (m.2 - 1) last) :
    ((((text.zipIdx.take (last + 1)).drop first).filter
      fun p => ¬Dropped collapse text p.2).map Prod.fst) =
        ((collapsed collapse text).take m.2).drop m.1 := by
  have hspell := drop_take_kept (origin_iff.2 hfirst) (origin_iff.2 hlast) (by omega)
  rw [kept, ← collapsedView_eq, Nat.sub_add_cancel (by omega)] at hspell
  exact hspell.symm

variable (collapse text)

/-- **The scan of a collapsed view.**  A position is covered exactly if it lies between the two ends
of the original stretch of a match that is not empty, with white space in that stretch; and what is
not dropped of the stretch of a match spells the match. -/
theorem collapsedPatternSpans_spec (patterns : List Pattern) :
    (∀ i, Covers (collapsedPatternSpans collapse text patterns) i ↔
      ∃ p ∈ patterns, ∃ m ∈ p.finditer (collapsed collapse text), m.1 < m.2 ∧
        ∃ first last, ComesFrom collapse text m.1 first ∧
          ComesFrom collapse text (m.2 - 1) last ∧
          (∃ j, first ≤ j ∧ j ≤ last ∧ spaceAt text j = true) ∧ first ≤ i ∧ i ≤ last) ∧
    ∀ p ∈ patterns, ∀ m ∈ p.finditer (collapsed collapse text), m.1 < m.2 →
      ∃ first last, ComesFrom collapse text m.1 first ∧ ComesFrom collapse text (m.2 - 1) last ∧
        ((((text.zipIdx.take (last + 1)).drop first).filter
          fun p => ¬Dropped collapse text p.2).map Prod.fst) =
            ((collapsed collapse text).take m.2).drop m.1 := by
  constructor
  · intro i
    rw [collapsedPatternSpans, mergeSpans, covers_merge]
    constructor
    · rintro ⟨s, hs, hle, hlt⟩
      obtain ⟨p, hp, hs⟩ := List.mem_flatMap.1 hs
      obtain ⟨m, hm, hs⟩ := List.mem_filterMap.1 hs
      obtain ⟨hlength, first, last, hfirst, hlast, hspace, rfl⟩ := (originalSpan_eq_some hm).1 hs
      exact ⟨p, hp, m, hm, hlength, first, last, hfirst, hlast, hspace, hle, Nat.lt_succ_iff.1 hlt⟩
    · rintro ⟨p, hp, m, hm, hlength, first, last, hfirst, hlast, hspace, hle, hlt⟩
      refine ⟨(first, last + 1), List.mem_flatMap.2 ⟨p, hp, List.mem_filterMap.2 ⟨m, hm, ?_⟩⟩, hle,
        Nat.lt_succ_of_le hlt⟩
      exact (originalSpan_eq_some hm).2 ⟨hlength, first, last, hfirst, hlast, hspace, rfl⟩
  · intro p hp m hm hlength
    obtain ⟨first, last, hfirst, hlast⟩ := exists_ends hm hlength
    exact ⟨first, last, hfirst, hlast, kept_of_match hlength hfirst hlast⟩

end Shiroe

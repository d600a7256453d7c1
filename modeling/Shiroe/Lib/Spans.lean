import Mathlib.Data.List.Flatten
import Mathlib.Data.Prod.Lex
import Shiroe.Lib.Ranking

/-!
# Spans of positions

A span `(start, end)` stands for the positions from `start` up to, not including, `end`.  Spans in
any order are merged in one pass over the sorted list, and a list of merged spans is replaced in a
text from the right, so that the spans still to come keep their places.

* `covers_merge` : merging keeps the positions that are covered;
* `exists_mem_merge` : each span lies in a merged one;
* `apart_merge` : the merged spans stand in order, at least one position free between neighbours;
* `replace_eq` : what a text is after its spans are replaced, read off position by position.
-/

namespace Shiroe

namespace Spans

variable {α : Type*}

/-- One of the spans covers the position. -/
def Covers (spans : List (ℕ × ℕ)) (i : ℕ) : Prop := ∃ s ∈ spans, s.1 ≤ i ∧ i < s.2

/-- One of the spans starts at the position. -/
def Starts (spans : List (ℕ × ℕ)) (i : ℕ) : Prop := ∃ s ∈ spans, s.1 = i

/-- The spans stand in order, with at least one position free between any two of them. -/
def Apart (spans : List (ℕ × ℕ)) : Prop := spans.Pairwise fun s t => s.2 < t.1

/-- No span is empty, and none reaches past the end of a text of this length. -/
def Within (n : ℕ) (spans : List (ℕ × ℕ)) : Prop := ∀ s ∈ spans, s.1 < s.2 ∧ s.2 ≤ n

instance (spans : List (ℕ × ℕ)) (i : ℕ) : Decidable (Covers spans i) :=
  inferInstanceAs (Decidable (∃ s ∈ spans, _))

instance (spans : List (ℕ × ℕ)) (i : ℕ) : Decidable (Starts spans i) :=
  inferInstanceAs (Decidable (∃ s ∈ spans, _))

/-- The pass over the sorted spans: `last` is the span merged last, all before it are done. -/
def mergeFrom (last : ℕ × ℕ) : List (ℕ × ℕ) → List (ℕ × ℕ)
  | [] => [last]
  | s :: rest =>
    if s.1 ≤ last.2 then mergeFrom (last.1, max last.2 s.2) rest else last :: mergeFrom s rest

/-- The pass over a whole list that is sorted. -/
def mergeSorted : List (ℕ × ℕ) → List (ℕ × ℕ)
  | [] => []
  | s :: rest => mergeFrom s rest

/-- Overlapping and adjacent spans become one; the result is sorted. -/
def merge (spans : List (ℕ × ℕ)) : List (ℕ × ℕ) := mergeSorted (Ranking.ranked toLex spans)

/-- Each span is replaced, the last one first. -/
def replace (repl text : List α) (spans : List (ℕ × ℕ)) : List α :=
  spans.reverse.foldl (fun text s => text.take s.1 ++ repl ++ text.drop s.2) text

/-- What a position of the text leaves in the result. -/
def leaves (repl : List α) (spans : List (ℕ × ℕ)) (p : α × ℕ) : List α :=
  if Starts spans p.2 then repl else if Covers spans p.2 then [] else [p.1]

/-- The text with the replacement in place of each span and every other character kept. -/
def replaced (repl text : List α) (spans : List (ℕ × ℕ)) : List α :=
  text.zipIdx.flatMap (leaves repl spans)

variable {spans rest : List (ℕ × ℕ)} {s last : ℕ × ℕ} {i n : ℕ}

@[simp] theorem not_covers_nil : ¬Covers [] i := by simp [Covers]

@[simp] theorem covers_cons : Covers (s :: rest) i ↔ s.1 ≤ i ∧ i < s.2 ∨ Covers rest i := by
  simp [Covers]

@[simp] theorem starts_cons : Starts (s :: rest) i ↔ s.1 = i ∨ Starts rest i := by
  simp [Starts]

theorem covers_congr (h : ∀ s, s ∈ spans ↔ s ∈ rest) : Covers spans i ↔ Covers rest i := by
  simp only [Covers, h]

/-! ### Merging -/

theorem covers_mergeFrom (hsorted : rest.Pairwise fun s t => s.1 ≤ t.1)
    (hlast : ∀ s ∈ rest, last.1 ≤ s.1) :
    Covers (mergeFrom last rest) i ↔ Covers (last :: rest) i := by
  induction rest generalizing last with
  | nil => rw [mergeFrom]
  | cons s rest ih =>
    obtain ⟨hs, hsorted⟩ := List.pairwise_cons.1 hsorted
    obtain ⟨hle, hlast⟩ := List.forall_mem_cons.1 hlast
    rw [mergeFrom]
    split_ifs with htouch
    · have hmerged := @ih (last.1, max last.2 s.2) hsorted hlast
      rw [hmerged]
      simp only [covers_cons, lt_max_iff]
      -- the gap between the two spans is empty, as the second starts within the first
      have hunion : last.1 ≤ i ∧ (i < last.2 ∨ i < s.2) ↔
          last.1 ≤ i ∧ i < last.2 ∨ s.1 ≤ i ∧ i < s.2 := by omega
      rw [hunion, or_assoc]
    · rw [covers_cons, ih hsorted hs, ← covers_cons]

/-- The merged spans start no earlier than the first span of the pass. -/
theorem le_of_mem_mergeFrom (hlast : ∀ s ∈ rest, last.1 ≤ s.1)
    (hsorted : rest.Pairwise fun s t => s.1 ≤ t.1) (h : s ∈ mergeFrom last rest) :
    last.1 ≤ s.1 := by
  induction rest generalizing last with
  | nil =>
    rw [mergeFrom, List.mem_singleton] at h
    rw [h]
  | cons t rest ih =>
    obtain ⟨ht, hsorted⟩ := List.pairwise_cons.1 hsorted
    obtain ⟨hle, hlast⟩ := List.forall_mem_cons.1 hlast
    rw [mergeFrom] at h
    split_ifs at h with htouch
    · exact @ih (last.1, max last.2 t.2) hlast hsorted h
    · rcases List.mem_cons.1 h with rfl | h
      · rfl
      · exact hle.trans (ih ht hsorted h)

/-- Each span of the pass lies in a merged one. -/
theorem exists_mem_mergeFrom (hlast : ∀ s ∈ rest, last.1 ≤ s.1)
    (hsorted : rest.Pairwise fun s t => s.1 ≤ t.1) (h : s ∈ last :: rest) :
    ∃ t ∈ mergeFrom last rest, t.1 ≤ s.1 ∧ s.2 ≤ t.2 := by
  induction rest generalizing last s with
  | nil =>
    obtain rfl := List.mem_singleton.1 h
    exact ⟨s, List.mem_singleton_self s, le_rfl, le_rfl⟩
  | cons t rest ih =>
    obtain ⟨ht, hsorted⟩ := List.pairwise_cons.1 hsorted
    obtain ⟨hle, hlast⟩ := List.forall_mem_cons.1 hlast
    rw [mergeFrom]
    split_ifs with htouch
    · -- the two spans in one hold the first and the second
      have hhead := @ih (last.1, max last.2 t.2) (last.1, max last.2 t.2) hlast hsorted
        List.mem_cons_self
      obtain ⟨m, hm, hstart, hend⟩ := hhead
      rcases List.mem_cons.1 h with rfl | h
      · exact ⟨m, hm, hstart, (le_max_left _ _).trans hend⟩
      · rcases List.mem_cons.1 h with rfl | h
        · exact ⟨m, hm, hstart.trans hle, (le_max_right _ _).trans hend⟩
        · exact ih hlast hsorted (List.mem_cons_of_mem _ h)
    · rcases List.mem_cons.1 h with rfl | h
      · exact ⟨s, List.mem_cons_self, le_rfl, le_rfl⟩
      · obtain ⟨m, hm, hspan⟩ := ih ht hsorted h
        exact ⟨m, List.mem_cons_of_mem _ hm, hspan⟩

theorem apart_mergeFrom (hlast : ∀ s ∈ rest, last.1 ≤ s.1)
    (hsorted : rest.Pairwise fun s t => s.1 ≤ t.1) : Apart (mergeFrom last rest) := by
  induction rest generalizing last with
  | nil => exact List.pairwise_singleton _ _
  | cons s rest ih =>
    obtain ⟨hs, hsorted⟩ := List.pairwise_cons.1 hsorted
    rw [mergeFrom]
    split_ifs with htouch
    · exact ih (List.forall_mem_cons.1 hlast).2 hsorted
    · refine List.pairwise_cons.2 ⟨fun t ht => ?_, ih hs hsorted⟩
      exact (not_le.1 htouch).trans_le (le_of_mem_mergeFrom hs hsorted ht)

theorem within_mergeFrom (h : Within n (last :: rest)) : Within n (mergeFrom last rest) := by
  induction rest generalizing last with
  | nil => exact h
  | cons s rest ih =>
    obtain ⟨hlast, h⟩ := List.forall_mem_cons.1 h
    obtain ⟨hs, hrest⟩ := List.forall_mem_cons.1 h
    rw [mergeFrom]
    split_ifs with htouch
    · refine ih (List.forall_mem_cons.2 ⟨?_, hrest⟩)
      exact ⟨lt_max_of_lt_left hlast.1, max_le hlast.2 hs.2⟩
    · exact List.forall_mem_cons.2 ⟨hlast, ih h⟩

theorem sorted_ranked (spans : List (ℕ × ℕ)) :
    (Ranking.ranked toLex spans).Pairwise fun s t => s.1 ≤ t.1 := by
  refine (Ranking.ranked_sorted spans).imp fun h => ?_
  rcases Prod.Lex.toLex_le_toLex.1 h with h | h
  · exact h.le
  · exact h.1.le

/-- **Merging keeps the positions that are covered.** -/
theorem covers_merge (spans : List (ℕ × ℕ)) : Covers (merge spans) i ↔ Covers spans i := by
  have hmem : Covers (Ranking.ranked toLex spans) i ↔ Covers spans i :=
    covers_congr fun s => Ranking.mem_ranked
  have hsorted := sorted_ranked spans
  rw [← hmem, merge]
  cases hranked : Ranking.ranked toLex spans with
  | nil => rfl
  | cons s rest =>
    rw [hranked] at hsorted
    obtain ⟨hs, hsorted⟩ := List.pairwise_cons.1 hsorted
    exact covers_mergeFrom hsorted hs

/-- **The merged spans stand in order and do not touch.** -/
theorem apart_merge (spans : List (ℕ × ℕ)) : Apart (merge spans) := by
  have hsorted := sorted_ranked spans
  rw [merge]
  cases hranked : Ranking.ranked toLex spans with
  | nil => exact List.Pairwise.nil
  | cons s rest =>
    rw [hranked] at hsorted
    obtain ⟨hs, hsorted⟩ := List.pairwise_cons.1 hsorted
    exact apart_mergeFrom hs hsorted

/-- **Each span lies in a merged one.** -/
theorem exists_mem_merge (h : s ∈ spans) : ∃ t ∈ merge spans, t.1 ≤ s.1 ∧ s.2 ≤ t.2 := by
  have hsorted := sorted_ranked spans
  have hmem : s ∈ Ranking.ranked toLex spans := Ranking.mem_ranked.2 h
  rw [merge]
  cases hranked : Ranking.ranked toLex spans with
  | nil => exact absurd (hranked ▸ hmem) List.not_mem_nil
  | cons t rest =>
    rw [hranked] at hsorted hmem
    obtain ⟨ht, hsorted⟩ := List.pairwise_cons.1 hsorted
    exact exists_mem_mergeFrom ht hsorted hmem

theorem within_merge (h : Within n spans) : Within n (merge spans) := by
  have hranked : Within n (Ranking.ranked toLex spans) := fun s hs => h s (Ranking.mem_ranked.1 hs)
  rw [merge]
  cases hspans : Ranking.ranked toLex spans with
  | nil => exact fun s hs => absurd hs List.not_mem_nil
  | cons s rest =>
    rw [hspans] at hranked
    exact within_mergeFrom hranked

/-! ### Replacing -/

variable {repl text : List α} {a : ℕ}

theorem replace_cons : replace repl text (s :: rest) =
    (replace repl text rest).take s.1 ++ repl ++ (replace repl text rest).drop s.2 := by
  rw [replace, List.reverse_cons, List.foldl_append]
  rfl

/-- Where no span starts and none covers, the text is kept. -/
theorem flatMap_leaves_of_free
    (h : ∀ i, a ≤ i → i < a + text.length → ¬Starts spans i ∧ ¬Covers spans i) :
    (text.zipIdx a).flatMap (leaves repl spans) = text := by
  induction text generalizing a with
  | nil => rfl
  | cons c text ih =>
    obtain ⟨hstarts, hcovers⟩ := h a le_rfl (by simp)
    rw [List.zipIdx_cons, List.flatMap_cons, leaves, if_neg hstarts, if_neg hcovers, ih]
    · rfl
    · intro i hle hlt
      exact h i (by omega) (by rw [List.length_cons]; omega)

/-- Where spans cover and none starts, nothing is left. -/
theorem flatMap_leaves_of_covered
    (h : ∀ i, a ≤ i → i < a + text.length → ¬Starts spans i ∧ Covers spans i) :
    (text.zipIdx a).flatMap (leaves repl spans) = [] := by
  induction text generalizing a with
  | nil => rfl
  | cons c text ih =>
    obtain ⟨hstarts, hcovers⟩ := h a le_rfl (by simp)
    rw [List.zipIdx_cons, List.flatMap_cons, leaves, if_neg hstarts, if_pos hcovers, ih]
    · rfl
    · intro i hle hlt
      exact h i (by omega) (by rw [List.length_cons]; omega)

theorem flatMap_leaves_congr (h : ∀ i, a ≤ i → (Starts spans i ↔ Starts rest i) ∧
    (Covers spans i ↔ Covers rest i)) :
    (text.zipIdx a).flatMap (leaves repl spans) = (text.zipIdx a).flatMap (leaves repl rest) := by
  induction text generalizing a with
  | nil => rfl
  | cons c text ih =>
    obtain ⟨hstarts, hcovers⟩ := h a le_rfl
    rw [List.zipIdx_cons, List.flatMap_cons, List.flatMap_cons, leaves, leaves,
      ih fun i hle => h i (by omega)]
    simp only [hstarts, hcovers]

/-- A text is cut in three at the two ends of a span. -/
theorem exists_cut (hs : s.1 < s.2 ∧ s.2 ≤ text.length) : ∃ x y z : List α,
    text = x ++ (y ++ z) ∧ x.length = s.1 ∧ y.length = s.2 - s.1 := by
  refine ⟨text.take s.1, (text.drop s.1).take (s.2 - s.1), (text.drop s.1).drop (s.2 - s.1),
    ?_, ?_, ?_⟩
  · rw [List.take_append_drop, List.take_append_drop]
  · rw [List.length_take]
    omega
  · rw [List.length_take, List.length_drop]
    omega

/-- No span of a list that stands apart starts or covers before the end of an earlier span. -/
theorem free_of_apart (hbefore : ∀ t ∈ rest, s.2 < t.1) (hi : i < s.2) :
    ¬Starts rest i ∧ ¬Covers rest i := by
  constructor
  · rintro ⟨t, ht, rfl⟩
    exact absurd (hbefore t ht) (by omega)
  · rintro ⟨t, ht, hle, -⟩
    have := hbefore t ht
    omega

/-- **Replacing merged spans from the right.**  The replacement stands where a span started, and
every character that no span covers is kept, in order. -/
theorem replace_eq (hwithin : Within text.length spans) (hapart : Apart spans) :
    replace repl text spans = replaced repl text spans := by
  induction spans with
  | nil => exact (flatMap_leaves_of_free fun i _ _ => by simp [Starts, Covers]).symm
  | cons s rest ih =>
    obtain ⟨hs, hwithin⟩ := List.forall_mem_cons.1 hwithin
    obtain ⟨hbefore, hapart⟩ := List.pairwise_cons.1 hapart
    have hfree : ∀ i < s.2, ¬Starts rest i ∧ ¬Covers rest i :=
      fun i hi => free_of_apart hbefore hi
    -- the text is cut at the two ends of the first span; the others lie in the last part
    obtain ⟨x, y, z, rfl, hx, hy⟩ := exists_cut hs
    have hxy : x.length + y.length = s.2 := by omega
    have hrest : replace repl (x ++ (y ++ z)) rest =
        x ++ (y ++ (z.zipIdx s.2).flatMap (leaves repl rest)) := by
      rw [ih hwithin hapart, replaced, List.zipIdx_append, List.zipIdx_append,
        List.flatMap_append, List.flatMap_append, flatMap_leaves_of_free, flatMap_leaves_of_free,
        zero_add, hxy]
      · intro i _ hlt
        exact hfree i (by omega)
      · intro i _ hlt
        exact hfree i (by omega)
    have htake : (replace repl (x ++ (y ++ z)) rest).take s.1 = x := by
      rw [hrest, ← hx, List.take_left]
    have hdrop : (replace repl (x ++ (y ++ z)) rest).drop s.2 =
        (z.zipIdx s.2).flatMap (leaves repl rest) := by
      rw [hrest, ← List.append_assoc, ← hxy, ← List.length_append, List.drop_left]
    have hfirst : (x.zipIdx 0).flatMap (leaves repl (s :: rest)) = x := by
      refine flatMap_leaves_of_free fun i _ hlt => ?_
      obtain ⟨hstarts, hcovers⟩ := hfree i (by omega)
      simp only [starts_cons, covers_cons, hstarts, hcovers, or_false]
      omega
    have hspan : (y.zipIdx s.1).flatMap (leaves repl (s :: rest)) = repl := by
      obtain ⟨c, y, rfl⟩ := List.exists_cons_of_length_pos (l := y) (by omega)
      rw [List.zipIdx_cons, List.flatMap_cons, leaves, if_pos (starts_cons.2 (Or.inl rfl)),
        flatMap_leaves_of_covered, List.append_nil]
      intro i hle hlt
      rw [List.length_cons] at hy
      obtain ⟨hstarts, hcovers⟩ := hfree i (by omega)
      simp only [starts_cons, covers_cons, hstarts, hcovers, or_false]
      omega
    have hlast : (z.zipIdx s.2).flatMap (leaves repl (s :: rest)) =
        (z.zipIdx s.2).flatMap (leaves repl rest) := by
      refine flatMap_leaves_congr fun i hle => ?_
      rw [starts_cons, covers_cons]
      exact ⟨or_iff_right (by omega), or_iff_right (by omega)⟩
    rw [replace_cons, htake, hdrop, replaced, List.zipIdx_append, List.zipIdx_append,
      List.flatMap_append, List.flatMap_append, zero_add, hxy, hx, hfirst, hspan, hlast,
      List.append_assoc]

end Spans

end Shiroe

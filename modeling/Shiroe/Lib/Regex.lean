import Mathlib.Data.List.TakeWhile
import Mathlib.Data.List.TakeDrop
import Mathlib.Data.Nat.Init

/-!
# Greedy patterns

A pattern is a row of parts: runs of characters, taken greedily, and looks, which take nothing and
ask about the character before and the text ahead.  `lengths` lists the lengths at which a pattern
matches at some place, the preferred one first, in the order in which a backtracking matcher tries
them; `finditer` scans a text from left to right and goes on after each match.

* `lengths_run_append` : a run takes all that it can, if what follows matches then;
* `finditer_sound` : each span found is the preferred match at its place;
* `finditer_complete` : a place where the pattern matches lies in a span found;
* `mem_finditer_of_alone` : a match after a character that no part takes is found as it is.
-/

namespace Shiroe

namespace Regex

variable {α : Type*}

/-- A part of a pattern. -/
inductive Item (α : Type*)
  /-- `(?:p{size}){lo,hi}`, taken greedily; without `hi` as often as there are characters. -/
  | run (size : ℕ) (p : α → Bool) (lo : ℕ) (hi : Option ℕ)
  /-- A condition on the character before and the text ahead. -/
  | look (q : Option α → List α → Bool)

/-- How often a run can be taken at most. -/
def most (size : ℕ) (p : α → Bool) (hi : Option ℕ) (l : List α) : ℕ :=
  hi.elim ((l.takeWhile p).length / size) (min ((l.takeWhile p).length / size))

/-- The character before what is left after the first `n` characters. -/
def lastOf (before : Option α) (taken : List α) : Option α := taken.getLast?.or before

/-- The lengths of the matches that start here, the preferred first. -/
def lengths : List (Item α) → Option α → List α → List ℕ
  | [], _, _ => [0]
  | .look q :: items, before, l => if q before l then lengths items before l else []
  | .run size p lo hi :: items, before, l =>
    (List.range' lo (most size p hi l + 1 - lo)).reverse.flatMap fun n =>
      (lengths items (lastOf before (l.take (n * size))) (l.drop (n * size))).map (n * size + ·)

/-- The length of the match that starts here. -/
def matchLength (items : List (Item α)) (before : Option α) (l : List α) : Option ℕ :=
  (lengths items before l).head?

/-- The matches of `find` from a position on; `skip` characters still belong to the last match.  A
match that is empty is passed over. -/
def scan (find : Option α → List α → Option ℕ) : ℕ → ℕ → Option α → List α → List (ℕ × ℕ)
  | _, _, _, [] => []
  | pos, skip + 1, _, c :: l => scan find (pos + 1) skip (some c) l
  | pos, 0, before, c :: l =>
    match find before (c :: l) with
    | some (n + 1) => (pos, pos + (n + 1)) :: scan find (pos + 1) n (some c) l
    | _ => scan find (pos + 1) 0 (some c) l

/-- The spans of the matches in a text, one after the other. -/
def finditer (items : List (Item α)) (text : List α) : List (ℕ × ℕ) :=
  scan (matchLength items) 0 0 none text

/-- The characters that a part may take. -/
def Item.takes : Item α → α → Prop
  | .run _ p _ _, c => p c = true
  | .look _, _ => False

variable {items : List (Item α)} {before : Option α} {l x y : List α} {n lo : ℕ} {hi : Option ℕ}
  {p : α → Bool} {q : Option α → List α → Bool} {size : ℕ}

@[simp] theorem lastOf_nil : lastOf before ([] : List α) = before := rfl

theorem lastOf_append : lastOf before (x ++ y) = lastOf (lastOf before x) y := by
  rw [lastOf, lastOf, lastOf, List.getLast?_append, Option.or_assoc]

theorem lastOf_cons {c : α} : lastOf before (c :: l) = lastOf (some c) l :=
  lastOf_append (x := [c])

/-! ### Where a pattern matches -/

theorem mem_lengths_run : n ∈ lengths (.run size p lo hi :: items) before l ↔
    ∃ k, lo ≤ k ∧ k ≤ most size p hi l ∧ ∃ m ∈ lengths items
      (lastOf before (l.take (k * size))) (l.drop (k * size)), n = k * size + m := by
  simp only [lengths, List.mem_flatMap, List.mem_reverse, List.mem_range'_1, List.mem_map]
  constructor
  · rintro ⟨k, ⟨hlo, hhi⟩, m, hm, rfl⟩
    exact ⟨k, hlo, by omega, m, hm, rfl⟩
  · rintro ⟨k, hlo, hhi, m, hm, rfl⟩
    exact ⟨k, ⟨hlo, by omega⟩, m, hm, rfl⟩

theorem mem_lengths_look : n ∈ lengths (.look q :: items) before l ↔
    q before l = true ∧ n ∈ lengths items before l := by
  rw [lengths]
  split_ifs with h <;> simp [h]

/-- The characters of a run that can be taken `k` times. -/
theorem takeWhile_of_le_most {k : ℕ} (h : k ≤ most size p hi l) :
    k * size ≤ (l.takeWhile p).length := by
  have hdiv : k ≤ (l.takeWhile p).length / size := by
    cases hi with
    | none => exact h
    | some b => exact h.trans (min_le_left _ _)
  exact (Nat.mul_le_mul_right size hdiv).trans (Nat.div_mul_le_self _ _)

theorem of_mem_take_takeWhile {c : α} (h : n ≤ (l.takeWhile p).length) (hc : c ∈ l.take n) :
    p c = true := by
  have htaken : l.take n = (l.takeWhile p).take n := by
    conv_lhs => rw [← List.takeWhile_append_dropWhile (p := p) (l := l),
      List.take_append_of_le_length h]
  rw [htaken] at hc
  exact List.mem_takeWhile_imp (List.mem_of_mem_take hc)

/-- A match lies within the text, and each of its characters is one that some part may take. -/
theorem of_mem_lengths (h : n ∈ lengths items before l) :
    n ≤ l.length ∧ ∀ c ∈ l.take n, ∃ i ∈ items, i.takes c := by
  induction items generalizing before l n with
  | nil =>
    rw [lengths, List.mem_singleton] at h
    subst h
    exact ⟨Nat.zero_le _, fun c hc => absurd hc (by simp)⟩
  | cons i items ih =>
    cases i with
    | look q =>
      obtain ⟨hle, hmem⟩ := ih (mem_lengths_look.1 h).2
      exact ⟨hle, fun c hc => (hmem c hc).imp fun _ hi => ⟨List.mem_cons_of_mem _ hi.1, hi.2⟩⟩
    | run size p lo hi =>
      obtain ⟨k, -, hk, m, hm, rfl⟩ := mem_lengths_run.1 h
      have hrun := takeWhile_of_le_most hk
      have hlen := (List.takeWhile_prefix (l := l) p).length_le
      obtain ⟨hle, hmem⟩ := ih hm
      rw [List.length_drop] at hle
      refine ⟨by omega, fun c hc => ?_⟩
      rw [List.take_add, List.mem_append] at hc
      rcases hc with hc | hc
      · exact ⟨_, List.mem_cons_self, of_mem_take_takeWhile hrun hc⟩
      · exact (hmem c hc).imp fun _ hi => ⟨List.mem_cons_of_mem _ hi.1, hi.2⟩

theorem mem_of_matchLength (h : matchLength items before l = some n) :
    n ∈ lengths items before l := List.mem_of_mem_head? h

/-- What a match of a nonempty list of lengths is. -/
theorem matchLength_isSome (h : n ∈ lengths items before l) :
    ∃ m, matchLength items before l = some m := by
  rw [matchLength]
  cases hlist : lengths items before l with
  | nil => simp [hlist] at h
  | cons m _ => exact ⟨m, rfl⟩

theorem matchLength_nil : matchLength [] before l = some 0 := rfl

theorem matchLength_look (h : q before l = true) :
    matchLength (.look q :: items) before l = matchLength items before l := by
  rw [matchLength, lengths, if_pos h, matchLength]

/-- A run that stops at the end of `x` can be taken as often as `x` has its characters. -/
theorem most_append {k : ℕ} (hsize : 0 < size) (hlen : x.length = k * size)
    (hall : ∀ c ∈ x, p c = true) (hstop : ∀ c ∈ y.head?, p c = false) (hhi : ∀ b ∈ hi, k ≤ b) :
    most size p hi (x ++ y) = k := by
  have hnone : y.takeWhile p = [] := by
    cases y with
    | nil => rfl
    | cons c y => rw [List.takeWhile_cons_of_neg (by simp [hstop c rfl])]
  have htake : ((x ++ y).takeWhile p).length / size = k := by
    rw [List.takeWhile_append_of_pos hall, hnone, List.append_nil, hlen, Nat.mul_div_cancel _ hsize]
  cases hi with
  | none => exact htake
  | some b => exact (congrArg (min · b) htake).trans (min_eq_left (hhi b rfl))

/-- **A run takes all that it can**, if what follows matches then. -/
theorem matchLength_run_append {k : ℕ} (hsize : 0 < size) (hlen : x.length = k * size)
    (hlo : lo ≤ k) (hall : ∀ c ∈ x, p c = true) (hstop : ∀ c ∈ y.head?, p c = false)
    (hhi : ∀ b ∈ hi, k ≤ b) (hrest : matchLength items (lastOf before x) y = some n) :
    matchLength (.run size p lo hi :: items) before (x ++ y) = some (x.length + n) := by
  have hcounts : (List.range' lo (k + 1 - lo)).reverse =
      k :: (List.range' lo (k - lo)).reverse := by
    rw [Nat.succ_sub hlo, List.range'_concat, List.reverse_append, List.reverse_singleton,
      Nat.one_mul, Nat.add_sub_cancel' hlo]
    rfl
  rw [matchLength, lengths, most_append hsize hlen hall hstop hhi, hcounts, List.flatMap_cons,
    ← hlen, List.take_left, List.drop_left]
  obtain ⟨rest, hlist⟩ := List.head?_eq_some_iff.1 hrest
  rw [hlist]
  rfl

/-! ### Scanning a text -/

variable {find : Option α → List α → Option ℕ} {pos skip : ℕ} {s : ℕ × ℕ}

/-- What `find` yields after the first `k` characters. -/
def FindsAt (find : Option α → List α → Option ℕ) (before : Option α) (l : List α) (k n : ℕ) :
    Prop := find (lastOf before (l.take k)) (l.drop k) = some n

theorem findsAt_succ {c : α} {k : ℕ} :
    FindsAt find before (c :: l) (k + 1) n ↔ FindsAt find (some c) l k n := by
  rw [FindsAt, List.take_succ_cons, List.drop_succ_cons, lastOf_cons, FindsAt]

theorem scan_sound (h : s ∈ scan find pos skip before l) :
    ∃ k n, s = (pos + k, pos + k + (n + 1)) ∧ k < l.length ∧ FindsAt find before l k (n + 1) := by
  induction l generalizing pos skip before with
  | nil => exact absurd h List.not_mem_nil
  | cons c l ih =>
    -- the spans found from the next character on
    have hnext : ∀ skip', s ∈ scan find (pos + 1) skip' (some c) l →
        ∃ k n, s = (pos + k, pos + k + (n + 1)) ∧ k < (c :: l).length ∧
          FindsAt find before (c :: l) k (n + 1) := by
      intro skip' h'
      obtain ⟨k, n, rfl, hk, hfind⟩ := ih h'
      refine ⟨k + 1, n, ?_, Nat.succ_lt_succ hk, findsAt_succ.2 hfind⟩
      rw [Nat.add_right_comm pos 1 k, Nat.add_assoc pos k 1]
    cases skip with
    | succ skip => exact hnext _ h
    | zero =>
      rw [scan] at h
      split at h
      · next n hfind =>
        rcases List.mem_cons.1 h with rfl | h
        · exact ⟨0, n, rfl, Nat.succ_pos _, hfind⟩
        · exact hnext _ h
      · exact hnext _ h

theorem scan_complete {k : ℕ} (hskip : skip ≤ k) (hk : k < l.length)
    (hfind : FindsAt find before l k (n + 1)) :
    ∃ s ∈ scan find pos skip before l, s.1 ≤ pos + k ∧ pos + k < s.2 := by
  induction l generalizing pos skip before k with
  | nil => exact absurd hk (Nat.not_lt_zero _)
  | cons c l ih =>
    -- a later place is found from the next character on
    have hnext : ∀ k', k = k' + 1 → ∀ skip' ≤ k',
        ∃ s ∈ scan find (pos + 1) skip' (some c) l, s.1 ≤ pos + k ∧ pos + k < s.2 := by
      rintro k' rfl skip' hle
      obtain ⟨s, hs, hstart, hend⟩ := @ih (some c) (pos + 1) skip' k' hle
        (Nat.lt_of_succ_lt_succ hk) (findsAt_succ.1 hfind)
      exact ⟨s, hs, by omega, by omega⟩
    cases skip with
    | succ skip =>
      obtain ⟨k, rfl⟩ := Nat.exists_eq_add_of_lt (Nat.lt_of_succ_le hskip)
      exact hnext (skip + k) (by omega) skip (by omega)
    | zero =>
      rw [scan]
      split
      · next m _ =>
        by_cases hin : k ≤ m
        · exact ⟨_, List.mem_cons_self, Nat.le_add_right _ _, by omega⟩
        · obtain ⟨s, hs, hspan⟩ := hnext (k - 1) (by omega) m (by omega)
          exact ⟨s, List.mem_cons_of_mem _ hs, hspan⟩
      · next hnone =>
        cases k with
        | zero => exact absurd hfind (hnone n)
        | succ k => exact hnext k rfl 0 (Nat.zero_le _)

/-- The place of a text at which a match of this length is preferred. -/
abbrev MatchesAt (items : List (Item α)) (text : List α) (k n : ℕ) : Prop :=
  FindsAt (matchLength items) none text k n

/-- **Each span found is the preferred match at its place.** -/
theorem finditer_sound {text : List α} (h : s ∈ finditer items text) :
    s.1 < s.2 ∧ s.2 ≤ text.length ∧ MatchesAt items text s.1 (s.2 - s.1) := by
  obtain ⟨k, n, rfl, hk, hfind⟩ := scan_sound h
  have hle := (of_mem_lengths (mem_of_matchLength hfind)).1
  rw [List.length_drop] at hle
  simp only [Nat.zero_add]
  refine ⟨by omega, by omega, ?_⟩
  rw [Nat.add_sub_cancel_left]
  exact hfind

/-- **A place where the pattern matches lies in a span found.** -/
theorem finditer_complete {text : List α} {k : ℕ} (h : MatchesAt items text k n) (hn : 0 < n) :
    ∃ s ∈ finditer items text, s.1 ≤ k ∧ k < s.2 := by
  obtain ⟨n, rfl⟩ := Nat.exists_eq_add_of_lt hn
  rw [Nat.zero_add] at h
  have hle := (of_mem_lengths (mem_of_matchLength h)).1
  rw [List.length_drop] at hle
  have hspan := @scan_complete _ _ _ n _ 0 0 k (Nat.zero_le _) (by omega) h
  rwa [Nat.zero_add] at hspan

/-- **A match that stands alone is found as it is**: no part of the pattern takes the character
before it. -/
theorem mem_finditer_of_alone {text : List α} {k : ℕ} (h : MatchesAt items text k n) (hn : 0 < n)
    (halone : ∀ c ∈ (text.take k).getLast?, ∀ i ∈ items, ¬i.takes c) :
    (k, k + n) ∈ finditer items text := by
  obtain ⟨s, hs, hstart, hend⟩ := finditer_complete h hn
  obtain ⟨-, hle, hfind⟩ := finditer_sound hs
  rcases hstart.eq_or_lt with heq | hlt
  · rw [heq] at hfind
    have hlength : s.2 - k = n := Option.some.inj (hfind.symm.trans h)
    rwa [← hlength, Nat.add_sub_cancel' hend.le, ← heq]
  · -- a span that starts earlier would hold the character before
    exfalso
    have hk : k - 1 < text.length := by omega
    have hlast : (text.take k).getLast? = some text[k - 1] := by
      rw [List.getLast?_eq_getElem?, List.length_take, min_eq_left (by omega),
        List.getElem?_take_of_lt (by omega), List.getElem?_eq_getElem hk]
    have hmem : text[k - 1] ∈ (text.drop s.1).take (s.2 - s.1) := by
      rw [List.mem_iff_getElem?]
      refine ⟨k - 1 - s.1, ?_⟩
      rw [List.getElem?_take_of_lt (by omega), List.getElem?_drop, Nat.add_sub_cancel' (by omega),
        List.getElem?_eq_getElem hk]
    obtain ⟨i, hi, htakes⟩ := (of_mem_lengths (mem_of_matchLength hfind)).2 _ hmem
    exact halone _ hlast i hi htakes

/-- A match of the middle of a text, after a character that no part takes. -/
theorem mem_finditer_middle (h : matchLength items (lastOf none x) (l ++ y) = some l.length)
    (hl : 0 < l.length) (halone : ∀ c ∈ x.getLast?, ∀ i ∈ items, ¬i.takes c) :
    (x.length, x.length + l.length) ∈ finditer items (x ++ (l ++ y)) := by
  refine mem_finditer_of_alone ?_ hl ?_
  · rw [MatchesAt, FindsAt, List.take_left, List.drop_left]
    exact h
  · rwa [List.take_left]

/-! ### Matches at a place of a text -/

variable {text : List α} {i m k : ℕ}

/-- A match of this length is possible at a place of the text. -/
def At (items : List (Item α)) (text : List α) (i n : ℕ) : Prop :=
  n ∈ lengths items (lastOf none (text.take i)) (text.drop i)

theorem at_nil : At [] text i n ↔ n = 0 := List.mem_singleton

theorem at_look : At (.look q :: items) text i n ↔
    q (lastOf none (text.take i)) (text.drop i) = true ∧ At items text i n := mem_lengths_look

/-- A run can be taken as often as there are characters for it. -/
theorem le_length_takeWhile_iff :
    k ≤ (l.takeWhile p).length ↔ ∀ x < k, l[x]?.any p = true := by
  induction l generalizing k with
  | nil =>
    constructor
    · intro h x hx
      exact absurd (hx.trans_le h) (Nat.not_lt_zero _)
    · intro h
      by_contra hlt
      exact absurd (h 0 (by rw [List.takeWhile_nil, List.length_nil] at hlt; omega)) (by simp)
  | cons c l ih =>
    cases k with
    | zero => exact ⟨fun _ _ hx => absurd hx (Nat.not_lt_zero _), fun _ => Nat.zero_le _⟩
    | succ k =>
      have hstep : (∀ x < k + 1, (c :: l)[x]?.any p = true) ↔
          p c = true ∧ ∀ x < k, l[x]?.any p = true := by
        constructor
        · intro h
          exact ⟨h 0 (Nat.succ_pos _), fun x hx => h (x + 1) (Nat.succ_lt_succ hx)⟩
        · rintro ⟨hc, h⟩ x hx
          cases x with
          | zero => exact hc
          | succ x => exact h x (Nat.lt_of_succ_lt_succ hx)
      rw [hstep, ← ih]
      by_cases hc : p c = true
      · rw [List.takeWhile_cons_of_pos hc, List.length_cons, Nat.add_le_add_iff_right,
          and_iff_right hc]
      · rw [List.takeWhile_cons_of_neg hc, List.length_nil]
        exact iff_of_false (Nat.not_succ_le_zero _) fun h => hc h.1

theorem le_most_iff : k ≤ most 1 p hi l ↔ (∀ x < k, l[x]?.any p = true) ∧ ∀ b ∈ hi, k ≤ b := by
  rw [← le_length_takeWhile_iff, most, Nat.div_one]
  cases hi with
  | none => simp
  | some b =>
    simp only [Option.elim_some, Nat.le_min, Option.mem_def, Option.some.injEq, forall_eq']

theorem at_run : At (.run 1 p lo hi :: items) text i n ↔ ∃ k m, n = k + m ∧ lo ≤ k ∧
    (∀ b ∈ hi, k ≤ b) ∧ (∀ x, i ≤ x → x < i + k → text[x]?.any p = true) ∧
      At items text (i + k) m := by
  have hplace : ∀ k, lastOf (lastOf none (text.take i)) ((text.drop i).take k) =
      lastOf none (text.take (i + k)) := by
    intro k
    rw [← lastOf_append, List.take_add]
  have hchars : ∀ k, (∀ x < k, (text.drop i)[x]?.any p = true) ↔
      ∀ x, i ≤ x → x < i + k → text[x]?.any p = true := by
    intro k
    constructor
    · intro h x hle hlt
      have hx := h (x - i) (by omega)
      rwa [List.getElem?_drop, Nat.add_sub_cancel' hle] at hx
    · intro h x hx
      rw [List.getElem?_drop]
      exact h (i + x) (Nat.le_add_right _ _) (by omega)
  rw [At, mem_lengths_run]
  constructor
  · rintro ⟨k, hlo, hk, m, hm, rfl⟩
    obtain ⟨hrun, hhi⟩ := le_most_iff.1 hk
    rw [Nat.mul_one, hplace, List.drop_drop] at hm
    exact ⟨k, m, by rw [Nat.mul_one], hlo, hhi, (hchars k).1 hrun, hm⟩
  · rintro ⟨k, m, rfl, hlo, hhi, hrun, hm⟩
    refine ⟨k, hlo, le_most_iff.2 ⟨(hchars k).2 hrun, hhi⟩, m, ?_, by rw [Nat.mul_one]⟩
    rw [Nat.mul_one, hplace, List.drop_drop]
    exact hm

/-- One character. -/
def literal [DecidableEq α] (c : α) : Item α := .run 1 (fun x => decide (x = c)) 1 (some 1)

/-- A fixed text is there, and what follows matches after it. -/
theorem at_literals [DecidableEq α] {start : List α} :
    At (start.map literal ++ items) text i n ↔ start <+: text.drop i ∧
      ∃ m, n = start.length + m ∧ At items text (i + start.length) m := by
  induction start generalizing i n with
  | nil => simp
  | cons c start ih =>
    have hone : ∀ k, 1 ≤ k → (∀ b ∈ some 1, k ≤ b) → k = 1 := fun k hlo hhi =>
      le_antisymm (hhi 1 rfl) hlo
    have hbegins : c :: start <+: text.drop i ↔
        text[i]? = some c ∧ start <+: text.drop (i + 1) := by
      rw [← List.head?_drop, ← List.tail_drop]
      cases text.drop i with
      | nil => simp
      | cons d rest => simp [List.cons_prefix_cons, eq_comm]
    have hchar : (∀ x, i ≤ x → x < i + 1 → text[x]?.any (fun x => decide (x = c)) = true) ↔
        text[i]? = some c := by
      constructor
      · intro h
        have hany := h i le_rfl (Nat.lt_succ_self i)
        cases htext : text[i]? with
        | none => rw [htext] at hany; exact absurd hany (by simp)
        | some d =>
          rw [htext] at hany
          exact congrArg some (of_decide_eq_true hany)
      · intro h x hle hlt
        obtain rfl : x = i := by omega
        simp [h]
    rw [List.map_cons, List.cons_append, literal, at_run, hbegins]
    constructor
    · rintro ⟨k, m, rfl, hlo, hhi, hrun, hm⟩
      obtain rfl := hone k hlo hhi
      obtain ⟨hstart, m, rfl, hm⟩ := ih.1 hm
      refine ⟨⟨hchar.1 hrun, hstart⟩, m, by rw [List.length_cons]; omega, ?_⟩
      rwa [List.length_cons, Nat.add_comm start.length, ← Nat.add_assoc]
    · rintro ⟨⟨hc, hstart⟩, m, rfl, hm⟩
      refine ⟨1, start.length + m, by rw [List.length_cons]; omega, le_rfl, by simp,
        hchar.2 hc, ih.2 ⟨hstart, m, rfl, ?_⟩⟩
      rwa [List.length_cons, Nat.add_comm start.length, ← Nat.add_assoc] at hm

/-! ### Patterns that prefer the longest match -/

/-- The longer of two matches is preferred. -/
def Greedy (items : List (Item α)) : Prop :=
  ∀ before l, (lengths items before l).Pairwise fun m n => n ≤ m

theorem greedy_nil : Greedy ([] : List (Item α)) := fun _ _ => List.pairwise_singleton _ _

theorem Greedy.look (h : Greedy items) : Greedy (.look q :: items) := by
  intro before l
  rw [lengths]
  split_ifs
  · exact h before l
  · exact List.Pairwise.nil

theorem pairwise_counts {a b : ℕ} : (List.range' a b).reverse.Pairwise fun m n => n < m :=
  List.pairwise_reverse.2 (List.pairwise_lt_range' ..)

/-- A run followed by looks alone. -/
theorem Greedy.run (h : Greedy items) (hzero : ∀ before l, ∀ n ∈ lengths items before l, n = 0) :
    Greedy (.run size p lo hi :: items) := by
  intro before l
  rw [lengths, List.pairwise_flatMap]
  refine ⟨fun n _ => List.pairwise_map.2 ((h _ _).imp fun hle => Nat.add_le_add_left hle _), ?_⟩
  refine pairwise_counts.imp fun {m n} hlt => ?_
  intro x hx y hy
  obtain ⟨x', hx', rfl⟩ := List.mem_map.1 hx
  obtain ⟨y', hy', rfl⟩ := List.mem_map.1 hy
  rw [hzero _ _ x' hx', hzero _ _ y' hy']
  exact Nat.mul_le_mul_right size hlt.le

theorem Greedy.literal [DecidableEq α] (h : Greedy items) (c : α) :
    Greedy (literal c :: items) := by
  intro before l
  rw [Regex.literal, lengths, List.pairwise_flatMap]
  refine ⟨fun n _ => List.pairwise_map.2 ((h _ _).imp fun hle => Nat.add_le_add_left hle _), ?_⟩
  refine pairwise_counts.imp_of_mem fun {m n} hm hn hlt => ?_
  -- the run is taken once, so that there are no two counts
  have hmost : most 1 (fun x => decide (x = c)) (some 1) l ≤ 1 := min_le_right _ _
  rw [List.mem_reverse, List.mem_range'_1] at hm hn
  omega

theorem Greedy.literals [DecidableEq α] (h : Greedy items) (start : List α) :
    Greedy (start.map Regex.literal ++ items) := by
  induction start with
  | nil => exact h
  | cons c start ih => exact ih.literal c

/-- The match found at a place is the longest that is possible there. -/
theorem Greedy.le_of_at (h : Greedy items) (hmatch : MatchesAt items text i m)
    (hat : At items text i n) : n ≤ m := by
  obtain ⟨rest, hlist⟩ := List.head?_eq_some_iff.1 hmatch
  have hsorted := h (lastOf none (text.take i)) (text.drop i)
  rw [At, hlist] at hat
  rw [hlist] at hsorted
  rcases List.mem_cons.1 hat with rfl | hat
  · exact le_rfl
  · exact (List.pairwise_cons.1 hsorted).1 n hat

end Regex

end Shiroe

import Mathlib.Order.Lattice.Nat
import Shiroe.Privacy.Providers

/-!
# Provider tokens that white space splits

`_scan_whitespace_collapsed` takes all white space out of a text and looks for provider tokens in
what is left.  A token that white space split is one stretch there; but so may be a token together
with the prose after it, and a word before it may take away the boundary that the pattern asks for.

* `covers_iff` : the scan covers the stretches of the tokens that are split;
* `scanWhitespaceCollapsed_iff` : when the scan covers a split token and nothing around it;
* `scanWhitespaceCollapsed_bleeds` : a word after the token is covered with it.
-/

namespace Shiroe

open Regex Spans

/-- The text without its white space. -/
def squeeze (text : List Char) : List Char := text.filter fun c => !isSpace c

variable (W : WordChars)

/-- `_scan_whitespace_collapsed`. -/
def scanWhitespaceCollapsed (text : List Char) : List (ℕ × ℕ) :=
  collapsedPatternSpans (fun _ _ => true) text (wsScanProviders.map (Provider.pattern W))

/-- The character at `k` of the squeezed text is the one at position `i`. -/
abbrev SqueezedFrom (text : List Char) (k i : ℕ) : Prop := ComesFrom (fun _ _ => true) text k i

/-- The stretch from `i` to `j` of the squeezed text reaches from `first` to `last`, and there is
white space in between. -/
structure SplitStretch (text : List Char) (i j first last : ℕ) : Prop where
  from_first : SqueezedFrom text i first
  from_last : SqueezedFrom text (j - 1) last
  space : ∃ k, first ≤ k ∧ k ≤ last ∧ spaceAt text k = true

/-- The stretch from `i` to `j` of the squeezed text is a token, and white space splits it. -/
def SplitToken (σ : Provider) (text : List Char) (i j : ℕ) : Prop :=
  σ.Token W (squeeze text) i j ∧ ∃ first last, SplitStretch text i j first last

variable {W} {σ τ : Provider} {text : List Char} {i j k n first last : ℕ}

/-! ### Positions of the squeezed text -/

theorem collapsed_eq_squeeze : collapsed (fun _ _ => true) text = squeeze text := by
  rw [collapsed, collapsedView, squeeze]
  simp only [Bool.and_true]
  have hzip : ∀ (l : List Char) (n : ℕ),
      ((l.zipIdx n).filter fun p => !isSpace p.1).map Prod.fst = l.filter fun c => !isSpace c := by
    intro l
    induction l with
    | nil => exact fun _ => rfl
    | cons c l ih =>
      intro n
      rw [List.zipIdx_cons, List.filter_cons, List.filter_cons]
      split_ifs
      · rw [List.map_cons, ih]
      · exact ih _
  exact hzip text 0

theorem squeeze_append (x y : List Char) : squeeze (x ++ y) = squeeze x ++ squeeze y :=
  List.filter_append ..

theorem length_squeeze_take_succ (h : i < text.length) :
    (squeeze (text.take (i + 1))).length =
      (squeeze (text.take i)).length + if spaceAt text i = true then 0 else 1 := by
  have hspace : spaceAt text i = isSpace text[i] := by
    rw [spaceAt, List.getElem?_eq_getElem h, Option.any_some]
  rw [List.take_succ_eq_append_getElem h, squeeze_append, List.length_append, hspace]
  cases hc : isSpace text[i] <;> simp [squeeze, hc]

theorem length_squeeze_take_le (h : i ≤ j) :
    (squeeze (text.take i)).length ≤ (squeeze (text.take j)).length := by
  have hsub : (text.take i).Sublist (text.take j) := by
    rw [← min_eq_left h, ← List.take_take]
    exact List.take_sublist _ _
  exact (hsub.filter _).length_le

/-- A position of the squeezed text comes from a character that is no white space and has as many of
these before it. -/
theorem squeezedFrom_iff : SqueezedFrom text k i ↔
    i < text.length ∧ spaceAt text i = false ∧ (squeeze (text.take i)).length = k := by
  have hcount : ∀ i, i ≤ text.length →
      ((List.range i).filter fun j => ¬Dropped (fun _ _ => true) text j).length =
        (squeeze (text.take i)).length := by
    intro i
    induction i with
    | zero => exact fun _ => rfl
    | succ i ih =>
      intro h
      rw [List.range_succ, List.filter_append, List.length_append, ih (Nat.le_of_succ_le h),
        length_squeeze_take_succ (Nat.lt_of_succ_le h)]
      cases hs : spaceAt text i <;> simp [Dropped, hs]
  rw [SqueezedFrom, ComesFrom]
  refine and_congr_right fun h => ?_
  rw [hcount i h.le, Dropped, and_iff_left rfl, Bool.not_eq_true]

theorem SqueezedFrom.spaceAt (h : SqueezedFrom text k i) : spaceAt text i = false :=
  (squeezedFrom_iff.1 h).2.1

theorem SqueezedFrom.mono {k' i' : ℕ} (h : SqueezedFrom text k i) (h' : SqueezedFrom text k' i')
    (hle : k ≤ k') : i ≤ i' :=
  (origin_iff.2 h).mono (origin_iff.2 h') hle

/-- A character stands in a beginning of the text exactly if its position stands in what is left of
the beginning. -/
theorem SqueezedFrom.lt_iff (h : SqueezedFrom text k i) :
    k < (squeeze (text.take n)).length ↔ i < n := by
  obtain ⟨hlt, hspace, hk⟩ := squeezedFrom_iff.1 h
  constructor
  · intro hlength
    by_contra hle
    have := @length_squeeze_take_le text n i (not_lt.1 hle)
    omega
  · intro hn
    have hle := @length_squeeze_take_le text (i + 1) n hn
    rw [length_squeeze_take_succ hlt, hspace, hk] at hle
    exact Nat.lt_of_succ_le hle

theorem exists_squeezedFrom (h : k < (squeeze text).length) : ∃ i, SqueezedFrom text k i :=
  exists_comesFrom (by rwa [collapsed_eq_squeeze])

/-- A stretch that holds a split one is split as well. -/
theorem SplitStretch.widen {i' j' : ℕ} (h : SplitStretch text i j first last) (hi : i' ≤ i)
    (hj : j ≤ j') (hlast : j' ≤ (squeeze text).length) (hij : i < j) :
    ∃ first' last', SplitStretch text i' j' first' last' ∧ first' ≤ first ∧ last ≤ last' := by
  obtain ⟨first', hfirst'⟩ := @exists_squeezedFrom text i' (by omega)
  obtain ⟨last', hlast'⟩ := @exists_squeezedFrom text (j' - 1) (by omega)
  have hle := hfirst'.mono h.from_first hi
  have hle' := h.from_last.mono hlast' (by omega)
  obtain ⟨k, hk, hk', hspace⟩ := h.space
  exact ⟨first', last', ⟨hfirst', hlast', k, hle.trans hk, hk'.trans hle', hspace⟩, hle, hle'⟩

/-- **The scan covers the stretches of the tokens that are split.** -/
theorem covers_iff : Covers (scanWhitespaceCollapsed W text) k ↔
    ∃ σ ∈ wsScanProviders, ∃ i j first last, σ.Token W (squeeze text) i j ∧
      SplitStretch text i j first last ∧ first ≤ k ∧ k ≤ last := by
  rw [scanWhitespaceCollapsed, (collapsedPatternSpans_spec _ _ _).1, collapsed_eq_squeeze]
  constructor
  · rintro ⟨p, hp, m, hm, -, first, last, hfirst, hlast, hspace, hk⟩
    obtain ⟨σ, hσ, rfl⟩ := List.mem_map.1 hp
    exact ⟨σ, hσ, m.1, m.2, first, last, Provider.token_of_match hm, ⟨hfirst, hlast, hspace⟩, hk⟩
  · rintro ⟨σ, hσ, i, j, first, last, htoken, hstretch, hk, hk'⟩
    obtain ⟨m, hm, hi, hj⟩ := htoken.exists_match hσ
    have hlength := ((σ.pattern W).within _ m hm).2
    have hij := htoken.lt (least_pos hσ)
    obtain ⟨first', last', hwide, hle, hle'⟩ := hstretch.widen hi hj hlength hij
    exact ⟨_, List.mem_map_of_mem hσ, m, hm, (hi.trans_lt hij).trans_le hj, first', last',
      hwide.from_first, hwide.from_last, hwide.space, hle.trans hk, hk'.trans hle'⟩

/-! ### A token among other text -/

/-- `t'` is `t` with white space between its characters. -/
structure Spaced (t t' : List Char) : Prop where
  squeeze_eq : squeeze t' = t
  head : t'.head? = t.head?
  last : t'.getLast? = t.getLast?
  space : ∃ c ∈ t', isSpace c = true

variable {u t t' v : List Char}

theorem isSpace_of_mem_squeeze {c : Char} (h : c ∈ squeeze text) : isSpace c = false := by
  simpa using (List.mem_filter.1 h).2

theorem Spaced.squeeze_context (h : Spaced t t') :
    squeeze (u ++ (t' ++ v)) = squeeze u ++ (t ++ squeeze v) := by
  rw [squeeze_append, squeeze_append, h.squeeze_eq]

theorem SqueezedFrom.before_iff (h : SqueezedFrom (u ++ (t' ++ v)) k i) :
    k < (squeeze u).length ↔ i < u.length := by
  have hlt := h.lt_iff (n := u.length)
  rwa [List.take_left] at hlt

theorem Spaced.squeeze_through (h : Spaced t t') :
    (squeeze ((u ++ (t' ++ v)).take (u.length + t'.length))).length =
      (squeeze u).length + t.length := by
  rw [← List.append_assoc, ← List.length_append, List.take_left, squeeze_append, h.squeeze_eq,
    List.length_append]

theorem SqueezedFrom.through_iff (hspaced : Spaced t t') (h : SqueezedFrom (u ++ (t' ++ v)) k i) :
    k < (squeeze u).length + t.length ↔ i < u.length + t'.length := by
  have hlt := h.lt_iff (n := u.length + t'.length)
  rwa [hspaced.squeeze_through] at hlt

theorem Spaced.ne_nil (h : Spaced t t') : t' ≠ [] := by
  obtain ⟨c, hc, -⟩ := h.space
  exact List.ne_nil_of_mem hc

/-- The first character of the token. -/
theorem Spaced.from_head (h : Spaced t t') (ht : t ≠ []) :
    SqueezedFrom (u ++ (t' ++ v)) (squeeze u).length u.length := by
  have hpos := List.length_pos_of_ne_nil h.ne_nil
  refine squeezedFrom_iff.2 ⟨by simp only [List.length_append]; omega, ?_, by rw [List.take_left]⟩
  obtain ⟨c, hc⟩ : ∃ c, t.head? = some c := ⟨_, List.head?_eq_some_head ht⟩
  have hchar : (u ++ (t' ++ v))[u.length]? = some c := by
    have hmiddle := @getElem?_middle u t' v 0 hpos
    rw [Nat.add_zero, ← List.head?_eq_getElem?, h.head, hc] at hmiddle
    exact hmiddle
  rw [spaceAt, hchar, Option.any_some]
  exact isSpace_of_mem_squeeze (h.squeeze_eq ▸ List.mem_of_head? hc)

/-- The last character of the token. -/
theorem Spaced.from_last (h : Spaced t t') (ht : t ≠ []) :
    SqueezedFrom (u ++ (t' ++ v)) ((squeeze u).length + t.length - 1)
      (u.length + t'.length - 1) := by
  have hpos := List.length_pos_of_ne_nil h.ne_nil
  have hlt : u.length + t'.length - 1 < (u ++ (t' ++ v)).length := by
    simp only [List.length_append]
    omega
  obtain ⟨c, hc⟩ : ∃ c, t.getLast? = some c := ⟨_, List.getLast?_eq_some_getLast ht⟩
  have hspace : spaceAt (u ++ (t' ++ v)) (u.length + t'.length - 1) = false := by
    have hmiddle := @getElem?_middle u t' v (t'.length - 1) (by omega)
    rw [← List.getLast?_eq_getElem?, h.last, hc, ← Nat.add_sub_assoc hpos] at hmiddle
    rw [spaceAt, hmiddle, Option.any_some]
    exact isSpace_of_mem_squeeze (h.squeeze_eq ▸ List.mem_of_getLast? hc)
  refine squeezedFrom_iff.2 ⟨hlt, hspace, ?_⟩
  have hcount := length_squeeze_take_succ hlt
  rw [Nat.sub_add_cancel (by omega), h.squeeze_through, hspace, if_neg (by decide)] at hcount
  omega

/-- The stretch of the token. -/
theorem Spaced.stretch (h : Spaced t t') (ht : t ≠ []) :
    SplitStretch (u ++ (t' ++ v)) (squeeze u).length ((squeeze u).length + t.length) u.length
      (u.length + t'.length - 1) := by
  obtain ⟨c, hc, hspace⟩ := h.space
  obtain ⟨k, hk⟩ := List.mem_iff_getElem?.1 hc
  have hklt := (List.getElem?_eq_some_iff.1 hk).1
  refine ⟨h.from_head ht, h.from_last ht, u.length + k, Nat.le_add_right _ _, by omega, ?_⟩
  rw [spaceAt, getElem?_middle hklt, hk, Option.any_some, hspace]

/-! ### What is covered -/

variable (W u t t' v)

/-- Each character of the token is covered. -/
def CoversToken : Prop := ∀ k, u.length ≤ k → k < u.length + t'.length →
  Covers (scanWhitespaceCollapsed W (u ++ (t' ++ v))) k

/-- No character of the text around the token is covered, but white space. -/
def SparesContext : Prop := ∀ k, k < u.length ∨ u.length + t'.length ≤ k →
  k < (u ++ (t' ++ v)).length → spaceAt (u ++ (t' ++ v)) k = false →
    ¬Covers (scanWhitespaceCollapsed W (u ++ (t' ++ v))) k

/-- No token that white space splits reaches beyond `t'` in the squeezed text. -/
def NoTokenBeyond : Prop := ∀ σ ∈ wsScanProviders, ∀ i j, SplitToken W σ (u ++ (t' ++ v)) i j →
  (squeeze u).length ≤ i ∧ j ≤ (squeeze u).length + t.length

/-- A token that begins with `t` and one that ends with it, both split by white space, leave no gap
between them. -/
def ClosedByTail (σ : Provider) : Prop := ∃ τ ∈ wsScanProviders, ∃ x e p q,
  SplitToken W σ (u ++ (t' ++ v)) (squeeze u).length e ∧
  SplitToken W τ (u ++ (t' ++ v)) x ((squeeze u).length + t.length) ∧
  SqueezedFrom (u ++ (t' ++ v)) (e - 1) p ∧ SqueezedFrom (u ++ (t' ++ v)) x q ∧ q ≤ p + 1

variable {W u t t' v}

theorem sparesContext_iff (hspaced : Spaced t t') :
    SparesContext W u t' v ↔ NoTokenBeyond W u t t' v := by
  constructor
  · rintro h σ hσ i j ⟨htoken, first, last, hstretch⟩
    have hij := htoken.lt (least_pos hσ)
    have hle := hstretch.from_first.mono hstretch.from_last (by omega)
    have hcovers : ∀ k, first ≤ k → k ≤ last →
        Covers (scanWhitespaceCollapsed W (u ++ (t' ++ v))) k := fun k hk hk' =>
      covers_iff.2 ⟨σ, hσ, i, j, first, last, htoken, hstretch, hk, hk'⟩
    constructor
    · by_contra hlt
      have hbefore := hstretch.from_first.before_iff.1 (not_le.1 hlt)
      exact h first (.inl hbefore) (squeezedFrom_iff.1 hstretch.from_first).1
        hstretch.from_first.spaceAt (hcovers first le_rfl hle)
    · by_contra hlt
      have hafter := mt (hstretch.from_last.through_iff hspaced).2 (by omega)
      exact h last (.inr (not_lt.1 hafter)) (squeezedFrom_iff.1 hstretch.from_last).1
        hstretch.from_last.spaceAt (hcovers last hle le_rfl)
  · intro h k hk _ _ hcovers
    obtain ⟨σ, hσ, i, j, first, last, htoken, hstretch, hfirst, hlast⟩ := covers_iff.1 hcovers
    obtain ⟨hi, hj⟩ := h σ hσ i j ⟨htoken, first, last, hstretch⟩
    have hij := htoken.lt (least_pos hσ)
    have hfrom := mt hstretch.from_first.before_iff.2 (not_lt.2 hi)
    have hthrough := (hstretch.from_last.through_iff hspaced).1 (by omega)
    omega

theorem SqueezedFrom.unique {i' : ℕ} (h : SqueezedFrom text k i) (h' : SqueezedFrom text k i') :
    i = i' := le_antisymm (h.mono h' le_rfl) (h'.mono h le_rfl)

theorem SqueezedFrom.inj {k' : ℕ} (h : SqueezedFrom text k i) (h' : SqueezedFrom text k' i) :
    k = k' := (squeezedFrom_iff.1 h).2.2.symm.trans (squeezedFrom_iff.1 h').2.2

theorem SplitToken.lt (hσ : σ ∈ wsScanProviders) (h : SplitToken W σ text i j) : i < j :=
  h.1.lt (least_pos hσ)

/-- A longer token is split as well. -/
theorem SplitToken.extend {j' : ℕ} (hσ : σ ∈ wsScanProviders) (hτ : τ ∈ wsScanProviders)
    (h : SplitToken W σ text i j) (hj : j ≤ j') (htoken : τ.Token W (squeeze text) i j') :
    SplitToken W τ text i j' := by
  obtain ⟨first, last, hstretch⟩ := h.2
  obtain ⟨first', last', hwide, -, -⟩ := hstretch.widen le_rfl hj
    (htoken.le_length (least_pos hτ)) (h.lt hσ)
  exact ⟨htoken, first', last', hwide⟩

/-- Two tokens that leave no gap cover all of `t'`. -/
theorem ClosedByTail.coversToken (hσ : σ ∈ wsScanProviders) (hspaced : Spaced t t') (ht : t ≠ [])
    (h : ClosedByTail W u t t' v σ) : CoversToken W u t' v := by
  obtain ⟨τ, hτ, x, e, p, q, ⟨hhead, first, last, hstretch⟩, ⟨htail, first', last', hstretch'⟩, hp,
    hq, hgap⟩ := h
  obtain rfl := hstretch.from_first.unique (hspaced.from_head ht)
  obtain rfl := hstretch.from_last.unique hp
  obtain rfl := hstretch'.from_first.unique hq
  obtain rfl := hstretch'.from_last.unique (hspaced.from_last ht)
  intro k hk hk'
  by_cases hfirst : k ≤ last
  · exact covers_iff.2 ⟨σ, hσ, _, _, _, _, hhead, hstretch, hk, hfirst⟩
  · exact covers_iff.2 ⟨τ, hτ, _, _, _, _, htail, hstretch', by omega, by omega⟩

/-- Between characters that are no word characters the token stays one. -/
theorem token_of_edges (hσ : σ ∈ wsScanProviders) (hspaced : Spaced t t')
    (ht : σ.Token W t 0 t.length)
    (hedges : σ.bounded = true → (squeeze u).getLast?.any W.isWord = false ∧
      (squeeze v).head?.any W.isWord = false) :
    SplitToken W σ (u ++ (t' ++ v)) (squeeze u).length ((squeeze u).length + t.length) := by
  have hleast := ht.least
  have hne : t ≠ [] := List.ne_nil_of_length_pos (ht.lt (least_pos hσ))
  refine ⟨?_, _, _, hspaced.stretch hne⟩
  rw [hspaced.squeeze_context]
  refine ht.middle hσ (by omega) le_rfl fun hb => ?_
  obtain ⟨hfirst, hlast⟩ := ht.word_ends hb
  exact ⟨(boundary_left hfirst).2 (hedges hb).1, (boundary_right hlast).2 (hedges hb).2⟩

/-- The token that covers the first character begins with it. -/
theorem exists_first_token (hσ : σ ∈ wsScanProviders) (hspaced : Spaced t t')
    (ht : σ.Token W t 0 t.length) (hcovers : CoversToken W u t' v)
    (hno : NoTokenBeyond W u t t' v) :
    ∃ e, SplitToken W σ (u ++ (t' ++ v)) (squeeze u).length e := by
  have hne : t ≠ [] := List.ne_nil_of_length_pos (ht.lt (least_pos hσ))
  have hpos := List.length_pos_of_ne_nil hspaced.ne_nil
  obtain ⟨τ, hτ, i, j, first, last, htoken, hstretch, hle, -⟩ :=
    covers_iff.1 (hcovers u.length le_rfl (by omega))
  obtain ⟨hi, -⟩ := hno τ hτ i j ⟨htoken, first, last, hstretch⟩
  have hstart := (hspaced.from_head (u := u) (v := v) hne).mono hstretch.from_first hi
  obtain rfl : first = u.length := le_antisymm hle hstart
  obtain rfl := hstretch.from_first.inj (hspaced.from_head hne)
  have hbegins : τ.Begins (t ++ squeeze v) := by
    have hbegins := htoken.begins
    rwa [hspaced.squeeze_context, List.drop_left] at hbegins
  obtain rfl := hbegins.unique hτ hσ (ht.begins_middle hσ)
  exact ⟨j, htoken, _, last, hstretch⟩

/-- The token that covers the last character ends with it. -/
theorem exists_last_token (hspaced : Spaced t t') (ht : t ≠ []) (hcovers : CoversToken W u t' v)
    (hno : NoTokenBeyond W u t t' v) :
    ∃ τ ∈ wsScanProviders, ∃ x,
      SplitToken W τ (u ++ (t' ++ v)) x ((squeeze u).length + t.length) := by
  have hpos := List.length_pos_of_ne_nil hspaced.ne_nil
  have htpos := List.length_pos_of_ne_nil ht
  obtain ⟨τ, hτ, i, j, first, last, htoken, hstretch, -, hle⟩ :=
    covers_iff.1 (hcovers (u.length + t'.length - 1) (by omega) (by omega))
  obtain ⟨-, hj⟩ := hno τ hτ i j ⟨htoken, first, last, hstretch⟩
  have hij := htoken.lt (least_pos hτ)
  have hend := hstretch.from_last.mono (hspaced.from_last ht) (by omega)
  obtain rfl : last = u.length + t'.length - 1 := le_antisymm hend hle
  have hsame := hstretch.from_last.inj (hspaced.from_last ht)
  obtain rfl : j = (squeeze u).length + t.length := by omega
  exact ⟨τ, hτ, i, htoken, first, _, hstretch⟩

/-- **Two tokens cover what is covered**: the longest one that begins with the first character, and
the first one that ends with the last. -/
theorem closedByTail_of_covers (hσ : σ ∈ wsScanProviders) (hspaced : Spaced t t')
    (ht : σ.Token W t 0 t.length) (hcovers : CoversToken W u t' v)
    (hno : NoTokenBeyond W u t t' v) : ClosedByTail W u t t' v σ := by
  have hne : t ≠ [] := List.ne_nil_of_length_pos (ht.lt (least_pos hσ))
  -- the longest token that begins with the first character
  have hbdd : BddAbove {e | SplitToken W σ (u ++ (t' ++ v)) (squeeze u).length e} :=
    ⟨(squeeze u).length + t.length, fun e he => (hno σ hσ _ e he).2⟩
  obtain ⟨e, he, hlongest⟩ : ∃ e, SplitToken W σ (u ++ (t' ++ v)) (squeeze u).length e ∧
      ∀ e', SplitToken W σ (u ++ (t' ++ v)) (squeeze u).length e' → e' ≤ e :=
    ⟨_, Nat.sSup_mem (exists_first_token hσ hspaced ht hcovers hno) hbdd,
      fun _ he' => le_csSup hbdd he'⟩
  -- the first token that ends with the last character
  classical
  have hlast : ∃ x, ∃ τ ∈ wsScanProviders,
      SplitToken W τ (u ++ (t' ++ v)) x ((squeeze u).length + t.length) := by
    obtain ⟨τ, hτ, x, hx⟩ := exists_last_token hspaced hne hcovers hno
    exact ⟨x, τ, hτ, hx⟩
  obtain ⟨x, ⟨τ, hτ, hx⟩, hearliest⟩ : ∃ x, (∃ τ ∈ wsScanProviders,
      SplitToken W τ (u ++ (t' ++ v)) x ((squeeze u).length + t.length)) ∧
      ∀ x', (∃ τ ∈ wsScanProviders, SplitToken W τ (u ++ (t' ++ v)) x'
        ((squeeze u).length + t.length)) → x ≤ x' :=
    ⟨_, Nat.find_spec hlast, fun _ hx' => Nat.find_min' hlast hx'⟩
  obtain ⟨htoken, first, p, hstretch⟩ := id he
  obtain ⟨htail, q, last, hstretch'⟩ := id hx
  refine ⟨τ, hτ, x, e, p, q, he, hx, hstretch.from_last, hstretch'.from_first, ?_⟩
  by_contra hgap
  -- the gap between the two is covered by a third token, which cannot end with the last character
  have hae := he.lt hσ
  have hfirst := (hspaced.from_head hne).mono hstretch.from_last (by omega)
  have hq := (hstretch'.from_first.through_iff hspaced).1 (hx.lt hτ)
  obtain ⟨ω, hω, y, z, start, stop, hmid, hspan, hle, hle'⟩ :=
    covers_iff.1 (hcovers (p + 1) (by omega) (by omega))
  obtain ⟨-, hz⟩ := hno ω hω y z ⟨hmid, start, stop, hspan⟩
  have hze : e < z := by
    by_contra hlt
    have hmono := hspan.from_last.mono hstretch.from_last (by omega)
    omega
  have hnot : ¬ω.Token W (squeeze (u ++ (t' ++ v))) y ((squeeze u).length + t.length) := by
    intro hlong
    have hsplit : SplitToken W ω (u ++ (t' ++ v)) y z := ⟨hmid, start, stop, hspan⟩
    have hxy := hearliest y ⟨ω, hω, hsplit.extend hω hω hz hlong⟩
    have hmono := hstretch'.from_first.mono hspan.from_first hxy
    omega
  have hleast := htoken.least
  have hbody : ∀ k, z ≤ k → k < (squeeze u).length + t.length →
      (squeeze (u ++ (t' ++ v)))[k]?.any σ.isBody = true := by
    intro k hk hkt
    obtain ⟨k, rfl⟩ := Nat.exists_eq_add_of_le (show (squeeze u).length ≤ k by omega)
    rw [hspaced.squeeze_context, getElem?_middle (by omega)]
    exact ht.body k (by omega) (by omega)
  -- so there is a boundary after the gap, up to which the first token would go on
  obtain ⟨z', hz', hlt, hboundary⟩ := hmid.exists_boundary hσ hω hz hbody hnot
  have hlong : σ.Token W (squeeze (u ++ (t' ++ v))) (squeeze u).length z' := by
    have hbounds := fun hb => (htoken.bounds hb).1
    rw [hspaced.squeeze_context] at hboundary hbounds ⊢
    exact ht.middle hσ (by omega) hlt.le fun hb => ⟨hbounds hb, hboundary⟩
  have hshort := hlongest z' (he.extend hσ hσ (by omega) hlong)
  omega

/-- **When a split token is covered and nothing around it.**  Let `t` be a token of a provider and
`t'` the token with white space between its characters, anywhere in a text.  The scan covers all of
`t'` and no other character but white space if and only if no token that white space splits reaches
beyond `t'` in the squeezed text and, for a pattern with boundaries, no word character comes before
the token there, and none after it, unless its tail closes what the missing boundary leaves open. -/
theorem scanWhitespaceCollapsed_iff (hσ : σ ∈ wsScanProviders)
    (ht : t.length ∈ lengths (σ.items W) none t) (hspaced : Spaced t t') :
    CoversToken W u t' v ∧ SparesContext W u t' v ↔
      NoTokenBeyond W u t t' v ∧ (σ.bounded = true →
        (squeeze u).getLast?.any W.isWord = false ∧
        ((squeeze v).head?.any W.isWord = false ∨ ClosedByTail W u t t' v σ)) := by
  have htoken : σ.Token W t 0 t.length := by
    rw [← Nat.zero_add t.length]
    exact Provider.at_items.1 ht
  have hne : t ≠ [] := List.ne_nil_of_length_pos (htoken.lt (least_pos hσ))
  rw [sparesContext_iff hspaced, and_comm]
  refine and_congr_right fun hno => ⟨fun hcovers hb => ?_, fun hcond => ?_⟩
  · refine ⟨?_, .inr (closedByTail_of_covers hσ hspaced htoken hcovers hno)⟩
    obtain ⟨e, hfirst, -⟩ := exists_first_token hσ hspaced htoken hcovers hno
    rw [hspaced.squeeze_context] at hfirst
    exact (boundary_left (htoken.word_ends hb).1).1 (hfirst.bounds hb).1
  · by_cases hedges : σ.bounded = true → (squeeze u).getLast?.any W.isWord = false ∧
        (squeeze v).head?.any W.isWord = false
    · obtain ⟨hsplit, first, last, hstretch⟩ := token_of_edges hσ hspaced htoken hedges
      refine ClosedByTail.coversToken hσ hspaced hne ⟨σ, hσ, _, _, last, first,
        ⟨hsplit, first, last, hstretch⟩, ⟨hsplit, first, last, hstretch⟩, hstretch.from_last,
        hstretch.from_first, ?_⟩
      have hpos := List.length_pos_of_ne_nil hne
      exact (hstretch.from_first.mono hstretch.from_last (by omega)).trans (Nat.le_succ _)
    · obtain ⟨hb, hnot⟩ := Classical.not_imp.1 hedges
      obtain ⟨hlead, htrail | htail⟩ := hcond hb
      · exact absurd ⟨hlead, htrail⟩ hnot
      · exact htail.coversToken hσ hspaced hne

/-- A token of twenty characters after its start, and the same with a space in it. -/
def projectKey : List Char := "sk-proj-0123456789abcdefghij".toList

def spacedKey : List Char := "sk-proj-0123456789 abcdefghij".toList

theorem spaced_key : Spaced projectKey spacedKey :=
  ⟨by decide +kernel, by decide +kernel, by decide +kernel, ' ', by decide +kernel, by decide⟩

/-- The condition for a note with the token in it. -/
theorem scanWhitespaceCollapsed_iff_note :
    CoversToken .ascii "note ".toList spacedKey " (end)".toList ∧
        SparesContext .ascii "note ".toList spacedKey " (end)".toList ↔
      NoTokenBeyond .ascii "note ".toList projectKey spacedKey " (end)".toList ∧
        (openaiProject.bounded = true →
          (squeeze "note ".toList).getLast?.any (WordChars.isWord .ascii) = false ∧
            ((squeeze " (end)".toList).head?.any (WordChars.isWord .ascii) = false ∨
              ClosedByTail .ascii "note ".toList projectKey spacedKey " (end)".toList
                openaiProject)) :=
  scanWhitespaceCollapsed_iff List.mem_cons_self (by decide +kernel) spaced_key

/-- **A word after the token is covered with it**: without the white space it reads as more of the
token. -/
theorem scanWhitespaceCollapsed_bleeds :
    openaiProject ∈ wsScanProviders ∧
      projectKey.length ∈ lengths (openaiProject.items .ascii) none projectKey ∧
      Spaced projectKey spacedKey ∧
      ¬(CoversToken .ascii [] spacedKey " and more".toList ∧
        SparesContext .ascii [] spacedKey " and more".toList) := by
  refine ⟨List.mem_cons_self, by decide +kernel, spaced_key, fun h => ?_⟩
  have hcovers : Covers (scanWhitespaceCollapsed .ascii ([] ++ (spacedKey ++ " and more".toList)))
      30 := by decide +kernel
  exact h.2 30 (.inr (by decide)) (by decide) (by decide) hcovers

end Shiroe

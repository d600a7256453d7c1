import Shiroe.Lib.Regex
import Shiroe.Privacy.Spans

/-!
# The tokens of the providers

A provider's pattern is a fixed start and a greedy run of characters; some have a word boundary at
both ends.  `Provider.Token` says of a stretch of a text that it has the shape of a token and its
boundaries, whatever a scan finds elsewhere.

* `Provider.at_items` : a pattern can match exactly the tokens;
* `Provider.Token.exists_match` : each token lies in a match that the scan finds.
-/

namespace Shiroe

open Regex

/-- A pattern of runs and looks. -/
def Pattern.compile (items : List (Item Char)) : Pattern where
  finditer := Regex.finditer items
  within _ _ hm := ⟨(finditer_sound hm).1.le, (finditer_sound hm).2.1⟩

/-- What the patterns take from outside: `str.isalnum` of one character, which is known of the ASCII
characters. -/
structure WordChars where
  isAlnum : Char → Bool
  isAlnum_ascii : ∀ c : Char, c.toNat < 128 → isAlnum c = c.isAlphanum

/-- The characters for ASCII texts. -/
def WordChars.ascii : WordChars where
  isAlnum := Char.isAlphanum
  isAlnum_ascii _ _ := rfl

variable (W : WordChars)

/-- `\w`. -/
def WordChars.isWord (c : Char) : Bool := W.isAlnum c || c = '_'

/-- `\b`. -/
def wordBoundary : Item Char :=
  .look fun before ahead => before.any W.isWord != ahead.head?.any W.isWord

/-- The pattern of a provider's tokens. -/
structure Provider where
  /-- What a token starts with. -/
  start : List Char
  /-- `(?!…)` after the start, unless it is empty. -/
  notNext : List Char
  isBody : Char → Bool
  least : ℕ
  most : Option ℕ
  /-- There is a `\b` at both ends. -/
  bounded : Bool

namespace Provider

variable (σ : Provider)

def edge : List (Item Char) := if σ.bounded then [wordBoundary W] else []

def guard : List (Item Char) :=
  if σ.notNext = [] then [] else [.look fun _ ahead => !σ.notNext.isPrefixOf ahead]

/-- The pattern. -/
def items : List (Item Char) :=
  σ.edge W ++ (σ.start.map literal ++ (σ.guard ++ (.run 1 σ.isBody σ.least σ.most :: σ.edge W)))

def pattern : Pattern := .compile (σ.items W)

end Provider

/-- `sk-proj-[A-Za-z0-9_\-]{20,}`. -/
def openaiProject : Provider where
  start := "sk-proj-".toList
  notNext := []
  isBody c := c.isAlphanum || c = '_' || c = '-'
  least := 20
  most := none
  bounded := false

/-- `\bsk-(?!proj-)[A-Za-z0-9]{20,}\b`. -/
def openaiBare : Provider where
  start := "sk-".toList
  notNext := "proj-".toList
  isBody c := c.isAlphanum
  least := 20
  most := none
  bounded := true

/-- `github_pat_[A-Za-z0-9_]{20,}`. -/
def githubPat : Provider where
  start := "github_pat_".toList
  notNext := []
  isBody c := c.isAlphanum || c = '_'
  least := 20
  most := none
  bounded := false

/-- `\bghp_[A-Za-z0-9]{20,}\b`. -/
def githubGhp : Provider where
  start := "ghp_".toList
  notNext := []
  isBody c := c.isAlphanum
  least := 20
  most := none
  bounded := true

/-- `\bxoxb-[A-Za-z0-9\-]{10,}\b`. -/
def slackBot : Provider where
  start := "xoxb-".toList
  notNext := []
  isBody c := c.isAlphanum || c = '-'
  least := 10
  most := none
  bounded := true

/-- `\bAIza[A-Za-z0-9_\-]{30,}\b`. -/
def googleApi : Provider where
  start := "AIza".toList
  notNext := []
  isBody c := c.isAlphanum || c = '_' || c = '-'
  least := 30
  most := none
  bounded := true

/-- `\bAKIA[A-Z0-9]{16}\b`. -/
def awsAccessKey : Provider where
  start := "AKIA".toList
  notNext := []
  isBody c := c.isUpper || c.isDigit
  least := 16
  most := some 16
  bounded := true

/-- `_WS_SCAN_PROVIDERS`. -/
def wsScanProviders : List Provider :=
  [openaiProject, openaiBare, githubPat, githubGhp, slackBot, googleApi, awsAccessKey]

/-- A word character and one that is none meet at the place. -/
def Boundary (text : List Char) (i : ℕ) : Prop :=
  ((text.take i).getLast?.any W.isWord != text[i]?.any W.isWord) = true

/-- The stretch from `i` to `j` is a token. -/
structure Provider.Token (σ : Provider) (text : List Char) (i j : ℕ) : Prop where
  start : σ.start <+: text.drop i
  guard : σ.notNext ≠ [] → ¬σ.notNext <+: text.drop (i + σ.start.length)
  least : i + σ.start.length + σ.least ≤ j
  most : ∀ b ∈ σ.most, j ≤ i + σ.start.length + b
  body : ∀ k, i + σ.start.length ≤ k → k < j → text[k]?.any σ.isBody = true
  bounds : σ.bounded = true → Boundary W text i ∧ Boundary W text j

variable {W} {σ τ : Provider} {text : List Char} {items : List (Item Char)} {i j n : ℕ}

/-! ### What a pattern can match -/

theorem lastOf_none (l : List Char) : lastOf none l = l.getLast? := Option.or_none

theorem Provider.at_edge : At (σ.edge W ++ items) text i n ↔
    (σ.bounded = true → Boundary W text i) ∧ At items text i n := by
  rw [edge]
  split_ifs with h
  · rw [List.singleton_append, wordBoundary, at_look, lastOf_none, List.head?_drop]
    exact and_congr_left fun _ => ⟨fun hb _ => hb, fun hb => hb h⟩
  · exact (and_iff_right fun hb => absurd hb h).symm

theorem Provider.at_guard : At (σ.guard ++ items) text i n ↔
    (σ.notNext ≠ [] → ¬σ.notNext <+: text.drop i) ∧ At items text i n := by
  rw [guard]
  split_ifs with h
  · exact (and_iff_right fun hne => absurd h hne).symm
  · rw [List.singleton_append, at_look, Bool.not_eq_true', ← Bool.not_eq_true,
      List.isPrefixOf_iff_prefix]
    exact and_congr_left fun _ => ⟨fun hb _ => hb, fun hb => hb h⟩

/-- **A pattern can match exactly the tokens.** -/
theorem Provider.at_items : At (σ.items W) text i n ↔ σ.Token W text i (i + n) := by
  have hend : ∀ k m, At (σ.edge W) text k m ↔ m = 0 ∧ (σ.bounded = true → Boundary W text k) := by
    intro k m
    have hedge := @Provider.at_edge W σ text [] k m
    rw [List.append_nil, at_nil, and_comm] at hedge
    exact hedge
  rw [items, at_edge, at_literals]
  constructor
  · rintro ⟨hfirst, hstart, m, rfl, hm⟩
    obtain ⟨hguard, hm⟩ := at_guard.1 hm
    obtain ⟨k, r, rfl, hlo, hhi, hbody, hr⟩ := at_run.1 hm
    obtain ⟨rfl, hlast⟩ := (hend _ _).1 hr
    rw [Nat.add_zero, ← Nat.add_assoc]
    exact ⟨hstart, hguard, Nat.add_le_add_left hlo _, fun b hb => Nat.add_le_add_left (hhi b hb) _,
      hbody, fun hb => ⟨hfirst hb, hlast hb⟩⟩
  · rintro ⟨hstart, hguard, hleast, hmost, hbody, hbounds⟩
    obtain ⟨k, rfl⟩ := Nat.exists_eq_add_of_le (show σ.start.length ≤ n by omega)
    rw [← Nat.add_assoc] at hleast hmost hbody hbounds
    refine ⟨fun hb => (hbounds hb).1, hstart, k, rfl,
      at_guard.2 ⟨hguard, at_run.2 ⟨k, 0, rfl, ?_, ?_,
      hbody, (hend _ _).2 ⟨rfl, fun hb => (hbounds hb).2⟩⟩⟩⟩
    · omega
    · exact fun b hb => Nat.le_of_add_le_add_left (hmost b hb)

theorem Provider.Token.lt (h : σ.Token W text i j) (hσ : 0 < σ.least) : i < j := by
  have := h.least
  omega

theorem Provider.Token.le_length (h : σ.Token W text i j) (hσ : 0 < σ.least) : j ≤ text.length := by
  have hleast := h.least
  have hlast := h.body (j - 1) (by omega) (by omega)
  by_contra hlt
  rw [List.getElem?_eq_none (by omega)] at hlast
  exact absurd hlast (by simp)

theorem Provider.greedy_edge (h : Greedy items) : Greedy (σ.edge W ++ items) := by
  rw [edge]
  split_ifs
  · exact h.look
  · exact h

theorem Provider.greedy_guard (h : Greedy items) : Greedy (σ.guard ++ items) := by
  rw [guard]
  split_ifs
  · exact h
  · exact h.look

theorem Provider.greedy_items : Greedy (σ.items W) := by
  have hlooks : Greedy (σ.edge W) := by
    rw [← List.append_nil (σ.edge W)]
    exact greedy_edge greedy_nil
  have hzero : ∀ before l, ∀ n ∈ lengths (σ.edge W) before l, n = 0 := by
    intro before l n hn
    rw [edge] at hn
    split_ifs at hn
    · exact List.mem_singleton.1 (mem_lengths_look.1 hn).2
    · exact List.mem_singleton.1 hn
  exact greedy_edge ((greedy_guard (hlooks.run hzero)).literals σ.start)

/-! ### Each token lies in a match -/

/-- All characters of the start can stand in the body, and the body is as long as it can be. -/
structure Provider.Open (σ : Provider) : Prop where
  start : ∀ c ∈ σ.start, σ.isBody c = true
  notNext : σ.notNext = []
  most : σ.most = none

/-- The characters of the body are word characters, as are those of the start; only the last of the
start may be none, and then it cannot stand in the body. -/
structure Provider.Closed (W : WordChars) (σ : Provider) : Prop where
  bounded : σ.bounded = true
  head : ∀ c ∈ σ.start.head?, W.isWord c = true
  body : ∀ c, σ.isBody c = true → W.isWord c = true
  start : ∀ c ∈ σ.start.dropLast, W.isWord c = true
  last : ∀ c ∈ σ.start.getLast?, W.isWord c = true ∨ σ.isBody c = false
  least : σ.start.length ≤ σ.least
  ne_nil : σ.start ≠ []

theorem Provider.Token.getElem?_start (h : σ.Token W text i j) {k : ℕ} (hk : k < σ.start.length) :
    text[i + k]? = σ.start[k]? := by
  obtain ⟨rest, hrest⟩ := h.start
  rw [← List.getElem?_drop, ← hrest, List.getElem?_append_left hk]

/-- A token of an open provider goes on as far as a token that starts within it. -/
theorem Provider.Token.extend {a b : ℕ} (hσ : σ.Open) (h : σ.Token W text a b)
    (h' : σ.Token W text i j) (hi : i < b) (hb : b ≤ j) : σ.Token W text a j := by
  refine ⟨h.start, h.guard, h.least.trans hb, ?_, ?_, fun hbound => ⟨(h.bounds hbound).1,
    (h'.bounds hbound).2⟩⟩
  · rw [hσ.most]
    exact fun _ hnone => absurd hnone (by simp)
  · intro k hk hkj
    by_cases hkb : k < b
    · exact h.body k hk hkb
    by_cases hstart : k < i + σ.start.length
    · obtain ⟨x, rfl⟩ := Nat.exists_eq_add_of_le (show i ≤ k by omega)
      have hx : x < σ.start.length := by omega
      rw [h'.getElem?_start hx, List.getElem?_eq_getElem hx]
      exact hσ.start _ (List.getElem_mem hx)
    · exact h'.body k (not_lt.1 hstart) hkj

/-- Within a token of a closed provider no other one starts. -/
theorem Provider.Token.eq_of_closed {a b : ℕ} (hσ : σ.Closed W) (h : σ.Token W text a b)
    (h' : σ.Token W text i j) (ha : a ≤ i) (hi : i < b) : a = i := by
  by_contra hne
  have hpos : 0 < σ.start.length := List.length_pos_of_ne_nil hσ.ne_nil
  -- the token starts with a word character, so that the one before is none
  have hbefore : text[i - 1]?.any W.isWord = false := by
    have hbound := (h'.bounds hσ.bounded).1
    have hfirst : text[i]?.any W.isWord = true := by
      have hstart := h'.getElem?_start hpos
      rw [Nat.add_zero, ← List.head?_eq_getElem?, List.head?_eq_some_head hσ.ne_nil] at hstart
      rw [hstart]
      exact hσ.head _ (List.head?_eq_some_head hσ.ne_nil)
    have hlast : (text.take i).getLast? = text[i - 1]? := by
      have hlen := h.le_length (hpos.trans_le hσ.least)
      rw [List.getLast?_eq_getElem?, List.length_take, min_eq_left (by omega),
        List.getElem?_take_of_lt (by omega)]
    rw [Boundary, hlast, hfirst] at hbound
    simpa using hbound
  by_cases hbody : a + σ.start.length ≤ i - 1
  · -- in the body there are word characters alone
    have hin := h.body (i - 1) hbody (by omega)
    obtain ⟨c, hc, hcbody⟩ := (Option.any_eq_true _ _).1 hin
    rw [hc, Option.any_some, hσ.body c hcbody] at hbefore
    exact absurd hbefore (by decide)
  obtain ⟨x, hx⟩ := Nat.exists_eq_add_of_le (show a ≤ i - 1 by omega)
  have hxlt : x < σ.start.length := by omega
  rw [hx, h.getElem?_start hxlt, List.getElem?_eq_getElem hxlt, Option.any_some] at hbefore
  by_cases hlast : x + 1 < σ.start.length
  · have hword := hσ.start σ.start[x] (List.mem_iff_getElem?.2 ⟨x, by
      rw [List.getElem?_dropLast, if_pos (by omega), List.getElem?_eq_getElem hxlt]⟩)
    rw [hword] at hbefore
    exact absurd hbefore (by decide)
  · -- the last character of the start would stand in the body of the first token
    have hxlast : x = σ.start.length - 1 := by omega
    have hgetLast : σ.start.getLast? = some σ.start[x] := by
      rw [List.getLast?_eq_getElem?, ← hxlast, List.getElem?_eq_getElem hxlt]
    have hleast := h.least
    have hleast' := hσ.least
    have hin := h.body (i + x) (by omega) (by omega)
    rw [h'.getElem?_start hxlt, List.getElem?_eq_getElem hxlt, Option.any_some] at hin
    rcases hσ.last _ hgetLast with hword | hbody
    · rw [hword] at hbefore
      exact absurd hbefore (by decide)
    · rw [hin] at hbody
      exact absurd hbody (by decide)

theorem WordChars.isWord_ascii {c : Char} (h : c.toNat < 128) :
    W.isWord c = (c.isAlphanum || c = '_') := by
  rw [isWord, W.isAlnum_ascii c h]

theorem WordChars.isWord_of_isAlphanum {c : Char} (h : c.isAlphanum = true) :
    W.isWord c = true := by
  have hascii : c.toNat < 128 := by
    simp only [Char.isAlphanum, Char.isAlpha, Char.isUpper, Char.isLower, Char.isDigit,
      Bool.or_eq_true, Bool.and_eq_true, decide_eq_true_eq, ge_iff_le, UInt32.le_iff_toNat_le] at h
    change ((65 ≤ c.toNat ∧ c.toNat ≤ 90) ∨ 97 ≤ c.toNat ∧ c.toNat ≤ 122) ∨
      48 ≤ c.toNat ∧ c.toNat ≤ 57 at h
    omega
  rw [isWord_ascii hascii, h, Bool.true_or]

/-- An ASCII letter or digit, or the underscore. -/
def AsciiWord (c : Char) : Prop := c.toNat < 128 ∧ (c.isAlphanum || c = '_') = true

instance (c : Char) : Decidable (AsciiWord c) := inferInstanceAs (Decidable (_ ∧ _))

theorem AsciiWord.isWord {c : Char} (h : AsciiWord c) : W.isWord c = true := by
  rw [WordChars.isWord_ascii h.1]
  exact h.2

theorem Provider.closed_of_ascii (hbounded : σ.bounded = true)
    (hbody : ∀ c, σ.isBody c = true → c.isAlphanum = true)
    (hhead : ∀ c ∈ σ.start.head?, AsciiWord c) (hstart : ∀ c ∈ σ.start.dropLast, AsciiWord c)
    (hlast : ∀ c ∈ σ.start.getLast?, AsciiWord c ∨ σ.isBody c = false)
    (hleast : σ.start.length ≤ σ.least) (hne : σ.start ≠ []) : σ.Closed W :=
  ⟨hbounded, fun c hc => (hhead c hc).isWord,
    fun c hc => WordChars.isWord_of_isAlphanum (hbody c hc), fun c hc => (hstart c hc).isWord,
    fun c hc => (hlast c hc).imp_left AsciiWord.isWord, hleast, hne⟩

/-- The two kinds of providers. -/
theorem open_or_closed (hσ : σ ∈ wsScanProviders) : σ.Open ∨ σ.Closed W := by
  simp only [wsScanProviders, List.mem_cons, List.not_mem_nil, or_false] at hσ
  rcases hσ with rfl | rfl | rfl | rfl | rfl | rfl | rfl
  · exact .inl ⟨by decide, rfl, rfl⟩
  · exact .inr (Provider.closed_of_ascii rfl (fun _ h => h) (by decide) (by decide) (by decide)
      (by decide) (by decide))
  · exact .inl ⟨by decide, rfl, rfl⟩
  · exact .inr (Provider.closed_of_ascii rfl (fun _ h => h) (by decide) (by decide) (by decide)
      (by decide) (by decide))
  · exact .inl ⟨by decide, rfl, rfl⟩
  · exact .inl ⟨by decide, rfl, rfl⟩
  · refine .inr (Provider.closed_of_ascii rfl (fun c h => ?_) (by decide) (by decide) (by decide)
      (by decide) (by decide))
    rw [Char.isAlphanum, Char.isAlpha, Bool.or_eq_true, Bool.or_eq_true]
    exact (Bool.or_eq_true _ _ ▸ h).imp_left .inl

theorem least_pos (hσ : σ ∈ wsScanProviders) : 0 < σ.least := by
  simp only [wsScanProviders, List.mem_cons, List.not_mem_nil, or_false] at hσ
  rcases hσ with rfl | rfl | rfl | rfl | rfl | rfl | rfl <;> exact Nat.succ_pos _

/-- A match that the scan finds is a token. -/
theorem Provider.token_of_match {m : ℕ × ℕ} (hm : m ∈ (σ.pattern W).finditer text) :
    σ.Token W text m.1 m.2 := by
  obtain ⟨hlt, -, hmatch⟩ := finditer_sound hm
  have htoken := at_items.1 (mem_of_matchLength hmatch)
  rwa [Nat.add_sub_cancel' hlt.le] at htoken

/-- **Each token lies in a match that the scan finds.** -/
theorem Provider.Token.exists_match (hσ : σ ∈ wsScanProviders) (h : σ.Token W text i j) :
    ∃ m ∈ (σ.pattern W).finditer text, m.1 ≤ i ∧ j ≤ m.2 := by
  have hij := h.lt (least_pos hσ)
  have hat : At (σ.items W) text i (j - i) := by
    rw [at_items, Nat.add_sub_cancel' hij.le]
    exact h
  obtain ⟨n, hn⟩ := matchLength_isSome hat
  have hpos : 0 < n := (Nat.sub_pos_of_lt hij).trans_le (greedy_items.le_of_at hn hat)
  obtain ⟨m, hm, hstart, hend⟩ := finditer_complete hn hpos
  refine ⟨m, hm, hstart, ?_⟩
  by_contra hlt
  obtain ⟨hmlt, -, hmatch⟩ := finditer_sound hm
  have htoken := token_of_match hm
  -- the match would have been taken up to the end of the token
  have hlong : σ.Token W text m.1 j := by
    rcases open_or_closed (W := W) hσ with hopen | hclosed
    · exact htoken.extend hopen h hend (not_le.1 hlt).le
    · rw [htoken.eq_of_closed hclosed h hstart hend]
      exact h
  have hle := greedy_items.le_of_at hmatch (n := j - m.1) (at_items.2 (by
    rwa [Nat.add_sub_cancel' (hstart.trans hij.le)]))
  omega

/-- A provider's start begins another's only if it excludes what comes next there. -/
theorem start_begins : ∀ σ ∈ wsScanProviders, ∀ τ ∈ wsScanProviders, σ.start <+: τ.start →
    σ.start = τ.start ∨ σ.notNext ≠ [] ∧ σ.start ++ σ.notNext <+: τ.start := by
  decide +kernel

theorem nodup_starts : (wsScanProviders.map Provider.start).Nodup := by decide +kernel

/-- The start of a token and what is excluded after it. -/
structure Provider.Begins (σ : Provider) (text : List Char) : Prop where
  start : σ.start <+: text
  guard : σ.notNext ≠ [] → ¬σ.notNext <+: text.drop σ.start.length

theorem Provider.Token.begins (h : σ.Token W text i j) : σ.Begins (text.drop i) :=
  ⟨h.start, by rw [List.drop_drop]; exact h.guard⟩

theorem Provider.Begins.eq_of_starts (hσ : σ ∈ wsScanProviders) (hτ : τ ∈ wsScanProviders)
    (h : σ.Begins text) (h' : τ.Begins text) (hstart : σ.start <+: τ.start) : σ = τ := by
  rcases start_begins σ hσ τ hτ hstart with heq | ⟨hne, hnext⟩
  · exact List.inj_on_of_nodup_map nodup_starts hσ hτ heq
  · obtain ⟨rest, hrest⟩ := hnext.trans h'.start
    refine absurd ⟨rest, ?_⟩ (h.guard hne)
    rw [← hrest, List.append_assoc, List.drop_left]

/-- Tokens of two providers do not begin at one place. -/
theorem Provider.Begins.unique (hσ : σ ∈ wsScanProviders) (hτ : τ ∈ wsScanProviders)
    (h : σ.Begins text) (h' : τ.Begins text) : σ = τ := by
  rcases List.prefix_or_prefix_of_prefix h.start h'.start with hstart | hstart
  · exact h.eq_of_starts hσ hτ h' hstart
  · exact (h'.eq_of_starts hτ hσ h hstart).symm

theorem isBody_openaiProject {c : Char} : openaiProject.isBody c = true ↔
    c.isAlphanum = true ∨ c = '_' ∨ c = '-' := by
  change (c.isAlphanum || decide (c = '_') || decide (c = '-')) = true ↔ _
  simp only [Bool.or_eq_true, decide_eq_true_eq, or_assoc]

theorem isBody_githubPat {c : Char} : githubPat.isBody c = true ↔
    c.isAlphanum = true ∨ c = '_' := by
  change (c.isAlphanum || decide (c = '_')) = true ↔ _
  simp only [Bool.or_eq_true, decide_eq_true_eq]

theorem isBody_slackBot {c : Char} : slackBot.isBody c = true ↔
    c.isAlphanum = true ∨ c = '-' := by
  change (c.isAlphanum || decide (c = '-')) = true ↔ _
  simp only [Bool.or_eq_true, decide_eq_true_eq]

/-- The characters of all bodies can stand in one of them. -/
theorem isBody_subset (hσ : σ ∈ wsScanProviders) {c : Char} (hc : σ.isBody c = true) :
    openaiProject.isBody c = true := by
  simp only [wsScanProviders, List.mem_cons, List.not_mem_nil, or_false] at hσ
  rw [isBody_openaiProject]
  rcases hσ with rfl | rfl | rfl | rfl | rfl | rfl | rfl
  · exact isBody_openaiProject.1 hc
  · exact .inl hc
  · exact (isBody_githubPat.1 hc).imp_right .inl
  · exact .inl hc
  · exact (isBody_slackBot.1 hc).imp_right .inr
  · exact isBody_openaiProject.1 hc
  · have hbody : (c.isUpper || c.isDigit) = true := hc
    rw [Bool.or_eq_true] at hbody
    refine .inl ?_
    rw [Char.isAlphanum, Char.isAlpha, Bool.or_eq_true, Bool.or_eq_true]
    exact hbody.imp_left .inl

theorem eq_of_not_bounded (hτ : τ ∈ wsScanProviders) (hbounded : τ.bounded = false) :
    τ = openaiProject ∨ τ = githubPat := by
  simp only [wsScanProviders, List.mem_cons, List.not_mem_nil, or_false] at hτ
  rcases hτ with rfl | rfl | rfl | rfl | rfl | rfl | rfl
  · exact .inl rfl
  · exact Bool.noConfusion hbounded
  · exact .inr rfl
  all_goals exact Bool.noConfusion hbounded

/-- Where a token without boundaries has to stop in the body of another one, there is a boundary. -/
theorem word_of_stop (hσ : σ ∈ wsScanProviders) (hτ : τ ∈ wsScanProviders)
    (hbounded : τ.bounded = false) {c : Char} (hc : σ.isBody c = true)
    (hstop : τ.isBody c = false) :
    W.isWord c = false ∧ ∀ d, τ.isBody d = true → W.isWord d = true := by
  have hbody := isBody_subset hσ hc
  rcases eq_of_not_bounded hτ hbounded with rfl | rfl
  · rw [hbody] at hstop
    exact Bool.noConfusion hstop
  · rw [← Bool.not_eq_true, isBody_githubPat, not_or] at hstop
    rcases isBody_openaiProject.1 hbody with h | h | rfl
    · exact absurd h hstop.1
    · exact absurd h hstop.2
    · refine ⟨by rw [WordChars.isWord_ascii (by decide)]; rfl, fun d hd => ?_⟩
      rcases isBody_githubPat.1 hd with h | rfl
      · exact WordChars.isWord_of_isAlphanum h
      · rw [WordChars.isWord_ascii (by decide)]
        rfl

/-- A token in the body of another one goes on to its end, or there is a boundary before. -/
theorem Provider.Token.exists_boundary {b : ℕ} (hσ : σ ∈ wsScanProviders)
    (hτ : τ ∈ wsScanProviders) (h : τ.Token W text i j) (hj : j ≤ b)
    (hbody : ∀ k, j ≤ k → k < b → text[k]?.any σ.isBody = true) (hnot : ¬τ.Token W text i b) :
    ∃ j', j ≤ j' ∧ j' < b ∧ Boundary W text j' := by
  obtain ⟨d, rfl⟩ := Nat.exists_eq_add_of_le hj
  induction d generalizing j with
  | zero => exact absurd h hnot
  | succ d ih =>
    cases hbounded : τ.bounded with
    | true => exact ⟨j, le_rfl, by omega, (h.bounds hbounded).2⟩
    | false =>
      obtain ⟨c, hc, hcbody⟩ := (Option.any_eq_true _ _).1 (hbody j le_rfl (by omega))
      cases hnext : τ.isBody c with
      | true =>
        -- the token can take one more character
        have hmost : τ.most = none := by
          rcases eq_of_not_bounded hτ hbounded with rfl | rfl <;> rfl
        have hlong : τ.Token W text i (j + 1) := by
          refine ⟨h.start, h.guard, h.least.trans (Nat.le_succ j), ?_, fun k hk hkj => ?_,
            fun hb => absurd (hbounded.symm.trans hb) (by decide)⟩
          · rw [hmost]
            exact fun _ hb => absurd hb (by simp)
          · rcases Nat.lt_succ_iff_lt_or_eq.1 hkj with hlt | rfl
            · exact h.body k hk hlt
            · rw [hc]
              exact hnext
        rw [Nat.add_comm d, ← Nat.add_assoc] at hbody hnot
        obtain ⟨j', hle, hlt, hboundary⟩ := ih hlong (Nat.le_add_right _ _)
          (fun k hk hkb => hbody k (by omega) hkb) hnot
        exact ⟨j', by omega, by omega, hboundary⟩
      | false =>
        obtain ⟨hword, hwords⟩ := word_of_stop (W := W) hσ hτ hbounded hcbody hnext
        have hleast := h.least
        have hpos := least_pos hτ
        obtain ⟨d', hd', hdbody⟩ := (Option.any_eq_true _ _).1
          (h.body (j - 1) (by omega) (by omega))
        have hlast : (text.take j).getLast? = some d' := by
          have hlen := h.le_length hpos
          rw [List.getLast?_eq_getElem?, List.length_take, min_eq_left hlen,
            List.getElem?_take_of_lt (by omega), hd']
        refine ⟨j, le_rfl, by omega, ?_⟩
        rw [Boundary, hlast, hc, Option.any_some, Option.any_some, hword, hwords d' hdbody]
        rfl

/-! ### A token among other text -/

variable {x t y : List Char} {k : ℕ}

theorem getElem?_middle (hk : k < t.length) : (x ++ (t ++ y))[x.length + k]? = t[k]? := by
  rw [List.getElem?_append_right (Nat.le_add_right _ _), Nat.add_sub_cancel_left,
    List.getElem?_append_left hk]

/-- Before a word character there is a boundary exactly after what is none. -/
theorem boundary_left (ht : t.head?.any W.isWord = true) :
    Boundary W (x ++ (t ++ y)) x.length ↔ x.getLast?.any W.isWord = false := by
  have hhead : (x ++ (t ++ y))[x.length]? = t.head? := by
    cases t with
    | nil => exact absurd ht (by simp)
    | cons c t => simp
  rw [Boundary, List.take_left, hhead, ht]
  cases x.getLast?.any W.isWord <;> simp

/-- After a word character there is a boundary exactly before what is none. -/
theorem boundary_right (ht : t.getLast?.any W.isWord = true) :
    Boundary W (x ++ (t ++ y)) (x.length + t.length) ↔ y.head?.any W.isWord = false := by
  have htake : (x ++ (t ++ y)).take (x.length + t.length) = x ++ t := by
    rw [← List.append_assoc, ← List.length_append, List.take_left]
  have hnext : (x ++ (t ++ y))[x.length + t.length]? = y.head? := by
    rw [← List.append_assoc, ← List.length_append, List.getElem?_append_right le_rfl, Nat.sub_self,
      List.head?_eq_getElem?]
  have hlast : (x ++ t).getLast?.any W.isWord = true := by
    rw [List.getLast?_append]
    cases hlast : t.getLast? with
    | none => rw [hlast] at ht; exact absurd ht (by simp)
    | some c => rw [hlast] at ht; exact ht
  rw [Boundary, htake, hnext, hlast]
  cases y.head?.any W.isWord <;> simp

/-- A text that as a whole is a token starts and ends with a word character, if it is bounded. -/
theorem Provider.Token.word_ends (h : σ.Token W t 0 t.length) (hσ : σ.bounded = true) :
    t.head?.any W.isWord = true ∧ t.getLast?.any W.isWord = true := by
  obtain ⟨hfirst, hlast⟩ := h.bounds hσ
  rw [Boundary, List.take_zero, List.getLast?_nil, Option.any_none, ← List.head?_eq_getElem?]
    at hfirst
  rw [Boundary, List.take_length, List.getElem?_eq_none le_rfl, Option.any_none] at hlast
  exact ⟨by simpa using hfirst, by simpa using hlast⟩

theorem notNext_length_le : ∀ σ ∈ wsScanProviders, σ.notNext.length ≤ σ.least := by decide +kernel

theorem Provider.Token.begins_middle (hσ : σ ∈ wsScanProviders) (h : σ.Token W t 0 t.length) :
    σ.Begins (t ++ y) := by
  have hleast := h.least
  refine ⟨h.start.trans (List.prefix_append _ _), fun hne hnext => h.guard hne ?_⟩
  rw [List.drop_append_of_le_length (by omega)] at hnext
  rw [Nat.zero_add]
  refine List.prefix_of_prefix_length_le hnext (List.prefix_append _ _) ?_
  have := notNext_length_le σ hσ
  rw [List.length_drop]
  omega

/-- A beginning of a token among other text is a token, if it is long enough and has the boundaries
there. -/
theorem Provider.Token.middle (hσ : σ ∈ wsScanProviders) (h : σ.Token W t 0 t.length)
    (hleast : x.length + σ.start.length + σ.least ≤ j) (hj : j ≤ x.length + t.length)
    (hbounds : σ.bounded = true →
      Boundary W (x ++ (t ++ y)) x.length ∧ Boundary W (x ++ (t ++ y)) j) :
    σ.Token W (x ++ (t ++ y)) x.length j := by
  have hbegins := h.begins_middle (y := y) hσ
  refine ⟨?_, ?_, hleast, fun b hb => ?_, fun k hk hkj => ?_, hbounds⟩
  · rw [List.drop_left]
    exact hbegins.start
  · rw [← List.drop_drop, List.drop_left]
    exact hbegins.guard
  · have := h.most b hb
    omega
  · obtain ⟨k, rfl⟩ := Nat.exists_eq_add_of_le (show x.length ≤ k by omega)
    rw [getElem?_middle (by omega)]
    exact h.body k (by omega) (by omega)

end Shiroe

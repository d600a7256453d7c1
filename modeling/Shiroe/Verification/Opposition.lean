import Shiroe.Lib.Words
import Shiroe.Verification.Engine

/-!
# Claims that oppose each other

`_opposition_key` lowers a claim, joins its words with single spaces, looks for the first of its
terms that stands among them as a word, and replaces the first place where a word starts with that
term.  The subject of a claim can have such words too.

* `opposed_iff` : for which subjects the claims that a term and its opposite hold are opposed, and
  the second is blocked while the first is in an active record.
-/

namespace Shiroe

open Words

/-- What `str.lower` does at a space, and to lower-case letters. -/
structure LowersWords (T : TextTools) : Prop where
  space : ∀ s t, T.lower (s ++ " " ++ t) = T.lower s ++ " " ++ T.lower t
  small : ∀ s, (∀ c ∈ s.toList, 'a' ≤ c ∧ c ≤ 'z') → T.lower s = s

/-- The pairs of opposed terms. -/
def opposedPairs : List (String × String) :=
  [("enabled", "disabled"), ("allowed", "denied"), ("on", "off"), ("true", "false")]

/-- The terms that are looked for before this one. -/
def earlierTerms (term : String) : List String :=
  (oppositionTerms.map Prod.fst).takeWhile (· ≠ term)

/-- The words of a text, but for the first. -/
def laterWords (s : String) : List String :=
  (words isSpace s.toList).tail.map String.ofList

variable {T : TextTools} {s term : String}

/-! ### Replacing at the start of a word -/

variable {t new w l : List Char} {ws : List (List Char)}

theorem replaceFirst_append (hw : ' ' ∉ w) :
    replaceFirst (' ' :: t) new (w ++ l) = w ++ replaceFirst (' ' :: t) new l := by
  induction w with
  | nil => rfl
  | cons c w ih =>
    rw [List.mem_cons, not_or] at hw
    have hmiss : (' ' :: t).isPrefixOf (c :: (w ++ l)) = false := by
      rw [List.isPrefixOf, beq_eq_false_iff_ne.2 hw.1, Bool.false_and]
    rw [List.cons_append, replaceFirst, hmiss, ih hw.2]
    rfl

/-- A word that starts with the term: the term is replaced, what follows it stays. -/
theorem replaceFirst_hit (ht : t <+: w) :
    replaceFirst (' ' :: t) new (' ' :: (w ++ l)) = new ++ (w.drop t.length ++ l) := by
  have hhit : (' ' :: t).isPrefixOf (' ' :: (w ++ l)) = true :=
    List.isPrefixOf_iff_prefix.2
      (List.cons_prefix_cons.2 ⟨rfl, ht.trans (List.prefix_append _ _)⟩)
  rw [replaceFirst, if_pos hhit, List.length_cons, List.drop_succ_cons,
    List.drop_append_of_le_length ht.length_le]

/-- A word that does not start with the term is passed over. -/
theorem replaceFirst_miss (ht : ' ' ∉ t) (hw : ' ' ∉ w) (hmiss : ¬ t <+: w) :
    replaceFirst (' ' :: t) new (' ' :: (w ++ ws.flatMap (' ' :: ·))) =
      ' ' :: (w ++ replaceFirst (' ' :: t) new (ws.flatMap (' ' :: ·))) := by
  have hprefix : (' ' :: t).isPrefixOf (' ' :: (w ++ ws.flatMap (' ' :: ·))) = false := by
    rw [Bool.eq_false_iff]
    intro h
    exact hmiss ((prefix_iff ht).1 (List.cons_prefix_cons.1 (List.isPrefixOf_iff_prefix.1 h)).2)
  rw [replaceFirst, hprefix, replaceFirst_append hw]
  rfl

/-- Only the last word starts with the term, and is the term. -/
theorem replaceFirst_last (ht : ' ' ∉ t) (hws : ∀ w ∈ ws, ' ' ∉ w ∧ ¬ t <+: w) :
    replaceFirst (' ' :: t) new ((ws ++ [t]).flatMap (' ' :: ·)) =
      ws.flatMap (' ' :: ·) ++ new := by
  induction ws with
  | nil =>
    have hhit := @replaceFirst_hit t new t [] (List.prefix_refl t)
    rw [List.drop_length, List.append_nil, List.append_nil] at hhit
    simpa using hhit
  | cons w ws ih =>
    obtain ⟨⟨hw, hmiss⟩, hws⟩ := List.forall_mem_cons.1 hws
    rw [List.cons_append, List.flatMap_cons, List.cons_append,
      replaceFirst_miss ht hw hmiss, ih hws, List.flatMap_cons, List.cons_append, List.cons_append,
      List.append_assoc]

/-- A word before the last starts with the term: the last word stays. -/
theorem suffix_replaceFirst (ht : ' ' ∉ t) (hws : ∀ w ∈ ws, ' ' ∉ w) (hhit : ∃ w ∈ ws, t <+: w) :
    (' ' :: l) <:+ replaceFirst (' ' :: t) new ((ws ++ [l]).flatMap (' ' :: ·)) := by
  induction ws with
  | nil =>
    obtain ⟨w, hw, -⟩ := hhit
    exact absurd hw List.not_mem_nil
  | cons w ws ih =>
    obtain ⟨hw, hws⟩ := List.forall_mem_cons.1 hws
    rw [List.cons_append, List.flatMap_cons, List.cons_append]
    by_cases hprefix : t <+: w
    · have hlast : (' ' :: l) <:+ (ws ++ [l]).flatMap (' ' :: ·) := by
        rw [List.flatMap_append, List.flatMap_singleton]
        exact List.suffix_append _ _
      rw [replaceFirst_hit hprefix, ← List.append_assoc]
      exact hlast.trans (List.suffix_append _ _)
    · have hrest : ∃ w ∈ ws, t <+: w := by
        obtain ⟨v, hv, hhit⟩ := hhit
        rcases List.mem_cons.1 hv with rfl | hv
        · exact absurd hhit hprefix
        · exact ⟨v, hv, hhit⟩
      rw [replaceFirst_miss ht hw hprefix, ← List.cons_append]
      exact (ih hws hrest).trans (List.suffix_append _ _)

/-! ### The lowered claim -/

/-- The words of a lowered claim `s is x`, but for the first. -/
def claimWords (lowered : String) : List (List Char) :=
  (words isSpace lowered.toList ++ ["is".toList]).tail

/-- The first word of it. -/
def claimHead (lowered : String) : List Char :=
  (words isSpace lowered.toList ++ ["is".toList]).head (by simp)

theorem words_claim {x : List Char} (hx : x ≠ []) (hfree : ∀ c ∈ x, isSpace c = false) :
    words isSpace (s.toList ++ ' ' :: ("is".toList ++ ' ' :: x)) =
      claimHead s :: (claimWords s ++ [x]) := by
  have his : words isSpace "is".toList = ["is".toList] := words_of_free (by decide) (by decide)
  rw [words_append_cons (by decide), words_append_cons (by decide), his, words_of_free hfree hx,
    ← List.append_assoc, claimHead, claimWords]
  exact congrArg (· ++ [x]) (List.cons_head_tail _).symm

theorem dropEnd_eq {q : Char → Bool} {y x : List Char} (hx : x ≠ []) (hq : ∀ c ∈ x, q c = false) :
    ((y ++ x).reverse.dropWhile q).reverse = y ++ x := by
  obtain ⟨init, c, rfl⟩ := List.eq_nil_or_concat x |>.resolve_left hx
  rw [List.concat_eq_append, ← List.append_assoc, List.reverse_append, List.reverse_singleton,
    List.singleton_append, List.dropWhile_cons_of_neg]
  · rw [List.reverse_cons, List.reverse_reverse]
  · rw [hq c (by simp)]
    decide

/-- `" ".join(claim.lower().strip().rstrip(".").split())` for a claim that ends in a word. -/
theorem joinWords_claim {y x : List Char} {w : List Char} {ws : List (List Char)} (hx : x ≠ [])
    (hspace : ∀ c ∈ x, isSpace c = false) (hdot : '.' ∉ x)
    (hwords : words isSpace (y ++ x) = w :: ws) :
    (joinWords (dropDots (strip (String.ofList (y ++ x))))).toList =
      w ++ ws.flatMap (' ' :: ·) := by
  -- what is dropped at the start leaves the end of the text alone
  have hstart : ∃ y', (y ++ x).dropWhile isSpace = y' ++ x := by
    rw [List.dropWhile_append]
    split_ifs
    · obtain ⟨c, x, rfl⟩ := List.exists_cons_of_ne_nil hx
      refine ⟨[], ?_⟩
      rw [List.dropWhile_cons_of_neg, List.nil_append]
      rw [hspace c List.mem_cons_self]
      decide
    · exact ⟨_, rfl⟩
  obtain ⟨y', hy'⟩ := hstart
  have hdots : ∀ c ∈ x, decide (c = '.') = false :=
    fun c hc => decide_eq_false fun h => hdot (h ▸ hc)
  have hcut : (((y' ++ x).splitOnP isSpace).filter (· ≠ [])) = words isSpace (y ++ x) := by
    rw [← words_dropWhile (y ++ x), hy', words]
    exact List.filter_congr fun v _ => by cases v <;> rfl
  simp only [joinWords, dropDots, strip, String.toList_ofList]
  rw [hy', dropEnd_eq hx hspace, dropEnd_eq hx hdots, hcut, hwords, ← intercalate_cons_eq,
    String.toList_intercalate, List.map_map]
  congr 1
  refine (List.map_congr_left fun v _ => ?_).trans (List.map_id _)
  exact String.toList_ofList

/-- The term is written in lower-case letters. -/
def Small (term : String) : Prop := term ≠ "" ∧ ∀ c ∈ term.toList, 'a' ≤ c ∧ c ≤ 'z'

instance (term : String) : Decidable (Small term) := inferInstanceAs (Decidable (_ ∧ _))

theorem small_of_mem {t : String × Polarity} (h : t ∈ oppositionTerms) : Small t.1 := by
  revert t
  decide

theorem isSpace_of_small {c : Char} (h : 'a' ≤ c ∧ c ≤ 'z') :
    isSpace c = false ∧ c ≠ '.' ∧ c ≠ ' ' := by
  have hlow : 97 ≤ c.toNat := h.1
  have hhigh : c.toNat ≤ 122 := h.2
  refine ⟨?_, fun hc => ?_, fun hc => ?_⟩
  · have hnot : c.toNat ∉ [133, 160, 5760, 8232, 8233, 8239, 8287, 12288] := by
      simp only [List.mem_cons, List.not_mem_nil, or_false]
      omega
    simp only [isSpace, Bool.or_eq_false_iff, Bool.and_eq_false_iff, decide_eq_false_iff_not,
      List.contains_eq_mem]
    refine ⟨⟨⟨?_, ?_⟩, ?_⟩, hnot⟩ <;> omega
  · rw [hc] at hlow
    exact absurd hlow (by decide)
  · rw [hc] at hlow
    exact absurd hlow (by decide)

theorem Small.sep_not_mem (h : Small term) : ' ' ∉ term.toList :=
  fun hc => (isSpace_of_small (h.2 _ hc)).2.2 rfl

theorem Small.ne_nil (h : Small term) : term.toList ≠ [] :=
  fun hnil => h.1 (String.toList_injective (by rw [hnil]; rfl))

/-- The text that a key is read off. -/
def loweredClaim (T : TextTools) (claim : String) : String :=
  joinWords (dropDots (strip (T.lower claim)))

theorem toList_loweredClaim (hT : LowersWords T) (hterm : Small term) :
    (loweredClaim T (s ++ " is " ++ term)).toList =
      claimHead (T.lower s) ++
        (claimWords (T.lower s) ++ [term.toList]).flatMap (' ' :: ·) := by
  have hclaim : s ++ " is " ++ term = s ++ " " ++ ("is" ++ " " ++ term) := by
    apply String.toList_injective
    simp
  have hlower : T.lower (s ++ " is " ++ term) =
      String.ofList ((T.lower s).toList ++ ' ' :: "is ".toList ++ term.toList) := by
    rw [hclaim, hT.space, hT.space, hT.small "is" (by decide), hT.small term hterm.2]
    apply String.toList_injective
    simp
  rw [loweredClaim, hlower]
  refine joinWords_claim hterm.ne_nil (fun c hc => (isSpace_of_small (hterm.2 c hc)).1)
    (fun hc => (isSpace_of_small (hterm.2 _ hc)).2.1 rfl) ?_
  have hwords := @words_claim (T.lower s) term.toList hterm.ne_nil
    fun c hc => (isSpace_of_small (hterm.2 c hc)).1
  rw [← hwords]
  congr 1
  simp

theorem sep_not_mem_claimWords {w : List Char} {lowered : String} (h : w ∈ claimWords lowered) :
    ' ' ∉ w := by
  intro hc
  rcases List.mem_append.1 (List.mem_of_mem_tail h) with hw | hw
  · exact absurd (free_of_mem_words hw _ hc) (by decide)
  · rw [List.mem_singleton.1 hw] at hc
    exact absurd hc (by decide)

theorem sep_not_mem_claimHead {lowered : String} : ' ' ∉ claimHead lowered := by
  intro hc
  rw [claimHead] at hc
  rcases List.mem_append.1 (List.head_mem _) with hw | hw
  · exact absurd (free_of_mem_words hw _ hc) (by decide)
  · rw [List.mem_singleton.1 hw] at hc
    exact absurd hc (by decide)

/-! ### The key of a claim -/

/-- **A term is found exactly if it is a word of the claim, and not the first.** -/
theorem found_iff (hT : LowersWords T) (hterm : Small term) {x : String} (hx : Small x) :
    (endsWith (loweredClaim T (s ++ " is " ++ x)) (" " ++ term) ||
        containsText (loweredClaim T (s ++ " is " ++ x)) (" " ++ term ++ " ")) = true ↔
      term.toList ∈ claimWords (T.lower s) ++ [x.toList] := by
  have hneedle : (" " ++ term).toList = ' ' :: term.toList := by simp
  have hneedle' : (" " ++ term ++ " ").toList = (' ' :: term.toList) ++ [' '] := by simp
  have hsep : ∀ w ∈ claimWords (T.lower s) ++ [x.toList], ' ' ∉ w := by
    intro w hw
    rcases List.mem_append.1 hw with hw | hw
    · exact sep_not_mem_claimWords hw
    · rw [List.mem_singleton.1 hw]
      exact hx.sep_not_mem
  have hcontains : ∀ l sub : List Char, l.tails.any sub.isPrefixOf = true ↔ sub <:+: l := by
    intro l sub
    rw [List.any_eq_true]
    simp only [List.mem_tails, List.isPrefixOf_iff_prefix, List.infix_iff_prefix_suffix, and_comm]
  rw [Bool.or_eq_true, endsWith, containsText, hcontains, List.isSuffixOf_iff_suffix, hneedle,
    hneedle', ← infix_append_singleton, toList_loweredClaim hT hx,
    ← sep_infix_iff hterm.sep_not_mem sep_not_mem_claimHead hsep]
  rfl

/-- The subject that is left when a term is replaced. -/
def subjectOf (lowered x term : String) : List Char :=
  claimHead lowered ++ replaceFirst (' ' :: term.toList) " <state>".toList
    ((claimWords lowered ++ [x.toList]).flatMap (' ' :: ·))

/-- The key of a claim, read off its words. -/
theorem oppositionKey_claim (hT : LowersWords T) {x : String} (hx : Small x) :
    oppositionKey T (s ++ " is " ++ x) =
      (oppositionTerms.find? fun t =>
        decide (t.1.toList ∈ claimWords (T.lower s) ++ [x.toList])).map fun t =>
          (String.ofList (subjectOf (T.lower s) x t.1), t.2) := by
  have hfind : oppositionTerms.find? (fun t =>
        endsWith (loweredClaim T (s ++ " is " ++ x)) (" " ++ t.1) ||
          containsText (loweredClaim T (s ++ " is " ++ x)) (" " ++ t.1 ++ " ")) =
      oppositionTerms.find? fun t =>
        decide (t.1.toList ∈ claimWords (T.lower s) ++ [x.toList]) := by
    refine List.find?_congr fun t ht => ?_
    rw [Bool.eq_iff_iff, found_iff hT (small_of_mem ht) hx, decide_eq_true_eq]
  change (oppositionTerms.find? (fun t =>
      endsWith (loweredClaim T (s ++ " is " ++ x)) (" " ++ t.1) ||
        containsText (loweredClaim T (s ++ " is " ++ x)) (" " ++ t.1 ++ " "))).map (fun t =>
      (String.ofList (replaceFirst (" " ++ t.1).toList " <state>".toList
        (loweredClaim T (s ++ " is " ++ x)).toList), t.2)) = _
  rw [hfind]
  refine Option.map_congr fun t _ => ?_
  have hneedle : (" " ++ t.1).toList = ' ' :: t.1.toList := by simp
  rw [hneedle, toList_loweredClaim hT hx, replaceFirst_append sep_not_mem_claimHead, subjectOf]

/-! ### Opposed claims -/

/-- A pair of terms in their order: `before` is looked for before them. -/
structure PairAt (p n : String) (before : List (String × Polarity)) : Prop where
  terms : oppositionTerms =
    before ++ (p, .positive) :: (n, .negative) :: oppositionTerms.drop (before.length + 2)
  positive : Small p
  negative : Small n
  ne : p ≠ n
  fresh : ∀ t ∈ before, t.1 ≠ p ∧ t.1 ≠ n
  noState : p.toList ≠ "<state>".toList ∧ n.toList ≠ "<state>".toList

variable {p n : String} {before : List (String × Polarity)}

/-- The subjects are the same exactly if no word of the subject starts with one of the terms. -/
theorem subjectOf_eq_iff (h : PairAt p n before) (lowered : String) :
    subjectOf lowered p p = subjectOf lowered n n ↔
      ∀ w ∈ claimWords lowered, ¬ p.toList <+: w ∧ ¬ n.toList <+: w := by
  have hsep : ∀ w ∈ claimWords lowered, ' ' ∉ w := fun w hw => sep_not_mem_claimWords hw
  -- what the replaced claim ends in
  have hend : ∀ x, Small x → (' ' :: x.toList) <:+ subjectOf lowered x x ∨
      (∀ w ∈ claimWords lowered, ¬ x.toList <+: w) ∧
        subjectOf lowered x x =
          claimHead lowered ++ ((claimWords lowered).flatMap (' ' :: ·) ++ " <state>".toList) := by
    intro x hx
    by_cases hhit : ∃ w ∈ claimWords lowered, x.toList <+: w
    · left
      exact (suffix_replaceFirst hx.sep_not_mem hsep hhit).trans (List.suffix_append _ _)
    · right
      simp only [not_exists, not_and] at hhit
      refine ⟨hhit, ?_⟩
      rw [subjectOf, replaceFirst_last hx.sep_not_mem fun w hw => ⟨hsep w hw, hhit w hw⟩]
  have hstate : ∀ x, Small x → x.toList ≠ "<state>".toList → ∀ l : List Char,
      ¬ (' ' :: x.toList) <:+ l ++ " <state>".toList := by
    intro x hx hne l hsuffix
    exact hne (sep_suffix_unique hx.sep_not_mem (by decide) hsuffix (List.suffix_append _ _))
  constructor
  · intro heq
    rcases hend p h.positive with hp | ⟨hp, hpeq⟩
    · rcases hend n h.negative with hn | ⟨hn, hneq⟩
      · rw [heq] at hp
        have hsame := sep_suffix_unique h.positive.sep_not_mem h.negative.sep_not_mem hp hn
        exact absurd (String.toList_injective hsame) h.ne
      · rw [heq, hneq, ← List.append_assoc] at hp
        exact absurd hp (hstate p h.positive h.noState.1 _)
    · rcases hend n h.negative with hn | ⟨hn, -⟩
      · rw [← heq, hpeq, ← List.append_assoc] at hn
        exact absurd hn (hstate n h.negative h.noState.2 _)
      · exact fun w hw => ⟨hp w hw, hn w hw⟩
  · intro hnone
    rw [subjectOf, subjectOf,
      replaceFirst_last h.positive.sep_not_mem fun w hw => ⟨hsep w hw, (hnone w hw).1⟩,
      replaceFirst_last h.negative.sep_not_mem fun w hw => ⟨hsep w hw, (hnone w hw).2⟩]

/-- What the key of one of the two claims is, if no earlier term is a word of the subject. -/
theorem find?_pair (h : PairAt p n before) {A : List (List Char)} {x : String}
    (hx : x = p ∨ x = n) :
    oppositionTerms.find? (fun t => decide (t.1.toList ∈ A ++ [x.toList])) =
      (before.find? fun t => decide (t.1.toList ∈ A)).or
        (some (if x = p ∨ p.toList ∈ A then (p, .positive) else (n, .negative))) := by
  have hbefore : before.find? (fun t => decide (t.1.toList ∈ A ++ [x.toList])) =
      before.find? fun t => decide (t.1.toList ∈ A) := by
    refine List.find?_congr fun t ht => ?_
    have hne : t.1.toList ≠ x.toList := by
      intro heq
      rcases hx with rfl | rfl
      · exact (h.fresh t ht).1 (String.toList_injective heq)
      · exact (h.fresh t ht).2 (String.toList_injective heq)
    refine decide_eq_decide.2 ?_
    rw [List.mem_append, List.mem_singleton, or_iff_left hne]
  have hp : p.toList ∈ A ++ [x.toList] ↔ x = p ∨ p.toList ∈ A := by
    rw [List.mem_append, List.mem_singleton, or_comm, String.toList_inj, eq_comm]
  rw [h.terms, List.find?_append, hbefore, List.find?_cons]
  congr 1
  by_cases hcase : x = p ∨ p.toList ∈ A
  · rw [decide_eq_true (hp.2 hcase), if_pos hcase]
  · have hxn : x = n := hx.resolve_left fun hxp => hcase (.inl hxp)
    have hn : n.toList ∈ A ++ [x.toList] := by
      rw [hxn]
      exact List.mem_append_right _ (List.mem_singleton_self _)
    rw [decide_eq_false (mt hp.1 hcase), if_neg hcase, List.find?_cons, decide_eq_true hn]

theorem not_opposed_of_polarity {a b : String} {q : Polarity} :
    ¬ Opposed (some (a, q)) (some (b, q)) := by
  rintro ⟨subject, q₁, q₂, h₁, h₂, hne⟩
  have hq₁ := congrArg Prod.snd (Option.some.inj h₁)
  have hq₂ := congrArg Prod.snd (Option.some.inj h₂)
  exact hne (hq₁.symm.trans hq₂)

/-- **When the two claims of a subject are opposed**: no word of the subject but the first is an
earlier term or starts with one of the two terms. -/
theorem opposed_claims_iff (hT : LowersWords T) (h : PairAt p n before) :
    Opposed (oppositionKey T (s ++ " is " ++ p)) (oppositionKey T (s ++ " is " ++ n)) ↔
      ∀ w ∈ claimWords (T.lower s),
        (∀ t ∈ before, t.1.toList ≠ w) ∧ ¬ p.toList <+: w ∧ ¬ n.toList <+: w := by
  rw [oppositionKey_claim hT h.positive, oppositionKey_claim hT h.negative,
    find?_pair h (.inl rfl), find?_pair h (.inr rfl)]
  cases hearly : before.find? fun t => decide (t.1.toList ∈ claimWords (T.lower s)) with
  | some t =>
    -- both claims are read by the earlier term
    have ht := List.mem_of_find?_eq_some hearly
    have hmem : t.1.toList ∈ claimWords (T.lower s) := by simpa using List.find?_some hearly
    exact ⟨fun hopposed => absurd hopposed not_opposed_of_polarity,
      fun hall => absurd rfl ((hall _ hmem).1 t ht)⟩
  | none =>
    have hnone : ∀ w ∈ claimWords (T.lower s), ∀ t ∈ before, t.1.toList ≠ w := by
      intro w hw t ht heq
      have hfalse := List.find?_eq_none.1 hearly t ht
      exact hfalse (decide_eq_true (heq ▸ hw))
    rw [Option.none_or, Option.none_or, if_pos (.inl rfl)]
    by_cases hp : p.toList ∈ claimWords (T.lower s)
    · -- the second claim is read by the positive term as well
      rw [if_pos (.inr hp)]
      exact ⟨fun hopposed => absurd hopposed not_opposed_of_polarity,
        fun hall => absurd (List.prefix_refl _) (hall _ hp).2.1⟩
    · rw [if_neg (not_or.2 ⟨fun hnp => h.ne hnp.symm, hp⟩)]
      have hsubject := subjectOf_eq_iff h (T.lower s)
      constructor
      · rintro ⟨subject, q, q', hq, hq', -⟩
        have hsame := congrArg Prod.fst ((Option.some.inj hq).trans (congrArg
          (fun key : String × Polarity => (key.1, q)) (Option.some.inj hq').symm))
        exact fun w hw => ⟨hnone w hw, hsubject.1 (String.ofList_injective hsame) w hw⟩
      · intro hall
        refine ⟨_, .positive, .negative, rfl, ?_, by decide⟩
        rw [hsubject.2 fun w hw => (hall w hw).2]
        rfl

/-! ### The pairs of the program -/

theorem pairAt (h : (p, n) ∈ opposedPairs) :
    PairAt p n (oppositionTerms.takeWhile fun t => t.1 ≠ p) := by
  simp only [opposedPairs, List.mem_cons, Prod.mk.injEq, List.not_mem_nil, or_false] at h
  rcases h with ⟨rfl, rfl⟩ | ⟨rfl, rfl⟩ | ⟨rfl, rfl⟩ | ⟨rfl, rfl⟩ <;>
    exact ⟨by decide, by decide, by decide, by decide, by decide, by decide⟩

/-- The word between subject and term is passed over. -/
theorem is_passed (h : (p, n) ∈ opposedPairs) :
    (∀ t ∈ oppositionTerms.takeWhile fun t => t.1 ≠ p, t.1.toList ≠ "is".toList) ∧
      ¬ p.toList <+: "is".toList ∧ ¬ n.toList <+: "is".toList := by
  have hall : ∀ pair ∈ opposedPairs,
      (∀ t ∈ oppositionTerms.takeWhile fun t => t.1 ≠ pair.1, t.1.toList ≠ "is".toList) ∧
        ¬ pair.1.toList <+: "is".toList ∧ ¬ pair.2.toList <+: "is".toList := by decide
  exact hall (p, n) h

/-- The words of a subject without the first, and the words of the claim without the first. -/
theorem forall_claimWords {P : List Char → Prop} {lowered : String} (his : P "is".toList) :
    (∀ w ∈ claimWords lowered, P w) ↔ ∀ w ∈ laterWords lowered, P w.toList := by
  rw [claimWords, laterWords]
  cases words isSpace lowered.toList with
  | nil => simp
  | cons first rest =>
    rw [List.cons_append, List.tail_cons, List.tail_cons, List.forall_mem_append,
      List.forall_mem_map]
    simp only [String.toList_ofList, List.mem_singleton, forall_eq, his, and_true]

variable (T) (H : Host)

/-- The check of a proposal with the second claim blocks while a record with the first is active. -/
def BlocksAfter (first second : String) : Prop :=
  ∀ (db : Db) (q : MemoryWrite) (records : List MemoryRecord) (m : MemoryRecord),
    db.listMemory H {} = .ok records → m ∈ records → m.claim = first → q.claim = second →
      ∃ f ∈ contradictions T H db q, f = contradictionFinding m.id ∧ f.severity = .block

variable {T H}

theorem blocksAfter_of_opposed {first second : String}
    (h : Opposed (oppositionKey T first) (oppositionKey T second)) :
    BlocksAfter T H first second := by
  intro db q records m hrecords hm hfirst hsecond
  obtain ⟨subject, a, b, ha, hb, hne⟩ := h
  have hopposed : Opposed (oppositionKey T q.claim) (oppositionKey T m.claim) := by
    rw [hfirst, hsecond]
    exact ⟨subject, b, a, hb, ha, hne.symm⟩
  have hkey : oppositionKey T q.claim ≠ none := by
    rw [hsecond, hb]
    exact Option.some_ne_none _
  refine ⟨_, ?_, rfl, rfl⟩
  rw [contradictions, if_neg hkey, hrecords]
  exact List.mem_map_of_mem (List.mem_filter.2 ⟨hm, decide_eq_true hopposed⟩)

/-- **Opposed claims.**  The keys of the two claims of a subject are opposed, and the second is
blocked while the first is in an active record, exactly if no word of the lowered subject but the
first is a term that is looked for earlier or starts with one of the two terms. -/
theorem opposed_iff (hT : LowersWords T) (hpair : (p, n) ∈ opposedPairs) (s : String) :
    (Opposed (oppositionKey T (s ++ " is " ++ p)) (oppositionKey T (s ++ " is " ++ n)) ∧
        BlocksAfter T H (s ++ " is " ++ p) (s ++ " is " ++ n)) ↔
      ∀ w ∈ laterWords (T.lower s),
        w ∉ earlierTerms p ∧ startsWith w p = false ∧ startsWith w n = false := by
  have hbefore : (oppositionTerms.takeWhile fun t => t.1 ≠ p).map Prod.fst = earlierTerms p := by
    rw [earlierTerms, List.takeWhile_map]
    rfl
  have hopposed := @opposed_claims_iff T s p n _ hT (pairAt hpair)
  rw [forall_claimWords (is_passed hpair)] at hopposed
  have hcondition : (∀ w ∈ laterWords (T.lower s),
      (∀ t ∈ oppositionTerms.takeWhile fun t => t.1 ≠ p, t.1.toList ≠ w.toList) ∧
        ¬ p.toList <+: w.toList ∧ ¬ n.toList <+: w.toList) ↔
      ∀ w ∈ laterWords (T.lower s),
        w ∉ earlierTerms p ∧ startsWith w p = false ∧ startsWith w n = false := by
    refine forall_congr' fun w => forall_congr' fun _ => and_congr ?_ (and_congr ?_ ?_)
    · rw [← hbefore, List.mem_map]
      simp only [ne_eq, String.toList_inj, not_exists, not_and]
    · rw [startsWith, Bool.eq_false_iff, ne_eq, List.isPrefixOf_iff_prefix]
    · rw [startsWith, Bool.eq_false_iff, ne_eq, List.isPrefixOf_iff_prefix]
  rw [← hcondition, ← hopposed]
  exact ⟨fun h => h.1, fun h => ⟨h, blocksAfter_of_opposed h⟩⟩

theorem lowersWords_ascii : LowersWords TextTools.ascii where
  space s t := by
    apply String.toList_injective
    simp [TextTools.ascii]
  small s hs := by
    apply String.toList_injective
    have hmap : ∀ c ∈ s.toList, Char.toLower c = c := by
      intro c hc
      have hlow : 'a' ≤ c := (hs c hc).1
      rw [Char.toLower, dif_neg]
      rintro ⟨-, hhigh⟩
      exact absurd (hlow.trans hhigh) (by decide)
    have hlist : (TextTools.ascii.lower s).toList = s.toList.map Char.toLower := by
      simp [TextTools.ascii]
    rw [hlist, List.map_congr_left hmap, List.map_id']

/-- A service that is on and off. -/
theorem opposed_iff_service :
    (Opposed (oppositionKey TextTools.ascii ("the service" ++ " is " ++ "on"))
          (oppositionKey TextTools.ascii ("the service" ++ " is " ++ "off")) ∧
        BlocksAfter TextTools.ascii (Host.plain id) ("the service" ++ " is " ++ "on")
          ("the service" ++ " is " ++ "off")) ↔
      ∀ w ∈ laterWords (TextTools.ascii.lower "the service"),
        w ∉ earlierTerms "on" ∧ startsWith w "on" = false ∧ startsWith w "off" = false :=
  opposed_iff lowersWords_ascii (by decide) "the service"

/-- The word `online` of a subject is taken for the term. -/
theorem online_not_opposed : ¬ ∀ (s p n : String), (p, n) ∈ opposedPairs → strip s = s →
    endsWith s "." = false →
      Opposed (oppositionKey TextTools.ascii (s ++ " is " ++ p))
        (oppositionKey TextTools.ascii (s ++ " is " ++ n)) := by
  intro h
  exact absurd (h "rollout for online users" "on" "off" (by decide) (by decide +kernel)
    (by decide +kernel)) (by decide +kernel)

end Shiroe

import Shiroe.Lib.Ranking
import Shiroe.Memory.Reads
import Shiroe.Verification.Review

/-!
# Searching the memory

`memory/search.py` and the search of `memory/recall.py`: the records that `list` returns are scored
by the words that they share with the query, and ranked by a key that ends with the id.  The time of
the last change takes part in the key with its digits inverted.

* `search_spec` : a search returns the first records of one ranking, whatever order the rows were
  inserted in;
* `search_skips_archived` : archived records are not searched, also when they are asked for.
-/

namespace Shiroe

open Act Ranking

/-- What tokenising takes from outside: `unicodedata.normalize("NFKC", ·)`, `str.lower`, and the
characters of the class `\w`. -/
structure WordTools where
  normalize : String → String
  lower : String → String
  isWord : Char → Bool

/-- What tokenising takes from outside for ASCII texts. -/
def WordTools.ascii : WordTools where
  normalize s := s
  lower s := s.map Char.toLower
  isWord c := c.isAlphanum || c = '_'

variable (W : WordTools) (H : Host)

/-- `_tokens`. -/
def WordTools.tokens (text : String) : List String :=
  ((((W.lower (W.normalize text)).toList.splitOnP fun c => !W.isWord c).filter (· ≠ [])).map
    String.ofList).eraseDups

/-- `_overlap_score`. -/
def overlapScore (queryTokens : Finset String) (candidate : String) : ℕ :=
  (queryTokens ∩ (W.tokens candidate).toFinset).card

/-- The tags of a record, `tuple(json.loads(tags_json))`; `join` takes texts only. -/
def MemoryRecord.tagWords (m : MemoryRecord) : Except Exc (List String) :=
  match Json.loads (withoutBlanks false m.tags.toList) with
  | none => .error (.jsonDecode m.tags)
  | some j => do (← j.items).mapM fun tag => tag.str?.elim (.error .typeError) .ok

/-- `_candidate_text`. -/
def candidateText (m : MemoryRecord) (tags : List String) : String :=
  " ".intercalate ([m.title, m.claim, m.summary, " ".intercalate tags].filter (· ≠ ""))

/-- `_reverse_timestamp`. -/
def reverseTimestamp (value : String) : String := String.ofList (invertDigits value.toList)

/-- `SearchHit`. -/
structure SearchHit where
  record : MemoryRecord
  score : ℕ
  why : String
  deriving DecidableEq

/-- `SearchResult`; the tokens are a set. -/
structure SearchResult where
  query : String
  tokens : Finset String
  hits : List SearchHit
  abstained : Bool

/-- The arguments of `search_memory`. -/
structure SearchArgs where
  query : String
  limit : ℤ := 10
  kinds : Option (List String) := none
  statuses : List String := ["active"]
  asOf : Option String := none

namespace SearchArgs

variable (a : SearchArgs)

/-- What `list` is called with. -/
def listed : ListArgs where
  kinds := a.kinds.getD []
  statuses := a.statuses

/-- `set(_tokens(query))`. -/
def queryTokens : Finset String := (W.tokens a.query).toFinset

end SearchArgs

namespace SearchHit

variable (h : SearchHit)

/-- `record.status == "active" and not record.archived`. -/
def active : Bool := h.record.status = "active" && !h.record.archived

/-- The key by which the hits are sorted. -/
def key : String ×ₗ ℤ ×ₗ String ×ₗ String :=
  toLex (if h.active then "0" else "1", toLex (-(h.score : ℤ),
    toLex (reverseTimestamp h.record.updatedAt, h.record.id)))

end SearchHit

/-- The hit that a record is, if it shares a word with the query. -/
def hitOf (queryTokens : Finset String) (m : MemoryRecord) : Except Exc (Option SearchHit) := do
  let score := overlapScore W queryTokens (candidateText m (← m.tagWords))
  return if score = 0 then none else some {
    record := m
    score
    why := String.ofList (Nat.toDigits 10 score) ++
      " unique query token(s) overlapped canonical memory text" }

/-- `search_memory`. -/
def Db.searchMemory (db : Db) (a : SearchArgs) : Except Exc SearchResult := do
  let queryTokens := a.queryTokens W
  if queryTokens = ∅ ∨ a.limit ≤ 0 then
    return { query := a.query, tokens := queryTokens, hits := [], abstained := true }
  else
    let records ← db.listMemory H a.listed
    let hits ← records.mapM (hitOf W queryTokens)
    let selected := (ranked SearchHit.key hits.reduceOption).take a.limit.toNat
    return { query := a.query, tokens := queryTokens, hits := selected, abstained := selected = [] }

/-- The search of `recall`. -/
def recallArgs (query : String) (limit : ℤ) (atomType status : Option String) : SearchArgs where
  query := query
  limit := limit
  kinds := (given atomType).map ([·])
  statuses := (given status).elim ["active", "superseded", "archived", "disputed", "stale"] ([·])

/-! ### The order of the rows -/

/-- What the primary keys of the two tables promise: the ids are texts, and no two rows have one
id. -/
structure Db.Keyed (db : Db) : Prop where
  texts : ∀ r ∈ db.memoryRecords, ∃ s, r.id = .text s
  records : (db.memoryRecords.map (·.id)).Nodup
  sourceTexts : ∀ r ∈ db.memorySources, ∃ s, r.id = .text s
  sources : (db.memorySources.map (·.id)).Nodup

/-- The tables hold the same records and sources, inserted in some other order. -/
structure Db.Reordered (db db' : Db) : Prop where
  records : db'.memoryRecords.Perm db.memoryRecords
  sources : db'.memorySources.Perm db.memorySources

/-- `ORDER BY updated_at DESC, id ASC` as a key. -/
def RecordRow.listKey (r : RecordRow) : Stringᵒᵈ ×ₗ String :=
  toLex (OrderDual.toDual (r.updatedAt.text?.getD ""), r.id.text?.getD "")

theorem listLe_iff {r r' : RecordRow} : ListLe r r' ↔ r.listKey ≤ r'.listKey := by
  rw [ListLe, RecordRow.listKey, RecordRow.listKey, Prod.Lex.toLex_le_toLex,
    OrderDual.toDual_lt_toDual, OrderDual.toDual_inj, eq_comm]

variable {H} {db db' : Db}

theorem Db.Keyed.eq_of_id (hk : db.Keyed) {r r' : RecordRow} (hr : r ∈ db.memoryRecords)
    (hr' : r' ∈ db.memoryRecords) (h : r.id = r'.id) : r = r' :=
  List.inj_on_of_nodup_map hk.records hr hr' h

theorem Db.Keyed.eq_of_idText (hk : db.Keyed) {r r' : RecordRow} (hr : r ∈ db.memoryRecords)
    (hr' : r' ∈ db.memoryRecords) (h : r.id.text?.getD "" = r'.id.text?.getD "") : r = r' := by
  obtain ⟨s, hs⟩ := hk.texts r hr
  obtain ⟨s', hs'⟩ := hk.texts r' hr'
  rw [hs, hs'] at h
  exact hk.eq_of_id hr hr' (by rw [hs, hs']; exact congrArg _ h)

/-- The rows that `list` reads come in one order. -/
theorem listed_reordered (hk : db.Keyed) (h : db.Reordered db') (a : ListArgs) :
    db'.listed a = db.listed a := by
  have hkey : ∀ l : List RecordRow, l.insertionSort ListLe = ranked RecordRow.listKey l := by
    intro l
    have hmap := List.map_insertionSort (r := ListLe)
      (s := fun r r' : RecordRow => r.listKey ≤ r'.listKey) id l fun _ _ _ _ => listLe_iff
    rwa [List.map_id, List.map_id] at hmap
  have hdistinct : Distinct RecordRow.listKey (db.memoryRecords.filter fun r => a.Selects r) := by
    intro r hr r' hr' heq
    have hid := (Prod.mk.inj (toLex.injective heq)).2
    exact hk.eq_of_idText (List.mem_filter.1 hr).1 (List.mem_filter.1 hr').1 hid
  have hsort : (db'.memoryRecords.filter fun r => a.Selects r).insertionSort ListLe =
      (db.memoryRecords.filter fun r => a.Selects r).insertionSort ListLe := by
    rw [hkey, hkey]
    exact ranked_eq_of_perm hdistinct (h.records.filter _)
  unfold Db.listed
  rw [hsort]

/-- The sources of a record come in one order. -/
theorem sourceRefs_reordered (hk : db.Keyed) (h : db.Reordered db') (memoryId : String) :
    db'.sourceRefs memoryId = db.sourceRefs memoryId := by
  have hdistinct : Distinct (fun r : SourceRow => r.id.text?.getD "")
      (db.memorySources.filter fun r => r.memoryId = .text memoryId) := by
    intro r hr r' hr' heq
    obtain ⟨s, hs⟩ := hk.sourceTexts r (List.mem_filter.1 hr).1
    obtain ⟨s', hs'⟩ := hk.sourceTexts r' (List.mem_filter.1 hr').1
    refine List.inj_on_of_nodup_map hk.sources (List.mem_filter.1 hr).1 (List.mem_filter.1 hr').1 ?_
    simp only [hs, hs', SqlVal.text?, Option.getD_some] at heq ⊢
    rw [heq]
  exact congrArg (List.map _) (ranked_eq_of_perm hdistinct (h.sources.filter _))

theorem listMemory_reordered (hk : db.Keyed) (h : db.Reordered db') (a : ListArgs) :
    db'.listMemory H a = db.listMemory H a := by
  have hrow : db'.recordFromRow H = db.recordFromRow H := by
    funext r
    unfold Db.recordFromRow
    simp only [sourceRefs_reordered hk h]
  unfold Db.listMemory
  rw [listed_reordered hk h, hrow]

/-! ### The ranking -/

/-- The first time is the later one, by the texts with their digits inverted. -/
def Later (s t : String) : Prop := reverseTimestamp s < reverseTimestamp t

/-- **Times of one shape compare as the texts do.** -/
theorem later_iff {s t : String} (h : SameShape s.toList t.toList) : Later s t ↔ t < s := by
  rw [Later, String.lt_iff_toList_lt, String.lt_iff_toList_lt, reverseTimestamp, reverseTimestamp,
    String.toList_ofList, String.toList_ofList]
  exact invertDigits_lt_iff h

/-- The order of the hits: active records first, then the greater overlap, then the later change,
then the id. -/
def SearchHit.Precedes (h h' : SearchHit) : Prop :=
  (h.active = true ∧ h'.active = false) ∨ h.active = h'.active ∧
    (h'.score < h.score ∨ h.score = h'.score ∧
      (Later h.record.updatedAt h'.record.updatedAt ∨
        h.record.updatedAt = h'.record.updatedAt ∧ h.record.id ≤ h'.record.id))

theorem reverseTimestamp_inj {s t : String} :
    reverseTimestamp s = reverseTimestamp t ↔ s = t := by
  rw [reverseTimestamp, reverseTimestamp, String.ofList_inj, invertDigits_inj, String.toList_inj]

theorem SearchHit.key_le_iff {h h' : SearchHit} : h.key ≤ h'.key ↔ h.Precedes h' := by
  have hrank : ∀ b b' : Bool,
      ((if b then "0" else "1") < (if b' then "0" else "1") ↔ b = true ∧ b' = false) ∧
      ((if b then "0" else "1") = (if b' then "0" else "1") ↔ b = b') := by decide
  simp only [SearchHit.key, Prod.Lex.toLex_le_toLex, SearchHit.Precedes, Later, hrank,
    neg_lt_neg_iff, neg_inj, Nat.cast_lt, Nat.cast_inj, reverseTimestamp_inj]

/-- The hits of a search, in the order of the rows of the table. -/
def Db.found (db : Db) (a : SearchArgs) : List SearchHit :=
  (db.memoryRecords.filter fun r => a.listed.Selects r).filterMap fun r =>
    (db.recordFromRow H r).toOption.bind fun m => (hitOf W (a.queryTokens W) m).toOption.join

variable {W} {a : SearchArgs}

theorem mem_found {h : SearchHit} : h ∈ db.found W (H := H) a ↔ ∃ r ∈ db.memoryRecords,
    a.listed.Selects r ∧ ∃ m, db.recordFromRow H r = .ok m ∧
      hitOf W (a.queryTokens W) m = .ok (some h) := by
  simp only [Db.found, List.mem_filterMap, List.mem_filter, decide_eq_true_eq, and_assoc]
  refine exists_congr fun r => and_congr_right fun _ => and_congr_right fun _ => ?_
  cases db.recordFromRow H r with
  | error x => simp [Except.toOption]
  | ok m =>
    cases hm : hitOf W (a.queryTokens W) m with
    | error x => simp [Except.toOption, hm]
    | ok o => simp [Except.toOption, hm]

/-- A hit is the record that it was made from. -/
theorem record_hitOf {q : Finset String} {m : MemoryRecord} {h : SearchHit}
    (hm : hitOf W q m = .ok (some h)) : h.record = m := by
  obtain ⟨words, -, hm⟩ := except_bind_eq_ok.1 hm
  dsimp only at hm
  split_ifs at hm with hscore
  · cases hm
  · cases hm
    rfl

theorem id_recordFromRow {r : RecordRow} {m : MemoryRecord} (h : db.recordFromRow H r = .ok m) :
    m.id = pyStr r.id.read := by
  obtain ⟨x, -, h⟩ := except_bind_eq_ok.1 h
  obtain ⟨n, -, h⟩ := except_bind_eq_ok.1 h
  obtain ⟨s, -, h⟩ := except_bind_eq_ok.1 h
  cases h
  rfl

/-- No two hits have one key: their records have different ids. -/
theorem found_distinct (hk : db.Keyed) : Distinct SearchHit.key (db.found W (H := H) a) := by
  intro h hh h' hh' heq
  obtain ⟨r, hr, -, m, hm, hhit⟩ := mem_found.1 hh
  obtain ⟨r', hr', -, m', hm', hhit'⟩ := mem_found.1 hh'
  have hid : h.record.id = h'.record.id := by
    have hkey := heq
    simp only [SearchHit.key, EmbeddingLike.apply_eq_iff_eq, Prod.mk.injEq] at hkey
    exact hkey.2.2.2
  obtain ⟨s, hs⟩ := hk.texts r hr
  obtain ⟨s', hs'⟩ := hk.texts r' hr'
  rw [record_hitOf hhit, record_hitOf hhit', id_recordFromRow hm, id_recordFromRow hm', hs, hs']
    at hid
  obtain rfl := hk.eq_of_id hr hr' (by rw [hs, hs']; exact congrArg _ hid)
  rw [hm] at hm'
  cases hm'
  rw [hhit] at hhit'
  cases hhit'
  rfl

/-- What is made of the rows one after the other is made of them all. -/
theorem reduceOption_of_mapM {α β γ : Type} {f : α → Except Exc β} {g : β → Except Exc (Option γ)}
    {l : List α} {bs : List β} {cs : List (Option γ)} (hf : l.mapM f = .ok bs)
    (hg : bs.mapM g = .ok cs) : cs.reduceOption =
      l.filterMap fun a => (f a).toOption.bind fun b => (g b).toOption.join := by
  rw [except_mapM_eq_ok] at hf hg
  induction hf generalizing cs with
  | nil =>
    cases hg
    rfl
  | @cons a b l bs hab _ ih =>
    cases hg with
    | @cons _ c _ cs hbc hcs =>
      rw [List.filterMap_cons, hab]
      simp only [Except.toOption, Option.bind_some, hbc, Option.join_some]
      cases c with
      | none => exact (List.reduceOption_cons_of_none cs).trans (ih hcs)
      | some c => exact (List.reduceOption_cons_of_some c cs).trans (congrArg (c :: ·) (ih hcs))

/-- **A search ranks what it found and cuts the ranking off.** -/
theorem hits_searchMemory (hk : db.Keyed) {res : SearchResult}
    (h : db.searchMemory W H a = .ok res) :
    res.hits = (ranked SearchHit.key (db.found W (H := H) a)).take a.limit.toNat := by
  unfold Db.searchMemory at h
  dsimp only at h
  split_ifs at h with hnone
  · cases h
    rcases hnone with hq | hlimit
    · -- without a word in the query no record shares one
      have hnil : db.found W (H := H) a = [] := by
        refine List.eq_nil_iff_forall_not_mem.2 fun hit hmem => ?_
        obtain ⟨r, -, -, m, -, hhit⟩ := mem_found.1 hmem
        obtain ⟨words, -, hhit⟩ := except_bind_eq_ok.1 hhit
        have hzero : overlapScore W ∅ (candidateText m words) = 0 := by
          rw [overlapScore, Finset.empty_inter, Finset.card_empty]
        dsimp only at hhit
        rw [hq, hzero, if_pos rfl] at hhit
        cases hhit
      rw [hnil]
      exact List.take_nil.symm
    · rw [Int.toNat_of_nonpos hlimit, List.take_zero]
  · obtain ⟨records, hlist, h⟩ := except_bind_eq_ok.1 h
    obtain ⟨hits, hhits, h⟩ := except_bind_eq_ok.1 h
    cases h
    obtain ⟨-, -, hlist⟩ := except_bind_eq_ok.1 hlist
    obtain ⟨-, -, hlist⟩ := except_bind_eq_ok.1 hlist
    refine congrArg (List.take _) (ranked_eq_of_perm (found_distinct hk) ?_)
    rw [reduceOption_of_mapM hlist hhits]
    exact (List.perm_insertionSort ListLe _).filterMap _

/-- A search returns when the records that it lists can be read. -/
theorem searchMemory_returns {records : List MemoryRecord}
    (hlist : db.listMemory H a.listed = .ok records)
    (hwords : ∀ m ∈ records, ∃ words, m.tagWords = .ok words) :
    ∃ res, db.searchMemory W H a = .ok res := by
  unfold Db.searchMemory
  dsimp only
  split_ifs
  · exact ⟨_, rfl⟩
  · obtain ⟨hits, hhits, -⟩ := mapM_eq_ok (f := hitOf W (a.queryTokens W)) (l := records)
      fun m hm => by
        obtain ⟨words, hw⟩ := hwords m hm
        exact ⟨_, except_bind_eq_ok.2 ⟨words, hw, rfl⟩⟩
    exact ⟨_, except_bind_eq_ok.2 ⟨records, hlist, except_bind_eq_ok.2 ⟨hits, hhits, rfl⟩⟩⟩

theorem archived_recordFromRow {r : RecordRow} {m : MemoryRecord}
    (h : db.recordFromRow H r = .ok m) : m.archived = r.archived.read.truthy := by
  obtain ⟨x, -, h⟩ := except_bind_eq_ok.1 h
  obtain ⟨n, -, h⟩ := except_bind_eq_ok.1 h
  obtain ⟨s, -, h⟩ := except_bind_eq_ok.1 h
  cases h
  rfl

/-- **Archived records are not searched**, whatever statuses are asked for. -/
theorem search_skips_archived (hk : db.Keyed) {res : SearchResult}
    (h : db.searchMemory W H a = .ok res) : ∀ hit ∈ res.hits, hit.record.archived = false := by
  intro hit hmem
  rw [hits_searchMemory hk h] at hmem
  obtain ⟨r, -, ⟨-, -, hsel⟩, m, hm, hhit⟩ :=
    mem_found.1 (mem_ranked.1 (List.mem_of_mem_take hmem))
  have harch : r.archived = .int 0 := hsel.resolve_left Bool.false_ne_true
  rw [record_hitOf hhit, archived_recordFromRow hm, harch]
  rfl

/-! ### The specification -/

/-- What a search returns. -/
structure SearchSpec (W : WordTools) (H : Host) (db : Db) (a : SearchArgs) : Prop where
  /-- It returns when the records that it lists can be read. -/
  returns : ∀ records, db.listMemory H a.listed = .ok records →
    (∀ m ∈ records, ∃ words, m.tagWords = .ok words) → ∃ res, db.searchMemory W H a = .ok res
  /-- The hits are the first of all that are found, in the one order. -/
  ranking : ∀ res, db.searchMemory W H a = .ok res → ∃ ranking : List SearchHit,
    ranking.Perm (db.found W (H := H) a) ∧ ranking.Pairwise SearchHit.Precedes ∧
      res.hits = ranking.take a.limit.toNat
  /-- A search for one more hit returns the same hits first. -/
  extends_hits : ∀ res res', db.searchMemory W H a = .ok res →
    db.searchMemory W H { a with limit := a.limit + 1 } = .ok res' → res.hits <+: res'.hits
  /-- The order in which the rows were inserted does not matter. -/
  reordered : ∀ db', db.Reordered db' → db'.searchMemory W H a = db.searchMemory W H a
  /-- Of two times with their digits at the same places, the later one is the greater text. -/
  times : ∀ s t : String, SameShape s.toList t.toList → (Later s t ↔ t < s)

/-- **A search returns the first records of one ranking** of all unarchived records that share a
word with the query and have one of the kinds and one of the statuses, where any are given. -/
theorem search_spec (hk : db.Keyed) (_ : a.asOf = none) : SearchSpec W H db a where
  returns _ hlist hwords := searchMemory_returns hlist hwords
  ranking res h := by
    have hsorted : (ranked SearchHit.key (db.found W (H := H) a)).Pairwise
        fun hit hit' => hit.key ≤ hit'.key := ranked_sorted _
    exact ⟨_, ranked_perm _, hsorted.imp SearchHit.key_le_iff.1, hits_searchMemory hk h⟩
  extends_hits res res' h h' := by
    have hfound : db.found W (H := H) { a with limit := a.limit + 1 } =
        db.found W (H := H) a := rfl
    rw [hits_searchMemory hk h, hits_searchMemory hk h', hfound]
    exact List.take_prefix_take_left (by simp only; omega)
  reordered db' h := by
    unfold Db.searchMemory
    rw [listMemory_reordered hk h]
  times s t h := later_iff h

/-! ### Records that are asked for -/

/-- A record about the owner of the reports. -/
def ownerRow (status : String) (archived : ℤ) : RecordRow where
  id := .text "mem_1"
  kind := .text "fact"
  title := .text "Owner"
  claim := .text "Reports go to the owner"
  summary := .text ""
  status := .text status
  confidence := .text "unknown"
  evidenceGrade := .text "A"
  privacyClass := .text "internal"
  authority := .int 0
  scope := .text "project"
  validFrom := .null
  validUntil := .null
  createdAt := .text "2026-01-01T00:00:00+00:00"
  updatedAt := .text "2026-01-01T00:00:00+00:00"
  owner := .text "shiroe"
  schemaVersion := .int 2
  archived := .int archived
  tagsJson := .text "[]"

/-- A memory with one record. -/
def ownerDb (status : String) (archived : ℤ) : Db :=
  { memoryRecords := [ownerRow status archived] }

theorem keyed_ownerDb (status : String) (archived : ℤ) : (ownerDb status archived).Keyed where
  texts := by
    intro r hr
    rw [List.mem_singleton.1 hr]
    exact ⟨_, rfl⟩
  records := List.nodup_singleton _
  sourceTexts _ hr := absurd hr List.not_mem_nil
  sources := List.nodup_nil

/-- An untitled record under an id, with a claim and the time of its last change. -/
def claimRow (memoryId claim updatedAt : String) : RecordRow :=
  { ownerRow "active" 0 with
    id := .text memoryId
    title := .text ""
    claim := .text claim
    updatedAt := .text updatedAt }

/-- A memory of six records: one is archived, one superseded, and one of another kind. -/
def reportsDb : Db where
  memoryRecords := [
    claimRow "m1" "pay" "2026-01-05",
    claimRow "m2" "ask pay" "2026-01-01",
    { claimRow "m3" "ask pay" "2026-01-06" with archived := .int 1 },
    { claimRow "m4" "ask pay" "2026-01-07" with kind := .text "decision" },
    claimRow "m5" "pay, ask" "2026-01-02",
    { claimRow "m6" "ask pay" "2026-01-08" with status := .text "superseded" }]

theorem keyed_reportsDb : reportsDb.Keyed where
  texts := by
    intro r hr
    have htext : r.id.text?.isSome = true := by
      revert r
      decide
    cases hid : r.id with
    | text s => exact ⟨s, rfl⟩
    | _ =>
      rw [hid] at htext
      cases htext
  records := by decide
  sourceTexts _ hr := absurd hr List.not_mem_nil
  sources := List.nodup_nil

/-- The first two facts that share a word with two words. -/
def reportsSearch : SearchArgs := { query := "pay ask", kinds := some ["fact"], limit := 2 }

/-- The search for two words among six records: three are left out by their kind, by their status or
because they are archived, and the words rank the other three, which share one or two of them. -/
theorem search_spec_reports :
    SearchSpec .ascii (Host.quick id) reportsDb reportsSearch ∧
      (reportsDb.listed reportsSearch.listed).map (fun r => (r.id, r.claim)) =
        [(.text "m1", .text "pay"), (.text "m5", .text "pay, ask"), (.text "m2", .text "ask pay")] ∧
      reportsSearch.queryTokens .ascii = {"pay", "ask"} ∧
      ["pay", "pay, ask", "ask pay"].map (overlapScore .ascii {"pay", "ask"}) = [1, 2, 2] :=
  ⟨search_spec keyed_reportsDb rfl, by decide +kernel, by decide +kernel, by decide +kernel⟩

variable (W H) in
/-- What shares a word with the query among the records of the kinds and statuses given, archived
or not. -/
def Db.asked (db : Db) (a : SearchArgs) : List SearchHit :=
  (db.memoryRecords.filter fun r => (∀ kinds ∈ a.kinds, r.kind ∈ kinds.map SqlVal.text) ∧
    r.status ∈ a.statuses.map SqlVal.text).filterMap fun r =>
      (db.recordFromRow H r).toOption.bind fun m => (hitOf W (a.queryTokens W) m).toOption.join

/-- The search for archived records, and the record that it is asked for. -/
theorem archived_run :
    ((ownerDb "archived" 1).searchMemory .ascii (Host.quick id)
      (recallArgs "owner" 5 none (some "archived"))).toOption.map (·.hits) = some [] ∧
    ((ownerDb "archived" 1).asked .ascii (Host.quick id)
      (recallArgs "owner" 5 none (some "archived"))).length = 1 := by
  decide +kernel

/-- **A search for archived records returns none**, though one matches. -/
theorem search_leaves_out_archived :
    ∃ (db : Db) (a : SearchArgs) (res : SearchResult), db.Keyed ∧ a.asOf = none ∧
      db.searchMemory .ascii (Host.quick id) a = .ok res ∧
        ¬ ∃ ranking : List SearchHit, ranking.Perm (db.asked .ascii (Host.quick id) a) ∧
          ranking.Pairwise SearchHit.Precedes ∧ res.hits = ranking.take a.limit.toNat := by
  obtain ⟨hrun, hone⟩ := archived_run
  refine ⟨ownerDb "archived" 1, recallArgs "owner" 5 none (some "archived"), ?_⟩
  cases hres : (ownerDb "archived" 1).searchMemory .ascii (Host.quick id)
      (recallArgs "owner" 5 none (some "archived")) with
  | error x =>
    rw [hres] at hrun
    cases hrun
  | ok res =>
    rw [hres] at hrun
    have hhits : res.hits = [] := Option.some.inj hrun
    refine ⟨res, keyed_ownerDb _ _, rfl, rfl, ?_⟩
    rintro ⟨ranking, hperm, -, hfirst⟩
    have hlen := congrArg List.length hfirst
    rw [hhits, List.length_take, hperm.length_eq, hone] at hlen
    cases hlen

end Shiroe

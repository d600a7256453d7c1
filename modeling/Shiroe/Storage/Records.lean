import Shiroe.Storage.Acceptance

/-!
# Memory records

`storage/records.py` and the writing half of `memory/service.py`: records are written, superseded
and archived through the log, and a proposal that is rejected leaves an event and no record.

* `writeRecord_synced`, `retireRecord_synced`, `writeMemory_synced` : the calls keep a world
  synced.
-/

namespace Shiroe

open Act

variable (H : Host)

/-- `SCHEMA_VERSION`. -/
def schemaVersion : ℤ := 2

/-- The float `0.0`. -/
def zeroFloat : Json := .float .zero

/-- `_RECORD_DEFAULTS`. -/
def recordDefaults : List (String × Json) :=
  [("summary", .str ""), ("status", .str "active"), ("confidence", .str "unknown"),
    ("evidence_grade", .str "unknown"), ("privacy_class", .str "internal"),
    ("authority", zeroFloat), ("scope", .str "project"), ("valid_from", .null),
    ("valid_until", .null), ("archived", .int 0), ("tags_json", .str "[]")]

/-- The arguments of `write_record`. -/
structure RecordArgs where
  id : String
  kind : String
  title : String
  claim : String
  owner : String
  timestamp : Option String := none
  /-- `**fields`. -/
  fields : List (String × Json) := []

namespace RecordArgs

variable (r : RecordArgs)

/-- `fields.pop("sources", None)`. -/
def sources : Json := (r.fields.lookup "sources").getD .null

/-- The fields left after `sources` is taken out. -/
def given : List (String × Json) := r.fields.filter fun f => f.1 ≠ "sources"

/-- The fields that a record does not have. -/
def unknown : List String :=
  (r.given.map (·.1)).filter fun k => (recordDefaults.lookup k).isNone

/-- The payload of the event, with the sources when there are some. -/
def payload (stamp : String) (sources : List Json) : Json :=
  .mkObj ((if r.sources.truthy then [("sources", .arr sources)] else []) ++
    [("id", .str r.id), ("kind", .str r.kind), ("title", .str r.title), ("claim", .str r.claim),
      ("owner", .str r.owner), ("created_at", .str stamp), ("updated_at", .str stamp),
      ("schema_version", .int schemaVersion)] ++ r.given ++ recordDefaults)

/-- The event of the record. -/
def event (stamp : String) (sources : List Json) : EventEnvelope where
  eventType := "memory.written"
  actor := r.owner
  target := some r.id
  payload := r.payload stamp sources
  privacyClass := pyStr ((r.payload stamp sources).get "privacy_class")

end RecordArgs

/-- `write_record`. -/
def writeRecord (i : ℕ) (r : RecordArgs) : Op Json :=
  if r.unknown ≠ [] then throw (.unknownRecordFields r.unknown)
  else do
    let stamp ← givenOrNow H r.timestamp
    let sources ← Act.ofExcept (if r.sources.truthy then r.sources.items else .ok [])
    emit H i (r.event stamp sources)

/-- The event by which a record is superseded or archived. -/
def retiredEvent (eventType id actor stamp : String) : EventEnvelope where
  eventType := eventType
  actor := actor
  target := some id
  payload := .mkObj [("id", .str id), ("updated_at", .str stamp)]

/-- Write the event by which a record is superseded or archived. -/
def retireRecord (eventType : String) (i : ℕ) (id actor : String) (timestamp : Option String) :
    Op Json := do
  let stamp ← givenOrNow H timestamp
  emit H i (retiredEvent eventType id actor stamp)

/-- `supersede_record`. -/
def supersedeRecord : ℕ → String → String → Option String → Op Json :=
  retireRecord H "memory.superseded"

/-- `archive_record`. -/
def archiveRecord : ℕ → String → String → Option String → Op Json :=
  retireRecord H "memory.archived"

/-! ### The memory service -/

/-- `_event_privacy_class`. -/
def eventPrivacyClass (value : String) : String :=
  if value = "public-safe" then "public"
  else if value = "private" then "confidential"
  else if value = "local-only" then "restricted"
  else if value = "unknown" then "internal"
  else value

/-- `_rejection_event_privacy_class`. -/
def rejectionEventPrivacyClass (value : String) : String :=
  if eventPrivacyClass value ∈ allowedPrivacyClasses then eventPrivacyClass value else "restricted"

/-- `_validate_write`. -/
def validateWrite (p : MemoryWrite) : Option String :=
  if p.sourceRefs = [] then some "source_refs required"
  else if blank p.kind then some "kind required"
  else if blank p.title then some "title required"
  else if blank p.claim then some "claim required"
  else if p.evidenceGrade ∉ ["A", "B", "C", "D", "F"] then
    some "evidence_grade must be one of: A, B, C, D, F"
  else none

/-- `json.dumps(tags)`, with the separator that `dumps` uses by default. -/
def tagsText (tags : List String) : String :=
  String.ofList ('[' :: List.intercalate [',', ' '] (tags.map (Json.dumpsStr true)) ++ [']'])

/-- The event of a rejected proposal. -/
def rejectedEvent (p : MemoryWrite) (reason : String) : EventEnvelope where
  eventType := "memory.rejected"
  actor := p.owner
  payload := .mkObj [("kind", .str p.kind), ("title", .str p.title), ("reason", .str reason)]
  privacyClass := rejectionEventPrivacyClass p.privacyClass

/-- The source rows of a proposal, each under a new id. -/
def proposalSources : List String → Op (List Json)
  | [] => pure []
  | ref :: refs => do
    let id ← uuidHex H
    let rest ← proposalSources refs
    return .mkObj [("id", .str ("src_" ++ slice id 0 16)), ("source_type", .str "user"),
      ("source_ref", .str ref), ("provenance", .str "memory-service")] :: rest

/-- The record that a proposal becomes. -/
def proposalRecord (p : MemoryWrite) (id : String) (sources : List Json) : RecordArgs where
  id := "mem_" ++ slice id 0 16
  kind := p.kind
  title := p.title
  claim := p.claim
  owner := p.owner
  fields :=
    [("summary", .str p.summary), ("confidence", .str p.confidence),
      ("evidence_grade", .str p.evidenceGrade),
      ("privacy_class", .str (eventPrivacyClass p.privacyClass)), ("authority", p.authority),
      ("scope", .str p.scope), ("valid_from", .ofOption p.validFrom),
      ("valid_until", .ofOption p.validUntil), ("tags_json", .str (tagsText p.tags)),
      ("sources", .arr sources)]

/-- `_validate_write(proposal) or _verify_write(root, proposal)`. -/
def rejectionReason (p : MemoryWrite) (verify : MemoryWrite → Except Exc (Option String)) :
    Except Exc (Option String) :=
  match validateWrite p with
  | some reason => .ok (some reason)
  | none => given <$> verify p

/-- `MemoryService.write`, up to the reading of the record it returns. -/
def writeMemory (i : ℕ) (p : MemoryWrite) : Op Json := do
  let w ← get
  let reason ← Act.ofExcept (rejectionReason p w.outside.verify)
  match reason with
  | some reason => do
    let _ ← append H i (rejectedEvent p reason) none
    throw (.valueError reason)
  | none => do
    let id ← uuidHex H
    let sources ← proposalSources H p.sourceRefs
    writeRecord H i (proposalRecord p id sources)

/-! ### Keeping a world synced -/

variable {H}

theorem givenOrNow_spec (timestamp : Option String) (w : World) {E : Exc → World → Prop} :
    Act.wp (givenOrNow H timestamp) (fun stamp w' => (∃ n, w.tick ≤ n ∧ w' = { w with tick := n }) ∧
      ((∀ s ∈ timestamp, H.encodes s = true) → H.encodes stamp = true)) E w := by
  unfold givenOrNow
  cases hg : given timestamp with
  | some stamp =>
    rw [wp_pure]
    refine ⟨⟨w.tick, le_rfl, rfl⟩, fun h => h stamp ?_⟩
    exact (Option.filter_eq_some_iff.1 hg).1
  | none =>
    rw [wp_now]
    exact ⟨⟨_, Nat.le_succ _, rfl⟩, fun _ => encodes_clock _⟩

/-- What holds of the values under a key holds of what a lookup of the key finds. -/
theorem lookup_getD {P : Json → Prop} {l : List (String × Json)} {k : String}
    (h : ∀ f ∈ l, f.1 = k → P f.2) (hnone : l.lookup k = none → P .null) :
    P ((l.lookup k).getD .null) := by
  cases hl : l.lookup k with
  | none => exact hnone hl
  | some v =>
    obtain ⟨l₁, l₂, heq, -⟩ := List.lookup_eq_some_iff.1 hl
    exact h (k, v) (by rw [heq]; simp) rfl

/-- The columns of a record that hold no NULL and that the caller of `write_record` can set. -/
def notNullFields : List String := ["status", "confidence", "evidence_grade", "privacy_class"]

/-- The texts of a record can be bound, its fields fit their columns, and so do its sources. -/
structure RecordArgs.Fits (H : Host) (r : RecordArgs) : Prop where
  texts : ∀ s ∈ [r.id, r.kind, r.title, r.claim, r.owner], H.encodes s = true
  timestamp : ∀ s ∈ r.timestamp, H.encodes s = true
  fields : ∀ f ∈ r.given, Bindable H f.2 ∧ (f.1 ∈ notNullFields → f.2.isNull = false)
  sources : ∀ sources, r.sources.truthy = true → r.sources.items = .ok sources →
    ∀ source ∈ sources, SourceFits H (source.mapStr H.scrub)

theorem bindable_recordDefaults : ∀ f ∈ recordDefaults, Bindable H f.2 := by
  simp only [recordDefaults, List.forall_mem_cons, List.not_mem_nil, false_imp_iff, implies_true,
    and_true]
  refine ⟨?_, ?_, ?_, ?_, ?_, rfl, ?_, trivial, trivial, ?_, ?_⟩
  case refine_7 => exact (by decide : (-2 : ℤ) ^ 63 ≤ 0 ∧ (0 : ℤ) < 2 ^ 63)
  all_goals exact H.encodes_ascii _ (by decide)

namespace RecordArgs.Fits

variable {r : RecordArgs} (hf : r.Fits H) {stamp : String} (hstamp : H.encodes stamp = true)
  (sources : List Json)

include hf hstamp

theorem bindable {k : String} (hk : k ∈ recordTextFields) :
    Bindable H ((r.payload stamp sources).get k) := by
  have htexts := hf.texts
  simp only [List.forall_mem_cons, List.not_mem_nil, false_imp_iff, implies_true,
    and_true] at htexts
  rw [RecordArgs.payload, Json.get_mkObj]
  refine lookup_getD (fun f hmem hfk => ?_) fun _ => trivial
  simp only [List.mem_append] at hmem
  rcases hmem with ((hmem | hmem) | hmem) | hmem
  · -- the sources are no column of a record
    split_ifs at hmem with ht
    · rw [List.mem_singleton] at hmem
      have hsrc : "sources" ∈ recordTextFields := by rwa [← hfk, hmem] at hk
      exact absurd hsrc (by decide)
    · cases hmem
  · simp only [List.mem_cons, List.not_mem_nil, or_false] at hmem
    rcases hmem with rfl | rfl | rfl | rfl | rfl | rfl | rfl | rfl
    · exact htexts.1
    · exact htexts.2.1
    · exact htexts.2.2.1
    · exact htexts.2.2.2.1
    · exact htexts.2.2.2.2
    · exact hstamp
    · exact hstamp
    · exact (by decide : (-2 : ℤ) ^ 63 ≤ 2 ∧ (2 : ℤ) < 2 ^ 63)
  · exact (hf.fields f hmem).1
  · exact bindable_recordDefaults f hmem

omit hf hstamp in
theorem schemaVersion_eq :
    (r.payload stamp sources).get "schema_version" = .int schemaVersion := by
  rw [RecordArgs.payload, Json.get_mkObj]
  split_ifs <;> simp [List.lookup]

omit hstamp in
theorem notNull {k : String} (hk : k ∈ notNullFields) :
    ((r.payload stamp sources).get k).isNull = false := by
  have hdefault : ∀ f ∈ recordDefaults, f.1 ∈ notNullFields → f.2.isNull = false := by decide
  have hthere : ∀ k ∈ notNullFields, recordDefaults.lookup k ≠ none := by decide
  rw [RecordArgs.payload, Json.get_mkObj]
  refine lookup_getD (P := fun j => j.isNull = false) (fun f hmem hfk => ?_) fun hnone => ?_
  · simp only [List.mem_append] at hmem
    rcases hmem with ((hmem | hmem) | hmem) | hmem
    · split_ifs at hmem with ht
      · rw [List.mem_singleton] at hmem
        rw [hmem]
        rfl
      · cases hmem
    · simp only [List.mem_cons, List.not_mem_nil, or_false] at hmem
      rcases hmem with rfl | rfl | rfl | rfl | rfl | rfl | rfl | rfl <;> rfl
    · exact (hf.fields f hmem).2 (hfk ▸ hk)
    · exact hdefault f hmem (hfk ▸ hk)
  · rw [List.lookup_append, Option.or_eq_none_iff] at hnone
    exact absurd hnone.2 (hthere k hk)

omit hf hstamp in
theorem payload_sources : (r.payload stamp sources).get "sources" =
    if r.sources.truthy then .arr sources else .null := by
  have hgiven : r.given.lookup "sources" = none := by
    rw [List.lookup_eq_none_iff]
    intro f hf
    rw [bne_iff_ne]
    exact fun heq => of_decide_eq_true (List.mem_filter.1 hf).2 heq.symm
  have hdefault : recordDefaults.lookup "sources" = none := by decide
  rw [RecordArgs.payload, Json.get_mkObj]
  split_ifs
  · rfl
  · rw [List.lookup_append, List.lookup_append, hgiven, hdefault]
    rfl

theorem not_rejects (w : World)
    (hs : (if r.sources.truthy then r.sources.items else .ok []) = .ok sources) :
    ¬ Rejects H (r.event stamp sources) w := by
  have htexts := hf.texts
  simp only [List.forall_mem_cons, List.not_mem_nil, false_imp_iff, implies_true,
    and_true] at htexts
  refine Shiroe.not_rejects ⟨rfl, rfl⟩ (Json.isObj_mkObj _)
    ⟨H.encodes_ascii "memory.written" (by decide), htexts.2.2.2.2,
      encodes_pyStr (hf.bindable hstamp sources (by decide)), by rintro s ⟨⟩, ?_⟩
    fun env db henv _ => ?_
  · rintro s ⟨⟩
    exact htexts.1
  · rw [applyEvent_written henv.payload henv.eventType]
    refine returns_touched ?_
    refine returns_applyWritten (sources.map (Json.mapStr H.scrub)) ?_ ?_ ?_ ?_
    · intro k hk
      rw [Json.get_mapStr]
      exact bindable_mapStr (hf.bindable hstamp sources hk)
    · intro k hk
      rw [Json.get_mapStr, Json.isNull_mapStr]
      change (Json.get (r.payload stamp sources) k).isNull = false
      by_cases hv : k = "schema_version"
      · rw [hv, schemaVersion_eq]
        rfl
      · refine hf.notNull sources ?_
        simp only [List.mem_cons, List.not_mem_nil, or_false] at hk
        simp only [notNullFields, List.mem_cons, List.not_mem_nil, or_false]
        tauto
    · rw [Json.get_mapStr, show (r.event stamp sources).payload.get "sources" = _ from
        payload_sources sources]
      split_ifs at hs ⊢ with ht
      · rw [Json.mapStr_arr, Json.orElse]
        split_ifs with hl
        · rfl
        · cases sources with
          | nil => rfl
          | cons a l => exact absurd rfl hl
      · cases hs
        rfl
    · intro source hsource
      obtain ⟨source, hmem, rfl⟩ := List.mem_map.1 hsource
      split_ifs at hs with ht
      · exact hf.sources sources ht hs source hmem
      · cases hs
        cases hmem

end RecordArgs.Fits

/-- The texts of a proposal can be bound. -/
structure MemoryWrite.Fits (H : Host) (p : MemoryWrite) : Prop where
  texts : ∀ s ∈ [p.kind, p.title, p.claim, p.owner, p.summary, p.confidence, p.evidenceGrade,
    p.privacyClass, p.scope], H.encodes s = true
  options : ∀ o ∈ [p.validFrom, p.validUntil], ∀ s ∈ o, H.encodes s = true
  authority : Bindable H p.authority
  sourceRefs : ∀ s ∈ p.sourceRefs, H.encodes s = true

theorem proposalSources_spec (refs : List String) (w : World) {E : Exc → World → Prop} :
    Act.wp (proposalSources H refs) (fun sources w' => (∃ n, w' = { w with drawn := n }) ∧
      ((∀ s ∈ refs, H.encodes s = true) →
        ∀ source ∈ sources, SourceFits H (source.mapStr H.scrub))) E w := by
  induction refs generalizing w with
  | nil =>
    rw [proposalSources, wp_pure]
    exact ⟨⟨_, rfl⟩, by simp⟩
  | cons ref refs ih =>
    rw [proposalSources, wp_bind, wp_uuidHex, wp_bind]
    refine wp_mono (ih _) ?_ fun _ _ h => h
    rintro rest _ ⟨⟨n, rfl⟩, hrest⟩
    rw [wp_pure]
    refine ⟨⟨n, rfl⟩, fun henc => ?_⟩
    have hid : H.encodes (H.scrub ("src_" ++ slice (H.uuid w.drawn) 0 16)) = true := by
      refine H.scrub_encodes _ ?_
      rw [H.encodes_append, H.encodes_ascii "src_" (by decide), encodes_slice_uuid]
      rfl
    have hconst : ∀ s, Ascii s → H.encodes (H.scrub s) = true := fun s hs =>
      H.scrub_encodes _ (H.encodes_ascii _ hs)
    have hfits : SourceFits H (Json.mapStr H.scrub (.mkObj [("id",
        .str ("src_" ++ slice (H.uuid w.drawn) 0 16)), ("source_type", .str "user"),
        ("source_ref", .str ref), ("provenance", .str "memory-service")])) := by
      constructor
      all_goals simp [List.lookup, Bindable, Json.getD, hid, hconst "user" (by decide),
        hconst "memory-service" (by decide), H.scrub_encodes _ (henc ref (by simp))]
    intro source hsource
    rcases List.mem_cons.1 hsource with rfl | hmem
    · exact hfits
    · exact hrest (fun s hs => henc s (by simp [hs])) source hmem

theorem encodes_eventPrivacyClass {value : String} (hv : H.encodes value = true) :
    H.encodes (eventPrivacyClass value) = true := by
  unfold eventPrivacyClass
  split_ifs
  · exact H.encodes_ascii _ (by decide)
  · exact H.encodes_ascii _ (by decide)
  · exact H.encodes_ascii _ (by decide)
  · exact H.encodes_ascii _ (by decide)
  · exact hv

theorem ascii_rejectionEventPrivacyClass (value : String) :
    Ascii (rejectionEventPrivacyClass value) := by
  have hall : ∀ v ∈ allowedPrivacyClasses, Ascii v := by decide
  unfold rejectionEventPrivacyClass
  split_ifs with h
  · exact hall _ h
  · decide

theorem forall_mem_intercalate {P : Char → Prop} {sep : List Char} {l : List (List Char)}
    (hsep : ∀ c ∈ sep, P c) (hl : ∀ x ∈ l, ∀ c ∈ x, P c) : ∀ c ∈ sep.intercalate l, P c := by
  induction l with
  | nil => simp
  | cons x l ih =>
    cases l with
    | nil => simpa using hl
    | cons y l =>
      intro c hc
      rw [List.intercalate_cons_cons, List.mem_append, List.mem_append] at hc
      rcases hc with (hc | hc) | hc
      · exact hl x (by simp) c hc
      · exact hsep c hc
      · exact ih (fun z hz => hl z (by simp [List.mem_cons.1 hz])) c hc

theorem ascii_tagsText (tags : List String) : Ascii (tagsText tags) := by
  intro c hc
  simp only [tagsText, String.toList_ofList, List.mem_append, List.mem_cons, List.cons_append,
    List.not_mem_nil, or_false] at hc
  rcases hc with rfl | hc | rfl
  · decide
  · refine forall_mem_intercalate (P := fun c => c.toNat < 128) ?_ ?_ c hc
    · decide
    · intro x hx
      obtain ⟨tag, -, rfl⟩ := List.mem_map.1 hx
      exact fun c hc => Json.ascii_dumpsStr hc
  · decide

theorem MemoryWrite.Fits.record {p : MemoryWrite} (hf : p.Fits H) {id : String}
    (hid : H.encodes (slice id 0 16) = true) {sources : List Json}
    (hs : ∀ source ∈ sources, SourceFits H (source.mapStr H.scrub)) :
    (proposalRecord p id sources).Fits H := by
  obtain ⟨htexts, hoptions, hauth, -⟩ := hf
  simp only [List.forall_mem_cons, List.not_mem_nil, false_imp_iff, implies_true, and_true]
    at htexts hoptions
  obtain ⟨hkind, htitle, hclaim, howner, hsummary, hconf, hgrade, hclass, hscope⟩ := htexts
  have hmem : H.encodes ("mem_" ++ slice id 0 16) = true := by
    rw [H.encodes_append, H.encodes_ascii "mem_" (by decide), hid]
    rfl
  have hfrom : Bindable H (.ofOption p.validFrom) := bindable_ofOption hoptions.1
  have huntil : Bindable H (.ofOption p.validUntil) := bindable_ofOption hoptions.2
  have htags : H.encodes (tagsText p.tags) = true := H.encodes_ascii _ (ascii_tagsText _)
  refine ⟨?_, by rintro s ⟨⟩, ?_, ?_⟩
  · simp [proposalRecord, hmem, hkind, htitle, hclaim, howner]
  · simp [proposalRecord, RecordArgs.given, Bindable, hsummary, hconf, hgrade,
      encodes_eventPrivacyClass hclass, hscope, htags, notNullFields]
    exact ⟨hauth, hfrom, huntil⟩
  · intro sources' _ hitems
    cases hitems
    exact hs

/-- The texts of a call that retires a record can be bound. -/
def RetireFits (H : Host) (id actor : String) (timestamp : Option String) : Prop :=
  H.encodes id = true ∧ H.encodes actor = true ∧ ∀ s ∈ timestamp, H.encodes s = true

section

variable {E : World → Prop} {w : World} (hmono : H.ClockMonotone) (h : Synced H w)
  (hE : ∀ w', Synced H w' → E w')

include hmono h hE

theorem writeRecord_synced (i : ℕ) (r : RecordArgs) (hfit : (∀ w', E w') ∨ r.Fits H) :
    Act.wp (writeRecord H i r) (fun _ w' => Synced H w') (fun _ w' => E w') w := by
  unfold writeRecord
  rw [wp_ite]
  refine ⟨fun _ => (wp_throw _).2 (hE w h), fun _ => ?_⟩
  rw [wp_bind]
  refine wp_mono (givenOrNow_spec r.timestamp w) ?_ fun _ _ h => h
  rintro stamp _ ⟨⟨n, hn, rfl⟩, hstamp⟩
  have h₁ : Synced H { w with tick := n } := h.congr rfl hn rfl
  rw [wp_bind, wp_ofExcept]
  cases hs : (if r.sources.truthy then r.sources.items else .ok []) with
  | error x => exact hE _ h₁
  | ok sources =>
    refine emit_safe hmono h₁ hE i ⟨rfl, rfl⟩ (hfit.imp_right fun hf => ?_)
    exact hf.not_rejects (hstamp hf.timestamp) sources _ hs

theorem retireRecord_synced {eventType : String}
    (htype : eventType = "memory.superseded" ∨ eventType = "memory.archived") (i : ℕ)
    (id actor : String) (timestamp : Option String)
    (hfit : (∀ w', E w') ∨ RetireFits H id actor timestamp) :
    Act.wp (retireRecord H eventType i id actor timestamp) (fun _ w' => Synced H w')
      (fun _ w' => E w') w := by
  unfold retireRecord
  rw [wp_bind]
  refine wp_mono (givenOrNow_spec timestamp w) ?_ fun _ _ h => h
  rintro stamp _ ⟨⟨n, hn, rfl⟩, hstamp⟩
  have h₁ : Synced H { w with tick := n } := h.congr rfl hn rfl
  refine emit_safe hmono h₁ hE i ⟨rfl, rfl⟩ (hfit.imp_right ?_)
  rintro ⟨hid, hactor, htime⟩
  have henc : H.encodes eventType = true := by
    rcases htype with rfl | rfl <;> exact H.encodes_ascii _ (by decide)
  refine not_rejects ⟨rfl, rfl⟩ (Json.isObj_mkObj _)
    ⟨henc, hactor, H.encodes_ascii "internal" (by decide), by rintro s ⟨⟩, ?_⟩
    fun env db henv _ => ?_
  · rintro s ⟨⟩
    exact hid
  · obtain ⟨t, ht, henct⟩ := henv.timestamp
    have hret : ∀ status archived, Returns (applyRetired H env
        ((retiredEvent eventType id actor stamp).payload.mapStr H.scrub) status archived) db := by
      intro status archived
      have hat : Bindable H (.str (H.scrub stamp)) := H.scrub_encodes _ (hstamp htime)
      have hscrub : Bindable H (.str (H.scrub id)) := H.scrub_encodes _ hid
      refine returns_applyRetired ?_ ?_ ?_
      · rw [ht]
        exact bindable_orElse (by simpa [retiredEvent, List.lookup] using hat) (bindable_str henct)
      · rw [ht]
        exact isNull_orElse_str
      · rw [henv.target]
        exact bindable_orElse (by simpa [retiredEvent, List.lookup] using hscrub) (bindable_str hid)
    rcases htype with rfl | rfl
    · rw [applyEvent_superseded henv.payload henv.eventType]
      exact returns_touched (hret _ _)
    · rw [applyEvent_archived henv.payload henv.eventType]
      exact returns_touched (hret _ _)

theorem writeMemory_synced (i : ℕ) (p : MemoryWrite) (hfit : (∀ w', E w') ∨ p.Fits H) :
    Act.wp (writeMemory H i p) (fun _ w' => Synced H w') (fun _ w' => E w') w := by
  unfold writeMemory
  rw [wp_bind, wp_get, wp_bind, wp_ofExcept]
  cases rejectionReason p w.outside.verify with
  | error x => exact hE w h
  | ok reason =>
    cases reason with
    | some reason =>
      simp only
      rw [wp_bind]
      refine wp_mono (append_synced hmono h i ⟨rfl, rfl⟩) (fun env w' hp => ?_) fun x w' hx => ?_
      · rw [wp_throw]
        refine hE w' (hp.synced h rfl le_rfl (d := none) ?_)
        rw [foldEvent, Act.bind_of_ok hp.mirrored]
        have hpay := hp.isEnv.payloadOf (Json.isObj_mkObj _)
        rw [applyEvent_rejected hpay hp.isEnv.eventType]
        rfl
      · rcases hx with hs | hr
        · exact hE w' hs
        · refine hfit.elim (fun hall => hall w') fun hf => absurd hr ?_
          have howner : H.encodes p.owner = true := hf.texts p.owner (by simp)
          have hclass : H.encodes (rejectionEventPrivacyClass p.privacyClass) = true :=
            H.encodes_ascii _ (ascii_rejectionEventPrivacyClass _)
          refine not_rejects ⟨rfl, rfl⟩ (Json.isObj_mkObj _)
            ⟨H.encodes_ascii "memory.rejected" (by decide), howner, hclass, by rintro s ⟨⟩,
              by rintro s ⟨⟩⟩ fun env db henv _ => ?_
          rw [applyEvent_rejected henv.payload henv.eventType]
          exact returns_touched (returns_pure _ _)
    | none =>
      simp only
      rw [wp_bind, wp_uuidHex, wp_bind]
      refine wp_mono (proposalSources_spec p.sourceRefs _) ?_ fun _ _ h => h
      rintro sources _ ⟨⟨n, rfl⟩, hsources⟩
      refine writeRecord_synced (w := { w with drawn := n }) hmono (h.congr rfl le_rfl rfl) hE i _
        (hfit.imp_right fun hf => ?_)
      exact hf.record (encodes_slice_uuid _ _ _) (hsources hf.sourceRefs)

end

end Shiroe

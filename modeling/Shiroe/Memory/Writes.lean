import Shiroe.Verification.Engine

/-!
# What the memory service writes

* `applyWritten_record` : the event of a proposal puts one row in the place of the rows under its
  id, and the row holds what the redaction pass leaves of the proposal;
* `retireRecord_record` : the row under the id of a record that is superseded or archived has the
  new status and the new flag.
-/

namespace Shiroe

open Act

variable {H : Host}

/-! ### Records written -/

/-- The row that a proposal becomes under an id. -/
structure IsRecordOf (H : Host) (p : MemoryWrite) (id : String) (r : RecordRow) : Prop where
  id_eq : r.id = .text (H.scrub id)
  encodes : H.encodes (H.scrub id) = true
  claim : r.claim = .text (H.scrub p.claim)
  authority : ∃ v, bindParam H (p.authority.mapStr H.scrub) = .ok v ∧
    r.authority = v.coalesce (.int 0)
  schemaVersion : r.schemaVersion = .int schemaVersion
  tags : r.tagsJson = .text (H.scrub (tagsText p.tags))

/-- The tables hold the row of a proposal in the place of the rows under its id. -/
def PutsRecord (H : Host) (p : MemoryWrite) (id : String) (db db' : Db) : Prop :=
  ∃ r, IsRecordOf H p id r ∧ db'.memoryRecords = Table.replace (·.id.key) r db.memoryRecords

theorem leaves_applySource_records (payload source : Json) :
    Leaves Db.memoryRecords (applySource H payload source) := by
  intro c
  unfold applySource insertSource
  repeat' first
    | exact Keeps.ofExcept _
    | exact leaves_exec (by intro db; rfl) c
    | refine Keeps.bind ?_ fun _ => ?_

theorem leaves_applySources (payload : Json) (sources : List Json) :
    Leaves Db.memoryRecords (sources.forM (applySource H payload)) := fun c =>
  Keeps.forM fun source _ => leaves_applySource_records payload source c

theorem bindText_encodes {s : String} {v : SqlVal} (h : bindText H (.str s) = .ok v) :
    v = .text s ∧ H.encodes s = true := by
  refine ⟨bindText_str_eq_ok h, ?_⟩
  rw [bindText, bindParam] at h
  split_ifs at h with henc
  · exact henc
  · cases h

/-- **The event of a proposal puts its row in the table**; a write that fails has left the table as
it was, or has put the row in and failed at a source. -/
theorem applyWritten_record {p : MemoryWrite} {draw stamp t : String} {sources srcs : List Json}
    {env : Json}
    (henv : IsEnvOf H ((proposalRecord p draw sources).event stamp srcs) t env) (db : Db) :
    Act.wp (applyEvent H env)
      (fun _ db' => PutsRecord H p ("mem_" ++ slice draw 0 16) db db')
      (fun _ db' => db'.memoryRecords = db.memoryRecords ∨
        PutsRecord H p ("mem_" ++ slice draw 0 16) db db') db := by
  rw [applyEvent_written (henv.payloadOf (Json.isObj_mkObj _)) henv.eventType, touched, wp_map]
  -- the payload, field by field
  have hp : ∀ q, q = ((proposalRecord p draw sources).event stamp srcs).payload.mapStr H.scrub →
      anyNone q requiredPayloadFields = false ∧
      q.get "id" = .str (H.scrub ("mem_" ++ slice draw 0 16)) ∧
      q.get "claim" = .str (H.scrub p.claim) ∧
      q.get "authority" = p.authority.mapStr H.scrub ∧
      q.get "schema_version" = .int schemaVersion ∧
      q.get "tags_json" = .str (H.scrub (tagsText p.tags)) := by
    rintro q rfl
    simp only [RecordArgs.event, RecordArgs.payload]
    split_ifs <;>
      simp [proposalRecord, RecordArgs.given, recordDefaults, anyNone, requiredPayloadFields,
        List.lookup]
  obtain ⟨hnone, hid, hclaim, hauth, hversion, htags⟩ := hp _ rfl
  generalize ((proposalRecord p draw sources).event stamp srcs).payload.mapStr H.scrub = q at *
  have hany : ∀ {j : Json} {Q : SqlVal → Db → Prop} {P : Db → Prop}, P db →
      (∀ v, bindText H j = .ok v → Q v db) →
      Act.wp (text H j) Q (fun _ => P) db := fun hP hQ => wp_text_any (fun _ => hP) hQ
  unfold applyWritten
  rw [if_neg (by rw [hnone]; exact Bool.false_ne_true)]
  simp only [hid, hclaim, hauth, hversion, htags]
  have hbind : Bindable H (.int schemaVersion) := (by decide : (-2 : ℤ) ^ 63 ≤ 2 ∧ (2 : ℤ) < 2 ^ 63)
  rw [wp_bind]
  refine hany (Or.inl rfl) fun id hid' => ?_
  obtain ⟨rfl, henc⟩ := bindText_encodes hid'
  iterate 2
    rw [wp_bind]
    refine hany (Or.inl rfl) fun _ _ => ?_
  rw [wp_bind]
  refine hany (Or.inl rfl) fun claim hclaim' => ?_
  rw [bindText_str_eq_ok hclaim']
  iterate 5
    rw [wp_bind]
    refine hany (Or.inl rfl) fun _ _ => ?_
  rw [wp_bind, real, wp_ofExcept]
  cases hv : bindParam H (p.authority.mapStr H.scrub) with
  | error x => exact Or.inl rfl
  | ok authority =>
    simp only
    iterate 6
      rw [wp_bind]
      refine hany (Or.inl rfl) fun _ _ => ?_
    rw [wp_bind, integer, wp_ofExcept, bindInt_eq (H := H) (j := .int schemaVersion) hbind]
    simp only
    rw [wp_bind, integer, wp_ofExcept]
    cases bindInt H (q.get "archived") with
    | error x => exact Or.inl rfl
    | ok archived =>
      simp only
      rw [wp_bind]
      refine hany (Or.inl rfl) fun tags htags' => ?_
      rw [bindText_str_eq_ok htags', wp_bind]
      unfold insertRecord
      rw [wp_exec]
      split
      · -- the row is in; the sources leave it there
        rw [wp_bind, wp_ofExcept]
        split
        · rw [wp_bind]
          refine wp_mono ((leaves_applySources q _).wp _) ?_ ?_
          · intro _ db' hdb'
            refine (wp_pure _).2 ⟨_, ?_, hdb'⟩
            exact ⟨rfl, henc, rfl, ⟨authority, hv, rfl⟩, rfl, rfl⟩
          · intro _ db' hdb'
            refine Or.inr ⟨_, ?_, hdb'⟩
            exact ⟨rfl, henc, rfl, ⟨authority, hv, rfl⟩, rfl, rfl⟩
        · refine Or.inr ⟨_, ?_, rfl⟩
          exact ⟨rfl, henc, rfl, ⟨authority, hv, rfl⟩, rfl, rfl⟩
      · exact Or.inl rfl

/-- **A proposal that goes to the log puts its row in the table**, or leaves the table alone. -/
theorem writeRecord_proposal (i : ℕ) (p : MemoryWrite) (draw : String) (sources : List Json)
    (w : World) :
    Act.wp (writeRecord H i (proposalRecord p draw sources))
      (fun _ w' => w'.rest = w.rest ∧ PutsRecord H p ("mem_" ++ slice draw 0 16) w.db w'.db)
      (fun _ w' => w'.rest = w.rest ∧ (w'.db.memoryRecords = w.db.memoryRecords ∨
        PutsRecord H p ("mem_" ++ slice draw 0 16) w.db w'.db)) w := by
  have hmirror : ∀ {db : Db}, db.exceptMirror = w.db.exceptMirror →
      db.memoryRecords = w.db.memoryRecords := fun h => (congrArg Db.memoryRecords h :)
  have hknown : (proposalRecord p draw sources).unknown = [] := by
    simp [RecordArgs.unknown, RecordArgs.given, proposalRecord, recordDefaults, List.lookup]
  have hnow : (proposalRecord p draw sources).timestamp = none := rfl
  rw [writeRecord, if_neg (not_not_intro hknown), hnow, givenOrNow]
  simp only [Shiroe.given, Option.filter_none]
  rw [wp_bind, wp_now, wp_bind, wp_ofExcept]
  split
  · rename_i srcs _
    refine wp_mono (emit_of_fold_part (P := fun db db' => db'.memoryRecords = db.memoryRecords ∨
      PutsRecord H p ("mem_" ++ slice draw 0 16) db db') (fun _ => Or.inl rfl)
      (fun env henv db => applyWritten_record henv db) i) ?_ ?_
    · rintro _ w' ⟨hrest, db, hdb, r, hr, hw'⟩
      exact ⟨hrest, r, hr, by rw [hw', hmirror hdb]⟩
    · rintro _ w' ⟨hrest, db, hdb, hw' | ⟨r, hr, hw'⟩⟩
      · exact ⟨hrest, Or.inl (by rw [hw', hmirror hdb])⟩
      · exact ⟨hrest, Or.inr ⟨r, hr, by rw [hw', hmirror hdb]⟩⟩
  · exact ⟨rfl, Or.inl rfl⟩

/-! ### Records retired -/

/-- A row after it is superseded or archived. -/
def RecordRow.retire (status : String) (archived : ℤ) (updatedAt : SqlVal) (r : RecordRow) :
    RecordRow :=
  { r with status := .text status, archived := .int archived, updatedAt := updatedAt }

/-- The event types by which a record is retired, with what they set. -/
def retirements : List (String × String × ℤ) :=
  [("memory.superseded", "superseded", 0), ("memory.archived", "archived", 1)]

/-- Rows of a table are retired, and the rest of the table is left alone. -/
def Retires (status : String) (archived : ℤ) (db db' : Db) : Prop :=
  ∃ (p : RecordRow → Bool) (updatedAt : SqlVal), db'.memoryRecords =
    Table.update p (.retire status archived updatedAt) db.memoryRecords

variable (H) in
/-- The id that a retiring event looks for: the one in its payload, or for an empty one the target
of the envelope. -/
def retiredId (id : String) : String := if H.scrub id = "" then id else H.scrub id

/-- The rows under an id are retired, and the rest of the table is left alone. -/
def RetiresRecord (id status : String) (archived : ℤ) (db db' : Db) : Prop :=
  ∃ updatedAt : SqlVal, db'.memoryRecords =
    Table.update (fun r => r.id = .text id) (.retire status archived updatedAt) db.memoryRecords

theorem RetiresRecord.retires {id status : String} {archived : ℤ} {db db' : Db}
    (h : RetiresRecord id status archived db db') : Retires status archived db db' := by
  obtain ⟨updatedAt, hdb⟩ := h
  exact ⟨_, updatedAt, hdb⟩

theorem applyRetired_record {kind status : String} {archived : ℤ}
    (hkind : (kind, status, archived) ∈ retirements) {id actor stamp t : String} {env : Json}
    (henv : IsEnvOf H (retiredEvent kind id actor stamp) t env) (db : Db) :
    Act.wp (applyEvent H env) (fun _ db' => RetiresRecord (retiredId H id) status archived db db')
      (fun _ db' => db' = db) db := by
  have happly : applyEvent H env = touched .memory (applyRetired H env
      ((retiredEvent kind id actor stamp).payload.mapStr H.scrub) status archived) := by
    have hpay := henv.payloadOf (Json.isObj_mkObj _)
    simp only [retirements, List.mem_cons, Prod.mk.injEq, List.not_mem_nil, or_false] at hkind
    rcases hkind with ⟨rfl, rfl, rfl⟩ | ⟨rfl, rfl, rfl⟩
    · exact applyEvent_superseded hpay henv.eventType
    · exact applyEvent_archived hpay henv.eventType
  have hid : (((retiredEvent kind id actor stamp).payload.mapStr H.scrub).get "id").orElse
      (env.get "target") = .str (retiredId H id) := by
    have hpayload : ((retiredEvent kind id actor stamp).payload.mapStr H.scrub).get "id" =
        .str (H.scrub id) := by
      simp [retiredEvent, List.lookup]
    have htarget : env.get "target" = .str id := henv.target
    rw [hpayload, htarget, retiredId, Json.orElse]
    by_cases hempty : H.scrub id = "" <;> simp [Json.truthy, hempty]
  rw [happly, touched, wp_map]
  unfold applyRetired updateRecord updateWhere
  rw [hid, wp_bind]
  refine wp_text_any (fun _ => rfl) fun updatedAt _ => ?_
  rw [wp_bind]
  refine wp_text_any (fun _ => rfl) fun v hv => ?_
  rw [wp_bind, wp_bind, wp_of_ok (show EStateM.get db = .ok db db from rfl), wp_bind, wp_exec]
  split
  · rw [wp_pure, wp_pure]
    refine ⟨updatedAt, ?_⟩
    simp only [bindText_str_eq_ok hv, ne_eq, reduceCtorEq, not_false_eq_true, decide_true,
      Bool.true_and]
    rfl
  · rfl

/-- **Retiring a record retires the rows under its id**, or leaves the tables alone. -/
theorem retireRecord_record {kind status : String} {archived : ℤ}
    (hkind : (kind, status, archived) ∈ retirements) (i : ℕ) (id actor : String)
    (timestamp : Option String) (w : World) :
    Act.wp (retireRecord H kind i id actor timestamp)
      (fun _ w' => w'.rest = w.rest ∧ RetiresRecord (retiredId H id) status archived w.db w'.db)
      (fun _ w' => w'.rest = w.rest ∧ w'.db.exceptMirror = w.db.exceptMirror) w := by
  unfold retireRecord
  rw [wp_bind]
  refine wp_mono (givenOrNow_spec timestamp w) ?_ fun _ _ h => h
  rintro stamp _ ⟨⟨n, -, rfl⟩, -⟩
  refine wp_mono (emit_of_fold (Q := RetiresRecord (retiredId H id) status archived)
    (fun env henv db => applyRetired_record hkind henv db) i) ?_ fun _ _ h => h
  rintro _ w' ⟨hrest, db, hdb, updatedAt, hw'⟩
  have hsame : db.memoryRecords = w.db.memoryRecords := (congrArg Db.memoryRecords hdb :)
  exact ⟨hrest, updatedAt, by rw [hw', hsame]⟩

/-- Retiring a record retires rows of the table, or leaves the tables alone. -/
theorem retireRecord_spec {kind status : String} {archived : ℤ}
    (hkind : (kind, status, archived) ∈ retirements) (i : ℕ) (id actor : String)
    (timestamp : Option String) (w : World) :
    Act.wp (retireRecord H kind i id actor timestamp)
      (fun _ w' => w'.rest = w.rest ∧ Retires status archived w.db w'.db)
      (fun _ w' => w'.rest = w.rest ∧ w'.db.exceptMirror = w.db.exceptMirror) w := by
  refine wp_mono (retireRecord_record hkind i id actor timestamp w) ?_ fun _ _ h => h
  rintro _ w' ⟨hrest, hretires⟩
  exact ⟨hrest, hretires.retires⟩

/-! ### The gate -/

variable (T : TextTools)

theorem severity_of_mem_contradictions {db : Db} {p : MemoryWrite} {f : Finding}
    (hf : f ∈ contradictions T H db p) : f.severity = .block := by
  unfold contradictions at hf
  split_ifs at hf with hkey
  · cases hf
  · cases hl : db.listMemory H {} with
    | error x =>
      rw [hl] at hf
      rw [List.mem_singleton.1 hf]
    | ok records =>
      rw [hl] at hf
      obtain ⟨m, -, rfl⟩ := List.mem_map.1 hf
      rfl

/-- **A proposal is let through exactly when no check of its own blocks it and the records do not
contradict it.** -/
theorem verifyWrite_eq_none {db : Db} {p : MemoryWrite} :
    verifyWrite T H db p = none ↔
      (∀ f ∈ ownFindings T p, f.severity ≠ .block) ∧ contradictions T H db p = [] := by
  have hiff : (ownFindings T p ++ contradictions T H db p).filter (·.severity = .block) = [] ↔
      (∀ f ∈ ownFindings T p, f.severity ≠ .block) ∧ contradictions T H db p = [] := by
    rw [List.filter_append, List.append_eq_nil_iff, List.filter_eq_nil_iff, List.filter_eq_self.2
      fun f hf => decide_eq_true (severity_of_mem_contradictions T hf)]
    simp
  rw [← hiff, verifyWrite]
  dsimp only
  split_ifs with h
  · exact iff_of_true rfl h
  · exact iff_of_false not_false h

/-- The check finds nothing in records that can be read and that do not oppose the proposal. -/
theorem contradictions_eq_nil {db : Db} {p : MemoryWrite} :
    contradictions T H db p = [] ↔ oppositionKey T p.claim = none ∨
      ∃ records, db.listMemory H {} = .ok records ∧
        ∀ m ∈ records, ¬ Opposed (oppositionKey T p.claim) (oppositionKey T m.claim) := by
  unfold contradictions
  split_ifs with hkey
  · simp [hkey]
  · cases hl : db.listMemory H {} with
    | error x => simp [hkey]
    | ok records => simp [hkey, List.filter_eq_nil_iff]

/-- The gate lets the proposal through. -/
def Accepts (T : TextTools) (H : Host) (w : World) (p : MemoryWrite) : Prop :=
  gateReason T H w.db p = none

instance (w : World) (p : MemoryWrite) : Decidable (Accepts T H w p) :=
  inferInstanceAs (Decidable (_ = none))

theorem gateReason_eq_none {db : Db} {p : MemoryWrite} :
    gateReason T H db p = none ↔ validateWrite p = none ∧
      (∀ f ∈ ownFindings T p, f.severity ≠ .block) ∧ contradictions T H db p = [] := by
  rw [gateReason, ← verifyWrite_eq_none]
  cases validateWrite p <;> simp

variable (H) in
/-- The id under which the next proposal is stored. -/
def nextMemoryId (w : World) : String := "mem_" ++ slice (H.uuid w.drawn) 0 16

/-- **What `write` does to the records after the gate**: a proposal that is let through puts its row
in, and any other leaves the records as they are. -/
theorem storeProposal_spec (i : ℕ) (p : MemoryWrite) (reason : Option String) (w : World) :
    Act.wp (storeProposal H i p reason)
      (fun _ w' => w'.rest = w.rest ∧ reason = none ∧ PutsRecord H p (nextMemoryId H w) w.db w'.db)
      (fun _ w' => w'.rest = w.rest ∧ (w'.db.memoryRecords = w.db.memoryRecords ∨
        reason = none ∧ PutsRecord H p (nextMemoryId H w) w.db w'.db)) w := by
  cases reason with
  | some reason =>
    unfold storeProposal
    rw [wp_bind]
    refine wp_mono (wp_and (append_tables i (rejectedEvent p reason) w)
      (append_frame i (rejectedEvent p reason) none w)) ?_ ?_
    · rintro _ w' ⟨⟨-, hdb⟩, hrest, -⟩
      exact (wp_throw _).2 ⟨hrest, Or.inl (congrArg Db.memoryRecords hdb :)⟩
    · rintro _ w' ⟨hdb, hrest, -⟩
      exact ⟨hrest, Or.inl (by rw [hdb])⟩
  | none =>
    unfold storeProposal
    rw [wp_bind, wp_uuidHex, wp_bind]
    refine wp_mono (proposalSources_spec (E := fun _ _ => False) p.sourceRefs _) ?_
      fun _ _ h => h.elim
    rintro sources _ ⟨⟨n, rfl⟩, -⟩
    rw [wp_bind]
    refine wp_mono (writeRecord_proposal i p _ sources _) ?_ ?_
    · rintro _ w' ⟨hrest, hputs⟩
      rw [getMemory, wp_readDb]
      split
      · exact ⟨hrest, rfl, hputs⟩
      · exact ⟨hrest, Or.inr ⟨rfl, hputs⟩⟩
    · rintro _ w' ⟨hrest, hsame | hputs⟩
      · exact ⟨hrest, Or.inl hsame⟩
      · exact ⟨hrest, Or.inr ⟨rfl, hputs⟩⟩

/-- `write` is the gate and what follows it. -/
theorem writeProposal_spec (i : ℕ) (p : MemoryWrite) (w : World) :
    Act.wp (writeProposal T H i p)
      (fun _ w' => w'.rest = w.rest ∧ Accepts T H w p ∧
        PutsRecord H p (nextMemoryId H w) w.db w'.db)
      (fun _ w' => w'.rest = w.rest ∧ (w'.db.memoryRecords = w.db.memoryRecords ∨
        Accepts T H w p ∧ PutsRecord H p (nextMemoryId H w) w.db w'.db)) w := by
  rw [writeProposal, wp_bind, wp_get]
  exact storeProposal_spec i p _ w

end Shiroe

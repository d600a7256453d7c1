import Shiroe.Lib.TwoRuns
import Shiroe.Handoff.Compiler

/-!
# What a handoff does not show

Two stores that differ in nothing but memory records that a handoff does not export give the same
handoff: the same packet, the same two files, the same summary and the same entry in the audit
log.  Only the counts of what was left out may differ.

* `AgreeOnExports` : the two stores;
* `writeHandoff_blind` : from the filter on, a handoff sees the exported records alone;
* `handoff_noninterference` : the whole call, on stores that can be listed.
-/

namespace Shiroe

open Act

/-- The row is one of an active record of a class that the handoff may show. -/
def HandoffArgs.Exports (a : HandoffArgs) (r : RecordRow) : Prop :=
  ListArgs.Selects {} r ∧ effectiveClass (pyStr r.privacyClass.read) ∈ a.allowed

instance (a : HandoffArgs) (r : RecordRow) : Decidable (a.Exports r) :=
  inferInstanceAs (Decidable (_ ∧ _))

/-- The tables beside the memory, the clock and the lock are the same. -/
structure SameButMemory (w w' : World) : Prop where
  tables : { w.db.exceptMemory with memoryEvents := [] } =
    { w'.db.exceptMemory with memoryEvents := [] }
  tick : w.tick = w'.tick
  lockfile : w.dir.lockfile = w'.dir.lockfile

/-- Two stores that differ in nothing but memory records that the handoff does not export, with
their sources and the events that wrote them. -/
structure AgreeOnExports (a : HandoffArgs) (w w' : World) : Prop extends SameButMemory w w' where
  records : (w.db.memoryRecords.filter fun r => a.Exports r) =
    w'.db.memoryRecords.filter fun r => a.Exports r
  sources : ∀ r ∈ w.db.memoryRecords, a.Exports r →
    (w.db.memorySources.filter fun s => s.memoryId = .text (pyStr r.id.read)) =
      w'.db.memorySources.filter fun s => s.memoryId = .text (pyStr r.id.read)

variable {H : Host} {redacted : String → ℕ} {a : HandoffArgs} {w w' : World}

/-! ### From the filter on -/

theorem compilePacket_exceptMemory (db : Db) (graphId : Option String)
    (records : List MemoryRecord) (objective generatedAt : String) :
    Db.compilePacket H { db.exceptMemory with memoryEvents := [] } graphId records objective
      generatedAt = db.compilePacket H graphId records objective generatedAt := rfl

theorem underLock_blind : Blind SameButMemory underLock :=
  Blind.reading (fun w w' h => by rw [h.lockfile]) fun _ => Blind.ite (Blind.throw _) (Blind.pure _)

theorem now_blind : Blind SameButMemory (now H) := by
  intro w w' h
  refine ⟨?_, ?_⟩
  · change Except.ok (H.clock w.tick) = Except.ok (H.clock w'.tick)
    rw [h.tick]
  · exact ⟨h.tables, congrArg (· + 1) h.tick, h.lockfile⟩

theorem exportAudit_blind (a : HandoffArgs) (records : List MemoryRecord) :
    Blind SameButMemory (exportAudit a records) :=
  Blind.ite ((underLock_blind.bind fun _ => Blind.pure _).map _) (Blind.pure _)

theorem compilePacket_blind (graphId : Option String) (records : List MemoryRecord)
    (objective generatedAt : String) : Blind SameButMemory
      (readDb (·.compilePacket H graphId records objective generatedAt)) := by
  refine Blind.reading (fun w w' h => congrArg Act.ofExcept ?_) fun _ => Blind.ofExcept _
  dsimp only
  rw [← compilePacket_exceptMemory w.db, h.tables, compilePacket_exceptMemory]

/-- **From the filter on** a handoff sees the exported records, and nothing else of the memory. -/
theorem writeHandoff_blind (a : HandoffArgs) (records : List MemoryRecord) :
    Blind SameButMemory (writeHandoff H redacted a records) := by
  refine (exportAudit_blind a records).bind fun audit => now_blind.bind fun generatedAt => ?_
  refine (compilePacket_blind _ _ _ _).bind fun packet => now_blind.bind fun when => ?_
  refine underLock_blind.bind fun _ => Blind.ite ?_ (Blind.pure _)
  exact (Blind.throw _).bind fun _ => Blind.pure _

/-! ### The list and the filter -/

instance : Std.Total ListLe := ⟨fun a b => by
  unfold ListLe
  rcases lt_trichotomy (b.updatedAt.text?.getD "") (a.updatedAt.text?.getD "") with h | h | h
  · exact Or.inl (Or.inl h)
  · rcases le_total (a.id.text?.getD "") (b.id.text?.getD "") with hid | hid
    · exact Or.inl (Or.inr ⟨h, hid⟩)
    · exact Or.inr (Or.inr ⟨h.symm, hid⟩)
  · exact Or.inr (Or.inl h)⟩

instance : IsTrans RecordRow ListLe := ⟨fun a b c => by
  unfold ListLe
  rintro (hab | ⟨hab, hid⟩) (hbc | ⟨hbc, hid'⟩)
  · exact Or.inl (hbc.trans hab)
  · exact Or.inl (hbc ▸ hab)
  · exact Or.inl (hab ▸ hbc)
  · exact Or.inr ⟨hbc.trans hab, hid.trans hid'⟩⟩

theorem privacyClass_recordFromRow {db : Db} {r : RecordRow} {m : MemoryRecord}
    (h : db.recordFromRow H r = .ok m) : m.privacyClass = pyStr r.privacyClass.read := by
  obtain ⟨_, -, h⟩ := except_bind_eq_ok.1 h
  obtain ⟨_, -, h⟩ := except_bind_eq_ok.1 h
  obtain ⟨_, -, h⟩ := except_bind_eq_ok.1 h
  cases h
  rfl

/-- A record is read the same where its sources are the same. -/
theorem recordFromRow_congr {db db' : Db} {r : RecordRow}
    (h : (db.memorySources.filter fun s => s.memoryId = .text (pyStr r.id.read)) =
      db'.memorySources.filter fun s => s.memoryId = .text (pyStr r.id.read)) :
    db.recordFromRow H r = db'.recordFromRow H r := by
  have hrefs : db.sourceRefs (pyStr r.id.read) = db'.sourceRefs (pyStr r.id.read) := by
    rw [Db.sourceRefs, Db.sourceRefs, h]
  simp only [Db.recordFromRow, hrefs]

/-- The exported records are the records of the exported rows, in the order of the list. -/
theorem records_of_listMemory {db : Db} {ms : List MemoryRecord} (h : db.listMemory H {} = .ok ms) :
    ((db.memoryRecords.filter fun r => a.Exports r).insertionSort ListLe).mapM
      (db.recordFromRow H) = .ok (filterExportable a ms).1 := by
  obtain ⟨_, -, h⟩ := except_bind_eq_ok.1 h
  obtain ⟨_, -, h⟩ := except_bind_eq_ok.1 h
  have hrows : (db.memoryRecords.filter fun r => a.Exports r).insertionSort ListLe =
      (db.listed {}).filter fun r => effectiveClass (pyStr r.privacyClass.read) ∈ a.allowed := by
    change _ = List.filter _ (List.insertionSort _ _)
    rw [filter_insertionSort, List.filter_filter]
    congr 1
    refine List.filter_congr fun r _ => ?_
    rw [Bool.and_comm]
    exact Bool.decide_and _ _
  rw [hrows, except_mapM_eq_ok]
  refine List.rel_filter (fun r m hm => ?_) (except_mapM_eq_ok.1 h)
  simp only [HandoffArgs.shows, privacyClass_recordFromRow hm]

theorem except_mapM_congr {ε α β : Type} {f g : α → Except ε β} {l : List α}
    (h : ∀ x ∈ l, f x = g x) : l.mapM f = l.mapM g := by
  induction l with
  | nil => rfl
  | cons x l ih =>
    rw [List.mapM_cons, List.mapM_cons, h x List.mem_cons_self,
      ih fun y hy => h y (List.mem_cons_of_mem _ hy)]

/-- What the filter exports is the same in both stores. -/
theorem AgreeOnExports.exported {ms ms' : List MemoryRecord} (h : AgreeOnExports a w w')
    (hms : w.db.listMemory H {} = .ok ms) (hms' : w'.db.listMemory H {} = .ok ms') :
    (filterExportable a ms).1 = (filterExportable a ms').1 := by
  have hread : ((w.db.memoryRecords.filter fun r => a.Exports r).insertionSort ListLe).mapM
      (w.db.recordFromRow H) =
        ((w'.db.memoryRecords.filter fun r => a.Exports r).insertionSort ListLe).mapM
          (w'.db.recordFromRow H) := by
    rw [← h.records]
    refine except_mapM_congr fun r hr => recordFromRow_congr ?_
    obtain ⟨hr, hexp⟩ := List.mem_filter.1 ((List.mem_insertionSort _).1 hr)
    exact h.sources r hr (of_decide_eq_true hexp)
  rw [records_of_listMemory hms, records_of_listMemory hms'] at hread
  exact Except.ok.inj hread

/-! ### The whole call -/

/-- What a handoff shows, and what it raises. -/
def shown (redacted : String → ℕ) (H : Host) (a : HandoffArgs) (w : World) : Except Exc Artifacts :=
  (Act.outcome (compileHandoff H redacted a) w).map Handoff.artifacts

theorem shown_of_listMemory {ms : List MemoryRecord} (htarget : a.target ∈ handoffTargets)
    (hms : w.db.listMemory H {} = .ok ms) :
    shown redacted H a w = Act.outcome (writeHandoff H redacted a (filterExportable a ms).1) w := by
  have hlist : listMemory H {} w = .ok ms w := by
    change (Act.ofExcept (w.db.listMemory H {}) : Op _) w = _
    rw [hms]
    rfl
  have hcall : compileHandoff H redacted a = (listMemory H {} >>= fun all =>
      writeHandoff H redacted a (filterExportable a all).1 >>= fun artifacts =>
        pure { artifacts, excludedAtoms := (filterExportable a all).2 }) := by
    rw [compileHandoff, if_neg (not_not.2 htarget)]
  rw [shown, hcall, outcome_bind_of_ok hlist]
  simp only [Act.outcome, bind, EStateM.bind]
  cases writeHandoff H redacted a (filterExportable a ms).1 w <;> rfl

/-- **A handoff does not depend on what it does not export.**  For any arguments and any two stores
that can be listed and differ only in memory records that the handoff does not export, the packet
and both files are the same, or the same exception is raised; restricted records are never
exported. -/
theorem handoff_noninterference (a : HandoffArgs) {w w' : World} (h : AgreeOnExports a w w')
    (hlist : ∃ ms, w.db.listMemory H {} = .ok ms) (hlist' : ∃ ms, w'.db.listMemory H {} = .ok ms) :
    shown redacted H a w = shown redacted H a w' ∧
      ∀ r, pyStr r.privacyClass.read = "restricted" → ¬ a.Exports r := by
  refine ⟨?_, fun r hr hexp => ?_⟩
  · obtain ⟨ms, hms⟩ := hlist
    obtain ⟨ms', hms'⟩ := hlist'
    by_cases htarget : a.target ∈ handoffTargets
    · rw [shown_of_listMemory htarget hms, shown_of_listMemory htarget hms', h.exported hms hms']
      exact (writeHandoff_blind a _ w w' h.toSameButMemory).1
    · -- an unknown target is refused before anything is read
      simp only [shown, compileHandoff, if_pos htarget]
      rfl
  · have hclass := hexp.2
    rw [hr, HandoffArgs.allowed] at hclass
    split_ifs at hclass <;> revert hclass <;> decide

/-- A row of an active fact. -/
def factRow (id claim privacyClass : String) : RecordRow where
  id := .text id
  kind := .text "fact"
  title := .text "Owner"
  claim := .text claim
  summary := .text ""
  status := .text "active"
  confidence := .text "unknown"
  evidenceGrade := .text "A"
  privacyClass := .text privacyClass
  authority := .int 0
  scope := .text "project"
  validFrom := .null
  validUntil := .null
  createdAt := .text "2026-01-01T00:00:00+00:00"
  updatedAt := .text "2026-01-01T00:00:00+00:00"
  owner := .text "shiroe"
  schemaVersion := .int 1
  archived := .int 0
  tagsJson := .text "[]"

/-- A store with the given records. -/
def storeOf (records : List RecordRow) : World :=
  { emptyWorld with db := { memoryRecords := records } }

/-- A public record beside a restricted one, and alone. -/
theorem handoff_noninterference_secret :
    shown (fun _ => 0) (Host.quick id) { target := "codex" }
        (storeOf [factRow "mem_2" "The key is under the mat" "restricted",
          factRow "mem_1" "The door is red" "public"]) =
      shown (fun _ => 0) (Host.quick id) { target := "codex" }
        (storeOf [factRow "mem_1" "The door is red" "public"]) ∧
      ∃ shows, shown (fun _ => 0) (Host.quick id) { target := "codex" }
        (storeOf [factRow "mem_1" "The door is red" "public"]) = .ok shows :=
  ⟨(handoff_noninterference { target := "codex" }
    ⟨⟨rfl, rfl, rfl⟩, by decide +kernel, fun _ _ _ => rfl⟩
    ⟨_, rfl⟩ ⟨_, rfl⟩).1, _, rfl⟩

end Shiroe

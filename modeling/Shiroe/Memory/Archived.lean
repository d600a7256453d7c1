import Shiroe.Memory.Search
import Shiroe.Storage.Recorded
import Shiroe.Storage.Views

/-!
# Records that are archived

A record that is archived is left out of every list, every search and every generated page.  The
flag is written by the event that retires a record, and the one that supersedes it sets the flag
back.

* `archived_stays_hidden` : an archived record stays hidden as long as it is not superseded;
* `superseded_comes_back` : a record that is archived and then superseded is listed again.
-/

namespace Shiroe

open Act

variable (T : TextTools) (W : WordTools) (H : Host)

/-- A call that changes the memory, and the replay of the log. -/
inductive RecordCall where
  | write (p : MemoryWrite)
  | supersede (id actor : String)
  | archive (id actor : String)
  /-- `shiroe state rebuild`. -/
  | replay

/-- The world after a call by an object. -/
def recordStep (w : World) (c : ℕ × RecordCall) : World :=
  match c.2 with
  | .write p => Act.final (writeProposal T H c.1 p) w
  | .supersede id actor => Act.final (supersedeMemory H c.1 id actor) w
  | .archive id actor => Act.final (archiveMemory H c.1 id actor) w
  | .replay => rebuild H w

/-- The record is in the table and archived. -/
def Archived (db : Db) (id : String) : Prop :=
  ∃ r ∈ db.memoryRecords, r.id = .text id ∧ r.archived = .int 1

instance (db : Db) (id : String) : Decidable (Archived db id) :=
  inferInstanceAs (Decidable (∃ r ∈ _, _))

/-- No list without archived records, no search and no generated page holds the record. -/
structure Hidden (db : Db) (id : String) : Prop where
  list : ∀ (a : ListArgs) (ms : List MemoryRecord), a.includeArchived = false →
    db.listMemory H a = .ok ms → ∀ m ∈ ms, m.id ≠ id
  search : ∀ (a : SearchArgs) (res : SearchResult), db.searchMemory W H a = .ok res →
    ∀ hit ∈ res.hits, hit.record.id ≠ id
  /-- The pages are what they would be without the record. -/
  views : ∀ v : MemoryView, (∀ r ∈ v.rows db, r.id ≠ .text id) ∧
    v.body (db.withoutRecord id) = v.body db

/-- The call supersedes no archived record and writes no record in the place of one; no two events
of a log that is replayed have one hash. -/
def SparesArchived (w : World) (c : ℕ × RecordCall) : Prop :=
  match c.2 with
  | .write p => Accepts T H w p → ¬ Archived w.db (H.scrub (nextMemoryId H w))
  | .supersede id _ => ¬ Archived w.db (retiredId H id)
  | .archive _ _ => True
  | .replay => NoCollision H w.dir.iterEvents

variable {T W H}

/-! ### What a call does to the archived records -/

/-- What the primary key promises of the records: the ids are texts, and no two rows have one. -/
structure RecordsKeyed (db : Db) : Prop where
  texts : ∀ r ∈ db.memoryRecords, ∃ s, r.id = .text s
  nodup : (db.memoryRecords.map (·.id)).Nodup

/-- The ids stay apart, and what is archived stays archived. -/
structure KeepsArchived (db db' : Db) : Prop where
  keyed : RecordsKeyed db → RecordsKeyed db'
  archived : ∀ id, Archived db id → Archived db' id

namespace KeepsArchived

variable {db db' db'' : Db}

theorem refl (db : Db) : KeepsArchived db db := ⟨fun h => h, fun _ h => h⟩

theorem trans (h : KeepsArchived db db') (h' : KeepsArchived db' db'') : KeepsArchived db db'' :=
  ⟨fun hk => h'.keyed (h.keyed hk), fun id ha => h'.archived id (h.archived id ha)⟩

theorem of_eq (h : db'.memoryRecords = db.memoryRecords) : KeepsArchived db db' where
  keyed hk := ⟨h ▸ hk.texts, h ▸ hk.nodup⟩
  archived id ha := by
    rw [Archived, h]
    exact ha

/-- A record that is written in the place of no archived one. -/
theorem of_puts {p : MemoryWrite} {id : String} (h : PutsRecord H p id db db')
    (hspare : ¬ Archived db (H.scrub id)) : KeepsArchived db db' := by
  obtain ⟨r, hr, hdb⟩ := h
  have hkey : ∀ r' : RecordRow, r'.id.key = none ∨ r'.id.key ≠ r.id.key → r'.id ≠ r.id := by
    intro r' hr' heq
    rw [heq, hr.id_eq] at hr'
    simp [SqlVal.key] at hr'
  constructor
  · intro hk
    constructor
    · intro r' hr'
      rw [hdb, Table.mem_replace] at hr'
      rcases hr' with ⟨hr', -⟩ | rfl
      · exact hk.texts r' hr'
      · exact ⟨_, hr.id_eq⟩
    · rw [hdb, Table.replace, List.map_append, List.nodup_append]
      refine ⟨hk.nodup.sublist (List.filter_sublist.map _), List.nodup_singleton _, ?_⟩
      intro v hv v' hv' heq
      obtain ⟨r', hr', rfl⟩ := List.mem_map.1 hv
      rw [List.map_singleton, List.mem_singleton] at hv'
      have hcond := (List.mem_filter.1 hr').2
      rw [Bool.or_eq_true, decide_eq_true_eq, decide_eq_true_eq] at hcond
      exact hkey r' hcond (heq.trans hv')
  · rintro id' ⟨r', hr', hid, harch⟩
    refine ⟨r', ?_, hid, harch⟩
    rw [hdb, Table.mem_replace]
    refine Or.inl ⟨hr', Or.inr fun heq => hspare ⟨r', hr', ?_, harch⟩⟩
    rw [hr.id_eq, hid] at heq
    simp only [SqlVal.key, reduceCtorEq, if_false, Option.some.injEq] at heq
    rw [hid, heq]

/-- A record that is archived, or one that is superseded and is not archived. -/
theorem of_retires {id status : String} {archived : ℤ}
    (h : RetiresRecord id status archived db db') (hspare : archived = 1 ∨ ¬ Archived db id) :
    KeepsArchived db db' := by
  obtain ⟨updatedAt, hdb⟩ := h
  have hids : ∀ r : RecordRow, (r.retire status archived updatedAt).id = r.id := fun _ => rfl
  constructor
  · intro hk
    constructor
    · intro r' hr'
      rw [hdb, Table.mem_update] at hr'
      obtain ⟨r, hr, rfl⟩ := hr'
      obtain ⟨s, hs⟩ := hk.texts r hr
      refine ⟨s, ?_⟩
      split_ifs
      · exact hs
      · exact hs
    · rw [hdb, Table.map_update hids]
      exact hk.nodup
  · rintro id' ⟨r, hr, hid, harch⟩
    refine ⟨_, hdb ▸ Table.mem_update.2 ⟨r, hr, rfl⟩, ?_⟩
    split_ifs with hhit
    · refine ⟨hid, ?_⟩
      rcases hspare with rfl | hspare
      · rfl
      · exact absurd ⟨r, hr, of_decide_eq_true hhit, harch⟩ hspare
    · exact ⟨hid, harch⟩

end KeepsArchived

/-- A call that retires a record, and reads it. -/
theorem retireMemory_keeps {kind status : String} {archived : ℤ}
    (hkind : (kind, status, archived) ∈ retirements) (i : ℕ) (id actor : String) {w : World}
    (hspare : archived = 1 ∨ ¬ Archived w.db (retiredId H id)) :
    Act.wp (do let _ ← retireRecord H kind i id actor none; getMemory H id)
      (fun _ w' => KeepsArchived w.db w'.db) (fun _ w' => KeepsArchived w.db w'.db) w := by
  rw [wp_bind]
  refine wp_mono (retireRecord_record hkind i id actor none w) ?_ ?_
  · rintro _ w' ⟨-, hretires⟩
    have hkeeps : KeepsArchived w.db w'.db := .of_retires hretires hspare
    rw [getMemory, wp_readDb]
    split
    · exact hkeeps
    · exact hkeeps
  · rintro _ w' ⟨-, hmirror⟩
    exact .of_eq (congrArg Db.memoryRecords hmirror :)

/-- **A call that spares the archived records keeps them archived.** -/
theorem recordStep_keeps {w : World} {c : ℕ × RecordCall} (h : Recorded H w)
    (hspare : SparesArchived T H w c) : KeepsArchived w.db (recordStep T H w c).db := by
  obtain ⟨i, call⟩ := c
  cases call with
  | write p =>
    have hstep : ∀ w' : World, (w'.db.memoryRecords = w.db.memoryRecords ∨
        Accepts T H w p ∧ PutsRecord H p (nextMemoryId H w) w.db w'.db) →
        KeepsArchived w.db w'.db := by
      rintro w' (hsame | ⟨hacc, hputs⟩)
      · exact .of_eq hsame
      · exact .of_puts hputs (hspare hacc)
    exact Act.wp_final (I := fun w' : World => KeepsArchived w.db w'.db)
      (Act.wp_mono (writeProposal_spec T i p w) (fun _ w' hw' => hstep w' (Or.inr hw'.2))
        fun _ w' hw' => hstep w' hw'.2)
  | supersede id actor =>
    have hkind : ("memory.superseded", "superseded", 0) ∈ retirements := List.mem_cons_self
    exact Act.wp_final (I := fun w' : World => KeepsArchived w.db w'.db)
      (retireMemory_keeps hkind i id actor (Or.inr hspare))
  | archive id actor =>
    have hkind : ("memory.archived", "archived", 1) ∈ retirements :=
      List.mem_cons_of_mem _ List.mem_cons_self
    exact Act.wp_final (I := fun w' : World => KeepsArchived w.db w'.db)
      (retireMemory_keeps hkind i id actor (Or.inl rfl))
  | replay =>
    rw [recordStep, h.rebuild_eq hspare]
    exact .refl _

/-! ### The log of the calls -/

theorem keeps_readDb {α : Type} (I : World → Prop) (f : Db → Except Exc α) : Keeps I (readDb f) :=
  Keeps.get.bind fun _ => Keeps.ofExcept _

namespace Recorded

theorem givenOrNow (timestamp : Option String) : Keeps (Recorded H) (givenOrNow H timestamp) := by
  intro w h
  refine wp_mono (givenOrNow_spec (E := fun _ => Recorded H) timestamp w) ?_ fun _ _ h => h
  rintro _ _ ⟨⟨n, -, rfl⟩, -⟩
  exact h.congr rfl rfl

theorem proposalSources (refs : List String) :
    Keeps (Recorded H) (proposalSources H refs) := by
  intro w h
  refine wp_mono (proposalSources_spec (E := fun _ => Recorded H) refs w) ?_ fun _ _ h => h
  rintro _ _ ⟨⟨n, rfl⟩, -⟩
  exact h.congr rfl rfl

theorem retireRecord (kind : String) (i : ℕ) (id actor : String) (timestamp : Option String) :
    Keeps (Recorded H) (retireRecord H kind i id actor timestamp) :=
  (givenOrNow timestamp).bind fun _ => emit i _

theorem writeRecord (i : ℕ) (r : RecordArgs) : Keeps (Recorded H) (writeRecord H i r) :=
  Keeps.ite (fun _ => Keeps.throw _) fun _ =>
    (givenOrNow r.timestamp).bind fun _ => (Keeps.ofExcept _).bind fun _ => emit i _

theorem storeProposal (i : ℕ) (p : MemoryWrite) (reason : Option String) :
    Keeps (Recorded H) (storeProposal H i p reason) := by
  cases reason with
  | some reason =>
    refine (append i fun t env db henv => ?_).bind fun _ => Keeps.throw _
    exact ⟨_, by rw [applyEvent_rejected (henv.payloadOf (Json.isObj_mkObj _)) henv.eventType]; rfl⟩
  | none =>
    have hdraw : Keeps (Recorded H) (uuidHex H) := by
      intro w h
      rw [wp_uuidHex]
      exact h.congr rfl rfl
    exact hdraw.bind fun _ => (proposalSources p.sourceRefs).bind fun _ =>
      (writeRecord i _).bind fun _ => keeps_readDb _ _

end Recorded

/-- **Every call keeps a project recorded.** -/
theorem recordStep_recorded {w : World} {c : ℕ × RecordCall} (h : Recorded H w)
    (hspare : SparesArchived T H w c) : Recorded H (recordStep T H w c) := by
  obtain ⟨i, call⟩ := c
  cases call with
  | write p =>
    have hwrite : Keeps (Recorded H) (writeProposal T H i p) :=
      Keeps.get.bind fun w' => Recorded.storeProposal i p _
    exact Act.wp_final (hwrite w h)
  | supersede id actor =>
    exact Act.wp_final (((Recorded.retireRecord _ i id actor none).bind fun _ =>
      keeps_readDb _ _) w h)
  | archive id actor =>
    exact Act.wp_final (((Recorded.retireRecord _ i id actor none).bind fun _ =>
      keeps_readDb _ _) w h)
  | replay =>
    rw [recordStep, h.rebuild_eq hspare]
    exact h

/-! ### What is hidden -/

theorem record_mem_searchMemory {db : Db} {a : SearchArgs} {res : SearchResult}
    (h : db.searchMemory W H a = .ok res) {hit : SearchHit} (hhit : hit ∈ res.hits) :
    ∃ ms, db.listMemory H a.listed = .ok ms ∧ hit.record ∈ ms := by
  unfold Db.searchMemory at h
  dsimp only at h
  split_ifs at h with hnone
  · cases h
    cases hhit
  · obtain ⟨records, hlist, h⟩ := except_bind_eq_ok.1 h
    obtain ⟨hits, hhits, h⟩ := except_bind_eq_ok.1 h
    cases h
    refine ⟨records, hlist, ?_⟩
    have hsome : some hit ∈ hits :=
      List.reduceOption_mem_iff.1 (Ranking.mem_ranked.1 (List.mem_of_mem_take hhit))
    obtain ⟨m, hm, hrecord⟩ := exists_of_mem_mapM hhits hsome
    rw [record_hitOf hrecord]
    exact hm

/-- **An archived record is hidden.** -/
theorem Archived.hidden {db : Db} {id : String} (hk : RecordsKeyed db) (h : Archived db id) :
    Hidden W H db id := by
  obtain ⟨r₀, hr₀, hid₀, harch₀⟩ := h
  -- the one row under the id is archived
  have hrow : ∀ r ∈ db.memoryRecords, r.archived = .int 0 → r.id ≠ .text id := by
    intro r hr harch hid
    obtain rfl := List.inj_on_of_nodup_map hk.nodup hr hr₀ (hid.trans hid₀.symm)
    rw [harch₀] at harch
    cases harch
  have hlist : ∀ (a : ListArgs) (ms : List MemoryRecord), a.includeArchived = false →
      db.listMemory H a = .ok ms → ∀ m ∈ ms, m.id ≠ id := by
    intro a ms ha hms m hm
    obtain ⟨r, hr, ⟨-, -, hsel⟩, hread⟩ := mem_listMemory hms hm
    have harch : r.archived = .int 0 := hsel.resolve_left (by rw [ha]; exact Bool.false_ne_true)
    obtain ⟨s, hs⟩ := hk.texts r hr
    rw [id_recordFromRow hread, hs]
    rintro rfl
    exact hrow r hr harch hs
  refine ⟨hlist, ?_, fun v => ⟨?_, MemoryView.body_eq ?_ v⟩⟩
  · intro a res hres hit hhit
    obtain ⟨ms, hms, hm⟩ := record_mem_searchMemory hres hhit
    exact hlist _ ms rfl hms _ hm
  · intro r hr
    obtain ⟨hmem, harch⟩ := MemoryView.not_archived hr
    exact hrow r hmem harch
  · rw [Db.unarchived, Db.unarchived, Db.withoutRecord, List.filter_filter]
    refine List.filter_congr fun r hr => ?_
    by_cases harch : r.archived = .int 0
    · simp [harch, hrow r hr harch]
    · simp [harch]

/-! ### Runs -/

section

variable {calls : List (ℕ × RecordCall)} {k k' : ℕ} {id : String}

/-- **A record that is archived stays hidden** throughout a run of writes, archivings, supersedings
and replays from an empty project in which no call supersedes an archived record and no accepted
write draws the id of one. -/
theorem archived_stays_hidden {w : World} (hdir : w.dir = {}) (hdb : w.db = {})
    (hspare : Run.Throughout (recordStep T H) (SparesArchived T H) w calls) (hk : k ≤ k')
    (h : Archived (Run.stateAt (recordStep T H) w calls k).db id) :
    Hidden W H (Run.stateAt (recordStep T H) w calls k').db id := by
  have hkeeps : Run.Throughout (recordStep T H)
      (fun w c => KeepsArchived w.db (recordStep T H w c).db) w calls :=
    hspare.mono (I := Recorded H)
      (fun w c hr hs => ⟨recordStep_recorded hr hs, recordStep_keeps hr hs⟩)
      (Recorded.empty hdir hdb)
  have hbetween : ∀ {m n : ℕ}, m ≤ n → KeepsArchived
      (Run.stateAt (recordStep T H) w calls m).db (Run.stateAt (recordStep T H) w calls n).db :=
    fun hmn => hkeeps.stateAt_le (R := fun w w' : World => KeepsArchived w.db w'.db)
      (fun w => .refl w.db) (fun _ _ _ h h' => h.trans h') (fun _ _ h => h) hmn
  have hempty : RecordsKeyed w.db := by
    constructor <;> simp [hdb]
  exact ((hbetween hk).archived id h).hidden ((hbetween (Nat.zero_le k')).keyed hempty)

end

/-- A note about the owner. -/
def ownerNote : MemoryWrite where
  kind := "fact"
  title := "Owner"
  claim := "Reports go to the owner"
  sourceRefs := ["README.md"]
  evidenceGrade := "A"
  owner := "ann"

/-- The note is written and archived, a record is superseded, and the log is replayed. -/
def noteCalls (superseded : String) : List (ℕ × RecordCall) :=
  [(0, .write ownerNote), (0, .archive "mem_0000000000000000" "bob"),
    (0, .supersede superseded "cid"), (0, .replay)]

/-- The states of that run. -/
def noteAt (superseded : String) (k : ℕ) : World :=
  Run.stateAt (recordStep .ascii (Host.quick id)) emptyWorld (noteCalls superseded) k

/-- Another record is superseded. -/
theorem note_stays_hidden :
    Archived (noteAt "mem_1" 2).db "mem_0000000000000000" ∧
      Hidden .ascii (Host.quick id) (noteAt "mem_1" 4).db "mem_0000000000000000" := by
  have harchived : Archived (noteAt "mem_1" 2).db "mem_0000000000000000" := by decide +kernel
  have hspare : Run.Throughout (recordStep .ascii (Host.quick id))
      (SparesArchived .ascii (Host.quick id)) emptyWorld (noteCalls "mem_1") := by
    refine ⟨fun _ => ?_, trivial, ?_, ?_, trivial⟩
    · rintro ⟨r, hr, -⟩
      cases hr
    · change ¬ Archived (noteAt "mem_1" 2).db (retiredId (Host.quick id) "mem_1")
      decide +kernel
    · change NoCollision (Host.quick id) (noteAt "mem_1" 3).dir.iterEvents
      unfold NoCollision
      decide +kernel
  exact ⟨harchived, archived_stays_hidden rfl rfl hspare (by decide) harchived⟩

/-- The ids that are listed, of records with any status. -/
def listedIds (db : Db) : Option (List String) :=
  (db.listMemory (Host.quick id) { statuses := [] }).toOption.map fun ms => ms.map (·.id)

theorem note_run :
    Archived (noteAt "mem_0000000000000000" 2).db "mem_0000000000000000" ∧
      listedIds (noteAt "mem_0000000000000000" 3).db = some ["mem_0000000000000000"] ∧
      listedIds (noteAt "mem_0000000000000000" 4).db = some ["mem_0000000000000000"] := by
  decide +kernel

/-- **A record that is archived and then superseded is listed again**, also after a replay. -/
theorem superseded_comes_back : ∀ k ∈ [3, 4], ¬ Hidden .ascii (Host.quick id)
    (noteAt "mem_0000000000000000" k).db "mem_0000000000000000" := by
  obtain ⟨-, hthird, hfourth⟩ := note_run
  have hlisted : ∀ db, listedIds db = some ["mem_0000000000000000"] →
      ¬ Hidden .ascii (Host.quick id) db "mem_0000000000000000" := by
    intro db hdb h
    unfold listedIds at hdb
    cases hms : db.listMemory (Host.quick id) { statuses := [] } with
    | error x =>
      rw [hms] at hdb
      cases hdb
    | ok ms =>
      rw [hms] at hdb
      have hids : ms.map (·.id) = ["mem_0000000000000000"] := Option.some.inj hdb
      obtain ⟨m, hm, hid⟩ := List.mem_map.1 (hids ▸ List.mem_singleton_self _ :
        "mem_0000000000000000" ∈ ms.map (·.id))
      exact h.list { statuses := [] } ms rfl hms m hm hid
  intro k hk
  simp only [List.mem_cons, List.not_mem_nil, or_false] at hk
  rcases hk with rfl | rfl
  · exact hlisted _ hthird
  · exact hlisted _ hfourth

end Shiroe

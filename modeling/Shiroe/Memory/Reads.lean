import Shiroe.Memory.Writes

/-!
# Records that can be read

The tags of a record are written as the text of a JSON list inside the payload of its event, and
the redaction pass rewrites that text like any other.  A record whose tags text is no JSON any
more cannot be read, nor can any list that holds it, and with it the check for contradictions
blocks every later claim that has an opposite.

* `writes_serviceable` : as long as the texts survive, everything can be read and written;
* `broken_tags` : an address after an accented letter breaks the text.
-/

namespace Shiroe

open Act

variable (T : TextTools) (H : Host)

/-- The authority of a proposal is a number, and the text of its tags is a JSON list, dict or
string after the redaction pass. -/
structure MemoryWrite.Survives (p : MemoryWrite) : Prop where
  authority : (∃ n, p.authority = .int n) ∨ ∃ x, p.authority = .float x
  tags : ∃ s, loadTags (.text (H.scrub (tagsText p.tags))) = .ok s

/-- The world after a call of `MemoryService.write` by an object. -/
def writeStep (w : World) (c : ℕ × MemoryWrite) : World := Act.final (writeProposal T H c.1 c.2) w

/-- Every record lies under a text and can be read. -/
def AllReadable (db : Db) : Prop :=
  ∀ r ∈ db.memoryRecords, (∃ id, r.id = .text id ∧ H.encodes id = true) ∧ r.Readable H

/-- Every stored record can be read, by its id and in every list, and a proposal that no check of
its own blocks and that no active record opposes is let through. -/
structure Serviceable (w : World) : Prop where
  get : ∀ r ∈ w.db.memoryRecords, ∃ id m, r.id = .text id ∧ w.db.getMemory H id = .ok m
  list : ∀ a : ListArgs, (∀ s ∈ a.kinds ++ a.statuses, H.encodes s = true) →
    (∀ n ∈ a.limit, Bindable H (.int n)) → ∃ ms, w.db.listMemory H a = .ok ms
  write : ∀ p, validateWrite p = none → (∀ f ∈ ownFindings T p, f.severity ≠ .block) →
    (∀ r ∈ w.db.memoryRecords, ListArgs.Selects {} r →
      ¬ Opposed (oppositionKey T p.claim) (oppositionKey T (pyStr r.claim.read))) →
    Accepts T H w p

variable {T H}

/-- A list is read when each of its items is. -/
theorem mapM_eq_ok {α β : Type} {f : α → Except Exc β} {l : List α}
    (h : ∀ a ∈ l, ∃ b, f a = .ok b) :
    ∃ bs, l.mapM f = .ok bs ∧ ∀ b ∈ bs, ∃ a ∈ l, f a = .ok b := by
  induction l with
  | nil => exact ⟨[], rfl, by simp⟩
  | cons a l ih =>
    obtain ⟨b, hb⟩ := h a (by simp)
    obtain ⟨bs, hbs, hmem⟩ := ih fun a ha => h a (List.mem_cons_of_mem _ ha)
    refine ⟨b :: bs, ?_, fun c hc => ?_⟩
    · rw [List.mapM_cons, hb, hbs]
      rfl
    · rcases List.mem_cons.1 hc with rfl | hc
      · exact ⟨a, by simp, hb⟩
      · obtain ⟨a', ha', hfa⟩ := hmem c hc
        exact ⟨a', List.mem_cons_of_mem _ ha', hfa⟩

/-- What is read comes from an item of the list. -/
theorem exists_of_mem_mapM {α β : Type} {f : α → Except Exc β} {l : List α} {bs : List β}
    (h : l.mapM f = .ok bs) {b : β} (hb : b ∈ bs) : ∃ a ∈ l, f a = .ok b := by
  rw [except_mapM_eq_ok] at h
  induction h with
  | nil => cases hb
  | @cons a c l bs hac _ ih =>
    rcases List.mem_cons.1 hb with rfl | hb
    · exact ⟨a, List.mem_cons_self, hac⟩
    · obtain ⟨a', ha', hab⟩ := ih hb
      exact ⟨a', List.mem_cons_of_mem _ ha', hab⟩

/-- The rows that `list` reads are rows of the table that it selects. -/
theorem mem_listed {db : Db} {a : ListArgs} {r : RecordRow} (h : r ∈ db.listed a) :
    r ∈ db.memoryRecords ∧ a.Selects r := by
  have hsub : r ∈ (db.memoryRecords.filter fun r => a.Selects r).insertionSort ListLe →
      r ∈ db.memoryRecords ∧ a.Selects r := by
    intro hr
    obtain ⟨hr, hsel⟩ := List.mem_filter.1 ((List.mem_insertionSort _).1 hr)
    exact ⟨hr, of_decide_eq_true hsel⟩
  unfold Db.listed at h
  split at h
  · exact hsub h
  · split_ifs at h
    · exact hsub h
    · exact hsub (List.mem_of_mem_take h)

theorem mem_listMemory {db : Db} {a : ListArgs} {ms : List MemoryRecord}
    (h : db.listMemory H a = .ok ms) {m : MemoryRecord} (hm : m ∈ ms) :
    ∃ r ∈ db.memoryRecords, a.Selects r ∧ db.recordFromRow H r = .ok m := by
  obtain ⟨-, -, h⟩ := except_bind_eq_ok.1 h
  obtain ⟨-, -, h⟩ := except_bind_eq_ok.1 h
  obtain ⟨r, hr, hread⟩ := exists_of_mem_mapM h hm
  exact ⟨r, (mem_listed hr).1, (mem_listed hr).2, hread⟩

theorem bindText_str {s : String} (h : H.encodes s = true) :
    bindText H (.str s) = .ok (.text s) := bindText_eq (j := .str s) h

namespace AllReadable

variable {db : Db} (h : AllReadable H db)

include h

theorem getMemory {r : RecordRow} (hr : r ∈ db.memoryRecords) :
    ∃ id m, r.id = .text id ∧ db.getMemory H id = .ok m := by
  obtain ⟨⟨id, hid, henc⟩, -⟩ := h r hr
  obtain ⟨r', hr'⟩ : ∃ r', db.record? id = some r' := by
    rw [← Option.isSome_iff_exists, Db.record?, List.find?_isSome]
    exact ⟨r, hr, decide_eq_true hid⟩
  obtain ⟨m, hm⟩ := RecordRow.readable_iff.1 (h r' (List.mem_of_find?_eq_some hr')).2
  refine ⟨id, m, hid, ?_⟩
  rw [Db.getMemory, bindText_str henc, hr']
  exact hm

theorem listMemory {a : ListArgs} (ha : ∀ s ∈ a.kinds ++ a.statuses, H.encodes s = true)
    (hn : ∀ n ∈ a.limit, Bindable H (.int n)) :
    ∃ ms, db.listMemory H a = .ok ms ∧
      ∀ m ∈ ms, ∃ r ∈ db.memoryRecords, a.Selects r ∧ db.recordFromRow H r = .ok m := by
  obtain ⟨ms, hms, hread⟩ := mapM_eq_ok (f := db.recordFromRow H) (l := db.listed a)
    fun r hr => RecordRow.readable_iff.1 (h r (mem_listed hr).1).2
  refine ⟨ms, ?_, fun m hm => ?_⟩
  · unfold Db.listMemory
    rw [except_forM_eq_ok (l := a.kinds ++ a.statuses) |>.2 fun s hs => by
        rw [bindText_str (ha s hs)]; rfl,
      except_forM_eq_ok (l := a.limit.toList) |>.2 fun n hmem => by
        rw [bindInt_eq (hn n (Option.mem_toList.1 hmem))]; rfl]
    exact hms
  · obtain ⟨r, hr, hm⟩ := hread m hm
    exact ⟨r, (mem_listed hr).1, (mem_listed hr).2, hm⟩

end AllReadable

theorem claim_recordFromRow {db : Db} {r : RecordRow} {m : MemoryRecord}
    (h : db.recordFromRow H r = .ok m) : m.claim = pyStr r.claim.read := by
  obtain ⟨a, -, h⟩ := except_bind_eq_ok.1 h
  obtain ⟨n, -, h⟩ := except_bind_eq_ok.1 h
  obtain ⟨s, -, h⟩ := except_bind_eq_ok.1 h
  cases h
  rfl

/-- Tables whose records can all be read serve every call. -/
theorem AllReadable.serviceable {w : World} (h : AllReadable H w.db) : Serviceable T H w where
  get _ hr := h.getMemory hr
  list a ha hn := by
    obtain ⟨ms, hms, -⟩ := h.listMemory ha hn
    exact ⟨ms, hms⟩
  write p hvalid hown hoppose := by
    have hactive : ∀ s ∈ ({} : ListArgs).kinds ++ ({} : ListArgs).statuses, H.encodes s = true := by
      intro s hs
      rw [List.mem_singleton.1 hs]
      exact H.encodes_ascii _ (by decide)
    obtain ⟨ms, hms, hread⟩ := h.listMemory hactive (by rintro n ⟨⟩)
    refine (gateReason_eq_none T).2
      ⟨hvalid, hown, (contradictions_eq_nil T).2 (Or.inr ⟨ms, hms, ?_⟩)⟩
    intro m hm
    obtain ⟨r, hr, hsel, hrow⟩ := hread m hm
    rw [claim_recordFromRow hrow]
    exact hoppose r hr hsel

/-! ### Runs of writes -/

/-- The row of a proposal that survives the redaction pass can be read. -/
theorem IsRecordOf.readable {p : MemoryWrite} {id : String} {r : RecordRow}
    (h : IsRecordOf H p id r) (hp : p.Survives H) : r.Readable H := by
  refine ⟨?_, ?_, ?_⟩
  · obtain ⟨v, hv, hauth⟩ := h.authority
    rw [hauth]
    rcases hp.authority with ⟨n, hn⟩ | ⟨x, hx⟩
    · rw [hn, Json.mapStr, bindParam] at hv
      split_ifs at hv
      cases hv
      exact ⟨.int n, rfl⟩
    · rw [hx, Json.mapStr, bindParam] at hv
      cases hv
      -- a NaN is kept as the default of the column
      split_ifs
      · exact ⟨.int 0, rfl⟩
      · exact ⟨.float x, rfl⟩
  · rw [h.schemaVersion]
    exact ⟨Shiroe.schemaVersion, rfl⟩
  · rw [h.tags]
    exact hp.tags

theorem AllReadable.puts {db db' : Db} {p : MemoryWrite} {id : String} (h : AllReadable H db)
    (hp : p.Survives H) (hputs : PutsRecord H p id db db') : AllReadable H db' := by
  obtain ⟨r, hr, hdb⟩ := hputs
  intro r' hr'
  rw [hdb, Table.mem_replace] at hr'
  rcases hr' with ⟨hr', -⟩ | rfl
  · exact h r' hr'
  · exact ⟨⟨_, hr.id_eq, hr.encodes⟩, hr.readable hp⟩

/-- **A write keeps every record readable** when what it stores survives the redaction pass. -/
theorem writeProposal_readable (i : ℕ) {p : MemoryWrite} {w : World} (h : AllReadable H w.db)
    (hp : Accepts T H w p → p.Survives H) :
    AllReadable H (Act.final (writeProposal T H i p) w).db := by
  have hputs : ∀ w' : World, (w'.db.memoryRecords = w.db.memoryRecords ∨
      Accepts T H w p ∧ PutsRecord H p (nextMemoryId H w) w.db w'.db) → AllReadable H w'.db := by
    rintro w' (hsame | ⟨hacc, hputs⟩)
    · intro r hr
      rw [hsame] at hr
      exact h r hr
    · exact h.puts (hp hacc) hputs
  exact Act.wp_final (I := fun w' => AllReadable H w'.db) (Act.wp_mono (writeProposal_spec T i p w)
    (fun _ w' hw' => hputs w' (Or.inr hw'.2)) fun _ w' hw' => hputs w' hw'.2)

/-- **Accepted writes whose texts survive the redaction pass never stop the memory from being read
and written**, in every run of writes from an empty memory. -/
theorem writes_serviceable {w : World} (empty : w.db.memoryRecords = [])
    {writes : List (ℕ × MemoryWrite)}
    (hsurvive : Run.Throughout (writeStep T H) (fun w c => Accepts T H w c.2 → c.2.Survives H) w
      writes) :
    Run.Throughout (writeStep T H) (fun w c => Serviceable T H (writeStep T H w c)) w writes := by
  refine hsurvive.mono (I := fun w => AllReadable H w.db) (fun w c h hs => ?_) ?_
  · have h' : AllReadable H (writeStep T H w c).db := writeProposal_readable c.1 h hs
    exact ⟨h', h'.serviceable⟩
  · intro r hr
    rw [empty] at hr
    cases hr

/-- A proposal whose tag is an address after an accented letter. -/
def accentedAddress : MemoryWrite where
  kind := "fact"
  title := "Owner"
  claim := "Reports go to the owner"
  sourceRefs := ["README.md"]
  evidenceGrade := "A"
  tags := ["ér@example.org"]

/-- A later proposal, with a claim that has an opposite. -/
def reportsEnabled : MemoryWrite where
  kind := "fact"
  title := "Reports"
  claim := "Weekly reports are enabled"
  sourceRefs := ["README.md"]
  evidenceGrade := "A"

/-- The text of the tags with the address masked: the mask takes the letters of the escape with
it and leaves the backslash. -/
def maskAddress (s : String) : String :=
  if s = "[\"\\u00e9r@example.org\"]" then "[\"\\[PII:email]\"]" else s

/-- A proposal with an address as its owner and as its tag. -/
def plainAddress : MemoryWrite :=
  { accentedAddress with owner := "ann@example.org", tags := ["ann@example.org"] }

/-- The masks of the address and of the text of the tags that holds it. -/
def maskPlain (s : String) : String :=
  if s = "ann@example.org" then "[PII:email]"
  else if s = "[\"ann@example.org\"]" then "[\"[PII:email]\"]" else s

/-- The memory after the first proposal. -/
def maskedWorld : World := writeStep .ascii (Host.quick maskPlain) emptyWorld (0, plainAddress)

/-- Both proposals are accepted, and the first one is stored with the address masked. -/
theorem masked_run :
    maskedWorld.db.memoryRecords.map (fun r => (r.owner, r.tagsJson)) =
        [(.text "[PII:email]", .text "[\"[PII:email]\"]")] ∧
      (writeStep .ascii (Host.quick maskPlain) maskedWorld
        (1, reportsEnabled)).db.memoryRecords.length = 2 := by
  decide +kernel

/-- Two proposals, the first of which the redaction pass rewrites: its tags can still be read. -/
theorem reports_serviceable :
    Run.Throughout (writeStep .ascii (Host.quick maskPlain))
      (fun w c => Serviceable .ascii (Host.quick maskPlain)
        (writeStep .ascii (Host.quick maskPlain) w c))
      emptyWorld [(0, plainAddress), (1, reportsEnabled)] ∧
    maskedWorld.db.memoryRecords.map (fun r => (r.owner, r.tagsJson)) =
        [(.text "[PII:email]", .text "[\"[PII:email]\"]")] ∧
    (writeStep .ascii (Host.quick maskPlain) maskedWorld
      (1, reportsEnabled)).db.memoryRecords.length = 2 := by
  refine ⟨writes_serviceable rfl ⟨fun _ => ⟨Or.inr ⟨_, rfl⟩, ?_⟩,
    fun _ => ⟨Or.inr ⟨_, rfl⟩, loadTags_tagsText _⟩, trivial⟩, masked_run⟩
  have hmask : (Host.quick maskPlain).scrub (tagsText plainAddress.tags) =
      tagsText ["[PII:email]"] := by decide
  rw [hmask]
  exact loadTags_tagsText _

/-- The write of the accented address. -/
def brokenWrite : EStateM.Result Exc World MemoryRecord :=
  writeProposal .ascii (Host.quick maskAddress) 0 accentedAddress emptyWorld

theorem broken_run :
    (match brokenWrite with
      | .ok _ _ => false
      | .error _ w' => decide (w'.db.memoryRecords.length = 1 ∧
          (w'.db.getMemory (Host.quick maskAddress) "mem_0000000000000000").isOk = false ∧
          (w'.db.listMemory (Host.quick maskAddress) {}).isOk = false ∧
          (gateReason .ascii (Host.quick maskAddress) w'.db reportsEnabled).isSome = true)) =
      true := by
  decide +kernel

/-- **The mask of an address after an accented letter breaks the text of the tags**: the write is
let through and stored, and from then on neither the record nor the list can be read, and a later
proposal with a claim that has an opposite is blocked. -/
theorem broken_tags :
    Accepts .ascii (Host.quick maskAddress) emptyWorld accentedAddress ∧
      ∃ x w', brokenWrite = .error x w' ∧ w'.db.memoryRecords.length = 1 ∧
        (∀ m, w'.db.getMemory (Host.quick maskAddress) "mem_0000000000000000" ≠ .ok m) ∧
        (∀ ms, w'.db.listMemory (Host.quick maskAddress) {} ≠ .ok ms) ∧
        Accepts .ascii (Host.quick maskAddress) emptyWorld reportsEnabled ∧
        ¬ Accepts .ascii (Host.quick maskAddress) w' reportsEnabled ∧
        ¬ Serviceable .ascii (Host.quick maskAddress) w' := by
  have hrun := broken_run
  refine ⟨by decide +kernel, ?_⟩
  cases h : brokenWrite with
  | ok m w' =>
    rw [h] at hrun
    cases hrun
  | error x w' =>
    rw [h] at hrun
    obtain ⟨hlen, hget, hlist, hblocked⟩ := of_decide_eq_true hrun
    have hms : ∀ ms, w'.db.listMemory (Host.quick maskAddress) {} ≠ .ok ms := by
      intro ms hok
      rw [hok] at hlist
      cases hlist
    refine ⟨x, w', rfl, hlen, fun m hok => ?_, hms, by decide +kernel, fun hacc => ?_, fun hs => ?_⟩
    · rw [hok] at hget
      cases hget
    · rw [show gateReason .ascii (Host.quick maskAddress) w'.db reportsEnabled = none from hacc]
        at hblocked
      cases hblocked
    · obtain ⟨ms, hok⟩ := hs.list {} (by decide +kernel) (by rintro n ⟨⟩)
      exact hms ms hok

end Shiroe

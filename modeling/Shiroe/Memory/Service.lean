import Shiroe.Lib.JsonScan
import Shiroe.Storage.Records

/-!
# The memory service

The reading half of `memory/service.py`, and the calls that write and read.  A record is read
column by column; its tags lie in a column as a text of their own and are parsed at every read.

* `RecordRow.readable_iff` : the columns that decide whether a record can be read;
* `loadTags_tagsText` : tags that the redaction pass leaves alone can be read.
-/

namespace Shiroe

open Act

variable (H : Host)

/-- `MemoryRecord`; the tags as the text they are read from. -/
structure MemoryRecord where
  id : String
  kind : String
  title : String
  claim : String
  summary : String
  status : String
  confidence : String
  evidenceGrade : String
  privacyClass : String
  /-- The number in the column. -/
  authority : Json
  scope : String
  validFrom : Json
  validUntil : Json
  createdAt : String
  updatedAt : String
  owner : String
  schemaVersion : ℤ
  archived : Bool
  sourceRefs : List String
  tags : String
  deriving DecidableEq

/-- The texts of the floats that are not finite, as `float(s)` reads them. -/
def isNonFiniteText (s : String) : Bool :=
  let l := ((s.toList.dropWhile isSpace).reverse.dropWhile isSpace).reverse
  let l := if l.head? = some '-' ∨ l.head? = some '+' then l.tail else l
  ["inf", "infinity", "nan"].contains (String.ofList (l.map Char.toLower))

/-- `float(x)` for a column, whose value is returned as it is. -/
def pyFloat : Json → Except Exc Json
  | .str s =>
    if (H.parseFloat s).isSome || isNonFiniteText s then .ok (.str s)
    else .error (.valueError ("could not convert string to float: " ++ pyRepr s))
  | .null => .error .typeError
  | .arr _ => .error .typeError
  | .obj _ => .error .typeError
  | j => .ok j

/-- `tuple(json.loads(row[18] or "[]"))`, as the text that is read. -/
def loadTags (v : SqlVal) : Except Exc String :=
  match v.read.orElse (.str "[]") with
  | .str s =>
    match Json.scan s.toList with
    | none => .error (.jsonDecode s)
    | some .array => .ok s
    | some .object => .ok s
    | some .string => .ok s
    | some _ => .error .typeError
  | _ => .error .typeError

/-- The source references of a record: `ORDER BY id ASC`. -/
def Db.sourceRefs (db : Db) (memoryId : String) : List String :=
  ((db.memorySources.filter fun r => r.memoryId = .text memoryId).insertionSort fun a b =>
    a.id.text?.getD "" ≤ b.id.text?.getD "").map fun r => pyStr r.sourceRef.read

/-- `_record_from_row`. -/
def Db.recordFromRow (db : Db) (r : RecordRow) : Except Exc MemoryRecord := do
  let id := pyStr r.id.read
  let authority ← pyFloat H r.authority.read
  let schemaVersion ← pyInt r.schemaVersion.read
  let tags ← loadTags r.tagsJson
  return {
    id, authority, schemaVersion, tags
    kind := pyStr r.kind.read
    title := pyStr r.title.read
    claim := pyStr r.claim.read
    summary := pyStr (r.summary.read.orElse (.str ""))
    status := pyStr r.status.read
    confidence := pyStr r.confidence.read
    evidenceGrade := pyStr r.evidenceGrade.read
    privacyClass := pyStr r.privacyClass.read
    scope := pyStr r.scope.read
    validFrom := r.validFrom.read
    validUntil := r.validUntil.read
    createdAt := pyStr r.createdAt.read
    updatedAt := pyStr r.updatedAt.read
    owner := pyStr r.owner.read
    archived := r.archived.read.truthy
    sourceRefs := db.sourceRefs id }

/-- The row of a record. -/
def Db.record? (db : Db) (id : String) : Option RecordRow :=
  db.memoryRecords.find? fun r => r.id = .text id

/-- `MemoryService.get` on the tables. -/
def Db.getMemory (db : Db) (id : String) : Except Exc MemoryRecord := do
  let _ ← bindText H (.str id)
  match db.record? id with
  | none => .error (.keyError id)
  | some r => db.recordFromRow H r

/-- The arguments of `MemoryService.list`. -/
structure ListArgs where
  kinds : List String := []
  statuses : List String := ["active"]
  includeArchived : Bool := false
  limit : Option ℤ := none

/-- The row is listed. -/
def ListArgs.Selects (a : ListArgs) (r : RecordRow) : Prop :=
  (a.kinds = [] ∨ r.kind ∈ a.kinds.map SqlVal.text) ∧
    (a.statuses = [] ∨ r.status ∈ a.statuses.map SqlVal.text) ∧
      (a.includeArchived = true ∨ r.archived = .int 0)

instance (a : ListArgs) (r : RecordRow) : Decidable (a.Selects r) :=
  inferInstanceAs (Decidable (_ ∧ _))

/-- `ORDER BY updated_at DESC, id ASC`. -/
def ListLe (a b : RecordRow) : Prop :=
  b.updatedAt.text?.getD "" < a.updatedAt.text?.getD "" ∨
    b.updatedAt.text?.getD "" = a.updatedAt.text?.getD "" ∧ a.id.text?.getD "" ≤ b.id.text?.getD ""

instance : DecidableRel ListLe := fun _ _ => inferInstanceAs (Decidable (_ ∨ _))

/-- The rows that `list` reads; a negative limit is none. -/
def Db.listed (db : Db) (a : ListArgs) : List RecordRow :=
  let rows := (db.memoryRecords.filter fun r => a.Selects r).insertionSort ListLe
  match a.limit with
  | none => rows
  | some n => if n < 0 then rows else rows.take n.toNat

/-- `MemoryService.list` on the tables. -/
def Db.listMemory (db : Db) (a : ListArgs) : Except Exc (List MemoryRecord) := do
  (a.kinds ++ a.statuses).forM fun s => do
    let _ ← bindText H (.str s)
  (a.limit.toList.forM fun n => do
    let _ ← bindInt H (.int n))
  (db.listed a).mapM (db.recordFromRow H)

/-- `MemoryService.get`. -/
def getMemory (id : String) : Op MemoryRecord := readDb (·.getMemory H id)

/-- `MemoryService.list`. -/
def listMemory (a : ListArgs) : Op (List MemoryRecord) := readDb (·.listMemory H a)

/-- `MemoryService.supersede`. -/
def supersedeMemory (i : ℕ) (id actor : String) : Op MemoryRecord := do
  let _ ← supersedeRecord H i id actor none
  getMemory H id

/-- `MemoryService.archive`. -/
def archiveMemory (i : ℕ) (id actor : String) : Op MemoryRecord := do
  let _ ← archiveRecord H i id actor none
  getMemory H id

/-! ### What can be read -/

variable {H}

/-- The columns that can fail to be read. -/
structure RecordRow.Readable (H : Host) (r : RecordRow) : Prop where
  authority : ∃ j, pyFloat H r.authority.read = .ok j
  schemaVersion : ∃ n, pyInt r.schemaVersion.read = .ok n
  tags : ∃ s, loadTags r.tagsJson = .ok s

theorem RecordRow.readable_iff {db : Db} {r : RecordRow} :
    r.Readable H ↔ ∃ m, db.recordFromRow H r = .ok m := by
  constructor
  · rintro ⟨⟨a, ha⟩, ⟨n, hn⟩, ⟨s, hs⟩⟩
    rw [Db.recordFromRow, ha, hn, hs]
    exact ⟨_, rfl⟩
  · rintro ⟨m, hm⟩
    obtain ⟨a, ha, hm⟩ := except_bind_eq_ok.1 hm
    obtain ⟨n, hn, hm⟩ := except_bind_eq_ok.1 hm
    obtain ⟨s, hs, -⟩ := except_bind_eq_ok.1 hm
    exact ⟨⟨a, ha⟩, ⟨n, hn⟩, ⟨s, hs⟩⟩

/-- Tags that reach the table as they were written can be read. -/
theorem loadTags_tagsText (tags : List String) : ∃ s, loadTags (.text (tagsText tags)) = .ok s := by
  have htext : tagsText tags = String.ofList ('[' :: Json.stringItems true tags) := rfl
  have hne : (Json.str (tagsText tags)).truthy = true := by
    rw [htext, Json.truthy, bne_iff_ne]
    intro h
    have hlen := congrArg (fun s : String => s.toList.length) h
    simp at hlen
  refine ⟨tagsText tags, ?_⟩
  rw [loadTags, SqlVal.read, Json.orElse, if_pos hne]
  simp only [htext, String.toList_ofList, Json.scan_stringList]

end Shiroe

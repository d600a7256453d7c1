import Shiroe.Memory.Service

/-!
# The generated views

The pages of `storage/views.py` that show memory records.  Each is a table of Markdown over the rows
that are not archived, and `MemoryView.rows` are the rows that it is made of.

* `MemoryView.not_archived` : no page is made of archived rows;
* `MemoryView.body_eq` : what is on a page depends on the rows that are not archived alone.
-/

namespace Shiroe

/-- `_table`. -/
def markdownTable (headers : List String) (rows : List (List Json)) : String :=
  if rows = [] then "_none_\n"
  else
    let line (cells : List String) := "| " ++ " | ".intercalate cells ++ " |"
    let rule := "|" ++ "|".intercalate (headers.map fun _ => "---") ++ "|"
    "\n".intercalate (line headers :: rule :: rows.map fun r => line (r.map pyStr)) ++ "\n"

/-- `ORDER BY updated_at DESC`; rows of one time come as they lie in the table. -/
def NewerFirst (a b : RecordRow) : Prop := b.updatedAt.text?.getD "" ≤ a.updatedAt.text?.getD ""

instance : DecidableRel NewerFirst := fun _ _ => inferInstanceAs (Decidable (_ ≤ _))

/-- The rows `WHERE archived=0`. -/
def Db.unarchived (db : Db) : List RecordRow := db.memoryRecords.filter fun r => r.archived = .int 0

/-- The pages that show memory records. -/
inductive MemoryView where
  | hot | decisions | risks | contradictions | projectContext
  deriving DecidableEq, Repr

/-- The rows of a kind, the one changed last in front. -/
def Db.ofKind (db : Db) (kind : String) : List RecordRow :=
  (db.unarchived.filter fun r => r.kind = .text kind).insertionSort NewerFirst

/-- The rows that a page is made of. -/
def MemoryView.rows (db : Db) : MemoryView → List RecordRow
  | .hot => (db.unarchived.insertionSort NewerFirst).take 20
  | .decisions => db.ofKind "decision"
  | .risks => db.ofKind "risk"
  | .contradictions => db.ofKind "contradiction"
  | .projectContext => db.unarchived

/-- `COUNT(*) … GROUP BY kind`: each kind of the rows with the number of its rows. -/
def countByKind (rows : List RecordRow) : List (List Json) :=
  (((rows.map (·.kind)).dedup).insertionSort fun a b => a.text?.getD "" ≤ b.text?.getD "").map
    fun kind => [kind.read, .int ((rows.filter fun r => r.kind = kind).length)]

/-- `_view_hot`. -/
def Db.viewHot (db : Db) : String :=
  markdownTable ["id", "kind", "title", "status", "confidence"]
    ((MemoryView.rows db .hot).map fun r =>
      [r.id.read, r.kind.read, r.title.read, r.status.read, r.confidence.read])

/-- `_view_decisions`. -/
def Db.viewDecisions (db : Db) : String :=
  markdownTable ["id", "title", "claim", "grade", "updated_at"]
    ((MemoryView.rows db .decisions).map fun r =>
      [r.id.read, r.title.read, r.claim.read, r.evidenceGrade.read, r.updatedAt.read])

/-- `_view_risks`. -/
def Db.viewRisks (db : Db) : String :=
  markdownTable ["id", "title", "summary", "confidence", "updated_at"]
    ((MemoryView.rows db .risks).map fun r =>
      [r.id.read, r.title.read, r.summary.read, r.confidence.read, r.updatedAt.read])

/-- `_view_contradictions`. -/
def Db.viewContradictions (db : Db) : String :=
  markdownTable ["id", "title", "claim", "status", "updated_at"]
    ((MemoryView.rows db .contradictions).map fun r =>
      [r.id.read, r.title.read, r.claim.read, r.status.read, r.updatedAt.read])

/-- `_view_project_context`. -/
def Db.viewProjectContext (db : Db) : String :=
  markdownTable ["kind", "count"] (countByKind (MemoryView.rows db .projectContext))

/-- The text of a page below its heading. -/
def MemoryView.body (db : Db) : MemoryView → String
  | .hot => db.viewHot
  | .decisions => db.viewDecisions
  | .risks => db.viewRisks
  | .contradictions => db.viewContradictions
  | .projectContext => db.viewProjectContext

variable {db : Db}

theorem mem_unarchived {r : RecordRow} :
    r ∈ db.unarchived ↔ r ∈ db.memoryRecords ∧ r.archived = .int 0 := by
  rw [Db.unarchived, List.mem_filter, decide_eq_true_eq]

/-- **No page is made of archived rows.** -/
theorem MemoryView.not_archived {v : MemoryView} {r : RecordRow} (h : r ∈ v.rows db) :
    r ∈ db.memoryRecords ∧ r.archived = .int 0 := by
  have hkind : ∀ {kind : String}, r ∈ db.ofKind kind → r ∈ db.unarchived := fun h =>
    (List.mem_filter.1 ((List.mem_insertionSort _).1 h)).1
  rw [← mem_unarchived]
  cases v with
  | hot => exact (List.mem_insertionSort _).1 (List.mem_of_mem_take h)
  | decisions => exact hkind h
  | risks => exact hkind h
  | contradictions => exact hkind h
  | projectContext => exact h

/-- The table without a record. -/
def Db.withoutRecord (db : Db) (id : String) : Db :=
  { db with memoryRecords := db.memoryRecords.filter fun r => r.id ≠ .text id }

/-- **A page depends on the rows that are not archived alone.** -/
theorem MemoryView.body_eq {db' : Db} (h : db'.unarchived = db.unarchived) (v : MemoryView) :
    v.body db' = v.body db := by
  have hrows : ∀ v : MemoryView, v.rows db' = v.rows db := by
    intro v
    cases v <;> simp only [rows, Db.ofKind, h]
  cases v with
  | hot => simp only [body, Db.viewHot, hrows]
  | decisions => simp only [body, Db.viewDecisions, hrows]
  | risks => simp only [body, Db.viewRisks, hrows]
  | contradictions => simp only [body, Db.viewContradictions, hrows]
  | projectContext => simp only [body, Db.viewProjectContext, hrows]

end Shiroe

import Shiroe.Work.Store
import Shiroe.Work.Compiler

/-!
# Creating a graph

What `WorkStore.create` writes, and when it leaves another graph alone: the table of nodes is
keyed by the node id alone, so a new graph takes the nodes whose ids it shares with a stored one.

* `createGraph_spec` : the rows that a new graph puts in;
* `createGraph_leaves_iff` : another graph is left alone exactly if no id is shared.
-/

namespace Shiroe

open Act

variable {H : Host}

/-! ### The rows of a new graph -/

/-- The row that a node of a new graph gets; `graphId` and `risk` are as they are stored. -/
def WorkNode.row (H : Host) (graphId : String) (risk : SqlVal) (n : WorkNode) : NodeRow where
  id := .text (H.scrub n.id)
  graphId := .text graphId
  kind := .text (H.scrub n.kind.value)
  objective := .text (H.scrub n.objective)
  requiresJson := .json ((Json.arr n.requires).mapStr H.scrub)
  risk := risk
  approvalRequired := n.approvalRequired
  independentReview := n.independentReview
  evidenceRequired := n.evidenceRequired
  expectedOutputsJson := .json ((Json.arr n.expectedOutputs).mapStr H.scrub)
  retryJson := .json (n.retry.toJson.mapStr H.scrub)
  placementJson := .json (n.placement.toJson.mapStr H.scrub)
  metadataJson := .json (n.metadata.mapStr H.scrub)
  status := .text (H.scrub NodeStatus.pending.value)

/-- `r` is the row of the node in the graph stored under `graphId`. -/
def WorkNode.IsRow (H : Host) (graphId : String) (n : WorkNode) (r : NodeRow) : Prop :=
  ∃ risk, bindText H (n.risk.mapStr H.scrub) = .ok risk ∧ r = n.row H graphId risk

/-- The row of an edge of a new graph. -/
def WorkEdge.row (H : Host) (graphId : String) (e : WorkEdge) : EdgeRow where
  graphId := .text graphId
  srcId := .text (H.scrub e.srcId)
  dstId := .text (H.scrub e.dstId)

/-- The row of a new graph. -/
def WorkGraph.row (H : Host) (g : WorkGraph) (when : String) : GraphRow where
  id := .text (H.scrub g.id)
  objective := .text (H.scrub g.objective)
  constraintsJson := .json ((Json.arr g.constraints).mapStr H.scrub)
  successCriteriaJson := .json ((Json.arr g.successCriteria).mapStr H.scrub)
  status := .text (H.scrub g.status.value)
  version := .int g.version
  createdAt := .text when
  updatedAt := .text when

/-- The tables with some rows of work graphs put in. -/
def Db.withWork (db : Db) (graphs : List GraphRow) (nodes : List NodeRow) (edges : List EdgeRow) :
    Db :=
  { db with
    workGraphs := Table.replaceAll (·.id.key) graphs db.workGraphs
    workNodes := Table.replaceAll (·.id.key) nodes db.workNodes
    workEdges := Table.replaceAll some edges db.workEdges }

theorem wp_text_str {s : String} {j : Json} (hj : j = .str s) {Q : SqlVal → Db → Prop} {db : Db}
    {E : Exc → Db → Prop} (hE : ∀ x, E x db) (hQ : Q (.text s) db) : Act.wp (text H j) Q E db :=
  wp_text_any hE fun _ hv => bindText_str_eq_ok (hj ▸ hv) ▸ hQ

theorem applyNode_spec (n : WorkNode) {graphId : String} (db : Db) :
    Act.wp (applyNode H (.str graphId) (n.toJson.mapStr H.scrub))
      (fun _ db' => ∃ r, n.IsRow H graphId r ∧ db' = db.withWork [] [r] [])
      (fun _ db' => db' = db) db := by
  -- what the stored node holds, field by field
  have hp : ∀ p, p = n.toJson.mapStr H.scrub → p.isObj = true ∧
      (∀ k ∈ ["id", "kind", "objective"], p.has k = true) ∧ p.get "id" = .str (H.scrub n.id) ∧
      p.get "kind" = .str (H.scrub n.kind.value) ∧
      p.get "objective" = .str (H.scrub n.objective) ∧
      p.getD "requires" (.arr []) = (Json.arr n.requires).mapStr H.scrub ∧
      p.getD "risk" (.str "") = n.risk.mapStr H.scrub ∧
      p.get "approval_required" = .bool n.approvalRequired ∧
      p.get "independent_review" = .bool n.independentReview ∧
      p.get "evidence_required" = .bool n.evidenceRequired ∧
      p.getD "expected_outputs" (.arr []) = (Json.arr n.expectedOutputs).mapStr H.scrub ∧
      p.getD "retry" (.mkObj []) = n.retry.toJson.mapStr H.scrub ∧
      p.getD "placement" (.mkObj [("mode", .str "local"), ("node_id", .null)]) =
        n.placement.toJson.mapStr H.scrub ∧
      p.getD "metadata" (.mkObj []) = n.metadata.mapStr H.scrub ∧
      p.getD "status" (.str "pending") = .str (H.scrub NodeStatus.pending.value) := by
    rintro p rfl
    simp [WorkNode.toJson, RetryPolicy.toJson, Placement.toJson, List.lookup, Json.getD]
  obtain ⟨hobj, hhas, h₁, h₂, h₃, h₄, h₅, h₆, h₇, h₈, h₉, h₁₀, h₁₁, h₁₂, h₁₃⟩ := hp _ rfl
  generalize n.toJson.mapStr H.scrub = p at *
  simp only [List.forall_mem_cons, List.not_mem_nil, false_imp_iff, implies_true, and_true] at hhas
  unfold applyNode
  simp only [wp_bind, wp_item hobj, hhas]
  refine wp_text_str h₁ (fun _ => rfl) (wp_text_str rfl (fun _ => rfl)
    (wp_text_str h₂ (fun _ => rfl) (wp_text_str h₃ (fun _ => rfl) ?_)))
  refine wp_text_any (fun _ => rfl) fun risk hrisk => wp_text_str h₁₃ (fun _ => rfl) ?_
  rw [insertNode, wp_exec, h₄, h₆, h₇, h₈, h₉, h₁₀, h₁₁, h₁₂]
  split
  · exact ⟨_, ⟨risk, h₅ ▸ hrisk, rfl⟩, rfl⟩
  · rfl

theorem applyEdge_spec (e : WorkEdge) {graphId : String} (db : Db) :
    Act.wp (applyEdge H (.str graphId) (e.toJson.mapStr H.scrub))
      (fun _ db' => db' = db.withWork [] [] [e.row H graphId]) (fun _ db' => db' = db) db := by
  have hp : ∀ p, p = e.toJson.mapStr H.scrub → p.isObj = true ∧
      (∀ k ∈ ["src_id", "dst_id"], p.has k = true) ∧ p.get "src_id" = .str (H.scrub e.srcId) ∧
      p.get "dst_id" = .str (H.scrub e.dstId) := by
    rintro p rfl
    simp [WorkEdge.toJson, List.lookup]
  obtain ⟨hobj, hhas, h₁, h₂⟩ := hp _ rfl
  generalize e.toJson.mapStr H.scrub = p at *
  simp only [List.forall_mem_cons, List.not_mem_nil, false_imp_iff, implies_true, and_true] at hhas
  unfold applyEdge
  simp only [wp_bind, wp_item hobj, hhas]
  refine wp_text_str rfl (fun _ => rfl) (wp_text_str h₁ (fun _ => rfl)
    (wp_text_str h₂ (fun _ => rfl) ?_))
  rw [insertEdge, wp_exec]
  split
  · rfl
  · rfl

theorem Db.withWork_node (db : Db) (gs : List GraphRow) (ns : List NodeRow) (r : NodeRow) :
    (db.withWork gs ns []).withWork [] [r] [] = db.withWork gs (ns ++ [r]) [] := by
  simp [withWork, Table.replaceAll]

theorem Db.withWork_edge (db : Db) (gs : List GraphRow) (ns : List NodeRow) (es : List EdgeRow)
    (r : EdgeRow) : (db.withWork gs ns es).withWork [] [] [r] = db.withWork gs ns (es ++ [r]) := by
  simp [withWork, Table.replaceAll]

/-- The graph, some of its nodes and some of its edges have been put in. -/
def Puts (H : Host) (g : WorkGraph) (nodes : List WorkNode) (edges : List WorkEdge) (db db' : Db) :
    Prop :=
  ∃ when rows, List.Forall₂ (WorkNode.IsRow H (H.scrub g.id)) nodes rows ∧
    db' = db.withWork [g.row H when] rows (edges.map (WorkEdge.row H (H.scrub g.id)))

/-- What is left where the tables reject a part of a graph: nothing of it, or the graph with the
nodes and edges before that part. -/
def PutsPart (H : Host) (g : WorkGraph) (db db' : Db) : Prop :=
  db' = db ∨ ∃ nodes edges, nodes <+: g.nodes ∧ edges <+: g.edges ∧ Puts H g nodes edges db db'

theorem putNodes_spec (g : WorkGraph) {db db₀ : Db} (h : Puts H g [] [] db db₀) :
    Act.wp ((g.nodes.map fun n => n.toJson.mapStr H.scrub).forM
        (applyNode H (.str (H.scrub g.id))))
      (fun _ => Puts H g g.nodes [] db) (fun _ => PutsPart H g db) db₀ := by
  refine wp_forM_map_parts (I := fun done => Puts H g done [] db) h fun done n rest hl db₁ h₁ => ?_
  obtain ⟨when, rows, hrows, rfl⟩ := h₁
  refine wp_mono (applyNode_spec n _) ?_ ?_
  · rintro - db₂ ⟨r, hr, rfl⟩
    exact ⟨when, rows ++ [r], List.rel_append hrows (List.Forall₂.cons hr .nil),
      db.withWork_node _ _ _⟩
  · rintro x db₂ rfl
    exact Or.inr ⟨done, [], ⟨n :: rest, hl.symm⟩, List.nil_prefix, when, rows, hrows, rfl⟩

theorem putEdges_spec (g : WorkGraph) {db db₀ : Db} (h : Puts H g g.nodes [] db db₀) :
    Act.wp ((g.edges.map fun e => e.toJson.mapStr H.scrub).forM
        (applyEdge H (.str (H.scrub g.id))))
      (fun _ => Puts H g g.nodes g.edges db) (fun _ => PutsPart H g db) db₀ := by
  refine wp_forM_map_parts (I := fun done => Puts H g g.nodes done db) h
    fun done e rest hl db₁ h₁ => ?_
  obtain ⟨when, rows, hrows, rfl⟩ := h₁
  refine wp_mono (applyEdge_spec e _) ?_ ?_
  · rintro - db₂ rfl
    exact ⟨when, rows, hrows, by rw [db.withWork_edge, List.map_append]; rfl⟩
  · rintro x db₂ rfl
    exact Or.inr ⟨g.nodes, done, List.prefix_rfl, ⟨e :: rest, hl.symm⟩, when, rows, hrows, rfl⟩

theorem applyRunCreated_spec (g : WorkGraph) (now : String) {env : Json} {t : String}
    (ht : env.get "timestamp" = .str t) (db : Db) :
    Act.wp (applyRunCreated H env ((g.event now).payload.mapStr H.scrub))
      (fun _ => Puts H g g.nodes g.edges db) (fun _ => PutsPart H g db) db := by
  have hp : ∀ p, p = (g.event now).payload.mapStr H.scrub →
      anyNone p ["id", "objective", "status", "version", "nodes", "edges"] = false ∧
      p.get "id" = .str (H.scrub g.id) ∧ p.get "objective" = .str (H.scrub g.objective) ∧
      p.getD "constraints" (.arr []) = (Json.arr g.constraints).mapStr H.scrub ∧
      p.getD "success_criteria" (.arr []) = (Json.arr g.successCriteria).mapStr H.scrub ∧
      p.get "status" = .str (H.scrub g.status.value) ∧ p.get "version" = .int g.version ∧
      p.get "event_time" = .str (H.scrub now) ∧
      p.get "nodes" = .arr (g.nodes.map fun n => n.toJson.mapStr H.scrub) ∧
      p.get "edges" = .arr (g.edges.map fun e => e.toJson.mapStr H.scrub) := by
    rintro p rfl
    simp [anyNone, WorkGraph.event, List.lookup, Json.getD, Json.isNull]
  obtain ⟨hnone, h₁, h₂, h₃, h₄, h₅, h₆, h₇, h₈, h₉⟩ := hp _ rfl
  generalize (g.event now).payload.mapStr H.scrub = p at *
  obtain ⟨when, hwhen⟩ : ∃ when, eventTime env p = .str when := by
    rw [eventTime, h₇, ht, Json.orElse]
    split_ifs <;> exact ⟨_, rfl⟩
  have hskip : ∀ _ : Exc, PutsPart H g db db := fun _ => Or.inl rfl
  unfold applyRunCreated
  rw [if_neg (by rw [hnone]; exact Bool.false_ne_true)]
  simp only [wp_bind]
  refine wp_text_str h₁ hskip (wp_text_str h₂ hskip (wp_text_str h₅ hskip ?_))
  rw [integer, wp_ofExcept]
  split
  case h_2 => exact Or.inl rfl
  case h_1 v hv =>
    have hv : v = .int g.version := by
      rw [h₆, bindInt, bindParam] at hv
      split_ifs at hv
      · exact (Except.ok.inj hv).symm
      · cases hv
    refine wp_text_str hwhen hskip (wp_text_str hwhen hskip ?_)
    rw [insertGraph, wp_exec]
    split
    case h_2 => exact Or.inl rfl
    case h_1 =>
      -- the graph is in; then its nodes, then the edges between them
      simp only [wp_ofExcept, h₈, h₉, Json.items, h₁]
      refine wp_mono (putNodes_spec g ⟨when, [], .nil, ?_⟩) (fun _ db₁ h => ?_)
        fun _ _ h => h
      · rw [h₃, h₄, hv]
        rfl
      · exact wp_mono (putEdges_spec g h) (fun _ _ h => (wp_pure _).2 h) fun _ _ h => h

/-- **What creating a graph writes**: its rows; where the tables reject a part of the graph, the
rows before that part. -/
theorem createGraph_spec (i : ℕ) (g : WorkGraph) (w : World) :
    Act.wp (createGraph H i g)
      (fun _ w' => w'.rest = w.rest ∧ ∃ db, db.exceptMirror = w.db.exceptMirror ∧
        Puts H g g.nodes g.edges db w'.db)
      (fun _ w' => w'.rest = w.rest ∧ ∃ db, db.exceptMirror = w.db.exceptMirror ∧
        PutsPart H g db w'.db) w := by
  rw [createGraph, wp_bind, wp_now, wp_bind]
  refine wp_mono (emit_of_fold_part (Q := Puts H g g.nodes g.edges) (P := PutsPart H g)
    (fun _ => Or.inl rfl) (fun env henv db => ?_) i) (fun _ _ h => (wp_pure _).2 h) fun _ _ h => h
  rw [applyEvent_runCreated (henv.payloadOf (Json.isObj_mkObj _)) henv.eventType, touched, wp_map]
  exact applyRunCreated_spec g _ henv.timestamp db

/-! ### Another graph -/

/-- Between two tables, everything that the store says of a graph is the same: the graph, the
statuses of its nodes, what is stored of each of them, and which of them are ready. -/
structure LeavesGraph (H : Host) (graphId : String) (db db' : Db) : Prop where
  graph : db'.getGraph H graphId = db.getGraph H graphId
  statuses : db'.nodeStatuses graphId = db.nodeStatuses graphId
  node : ∀ nodeId, .text nodeId ∈ (db.nodesOf graphId).map (·.id) →
    db'.getNode H nodeId = db.getNode H nodeId ∧
      db'.nodeStateVersion H nodeId = db.nodeStateVersion H nodeId ∧
      db'.nodeOutput H nodeId = db.nodeOutput H nodeId
  ready : db'.readyNodeIds H graphId = db.readyNodeIds H graphId

/-- No node of `g` has, as it is stored, the id of a stored node of the graph under `graphId`. -/
def NoSharedNode (H : Host) (db : Db) (graphId : String) (g : WorkGraph) : Prop :=
  ∀ n ∈ g.nodes, .text (H.scrub n.id) ∉ (db.nodesOf graphId).map (·.id)

theorem LeavesGraph.of_rows {graphId : String} {db db' : Db}
    (hg : db'.graph? graphId = db.graph? graphId) (hn : db'.nodesOf graphId = db.nodesOf graphId)
    (he : db'.edgesOf graphId = db.edgesOf graphId)
    (hnode : ∀ nodeId, .text nodeId ∈ (db.nodesOf graphId).map (·.id) →
      db'.node? nodeId = db.node? nodeId) : LeavesGraph H graphId db db' := by
  have hget : db'.getGraph H graphId = db.getGraph H graphId := by
    simp only [Db.getGraph, hg, hn, he]
  have hstatus : db'.nodeStatuses graphId = db.nodeStatuses graphId := by
    simp only [Db.nodeStatuses, hn]
  refine ⟨hget, hstatus, fun nodeId hin => ?_, by simp only [Db.readyNodeIds, hget, hstatus]⟩
  have hrow : db'.nodeRow H nodeId = db.nodeRow H nodeId := by
    simp only [Db.nodeRow, hnode nodeId hin]
  simp only [Db.getNode, Db.nodeStateVersion, Db.nodeOutput, hrow, and_self]

section

variable {g : WorkGraph} {nodes : List WorkNode} {edges : List WorkEdge} {db db' : Db}
  {graphId : String}

/-- The rows of the nodes of a new graph, by their ids and their graph. -/
theorem isRow_of_mem {graphId : String} {rows : List NodeRow}
    (h : List.Forall₂ (WorkNode.IsRow H graphId) nodes rows) {r : NodeRow} (hr : r ∈ rows) :
    ∃ n ∈ nodes, r.id = .text (H.scrub n.id) ∧ r.graphId = .text graphId := by
  induction h with
  | nil => cases hr
  | cons hrow _ ih =>
    rcases List.mem_cons.1 hr with rfl | hr
    · obtain ⟨risk, -, rfl⟩ := hrow
      exact ⟨_, List.mem_cons_self, rfl, rfl⟩
    · obtain ⟨n, hn, h⟩ := ih hr
      exact ⟨n, List.mem_cons_of_mem _ hn, h⟩

theorem row_of_mem {graphId : String} {rows : List NodeRow}
    (h : List.Forall₂ (WorkNode.IsRow H graphId) nodes rows) {n : WorkNode} (hn : n ∈ nodes) :
    ∃ r ∈ rows, r.id = .text (H.scrub n.id) := by
  induction h with
  | nil => cases hn
  | cons hrow _ ih =>
    rcases List.mem_cons.1 hn with rfl | hn
    · obtain ⟨risk, -, rfl⟩ := hrow
      exact ⟨_, List.mem_cons_self, rfl⟩
    · obtain ⟨r, hr, h⟩ := ih hn
      exact ⟨r, List.mem_cons_of_mem _ hr, h⟩

variable (h : Puts H g nodes edges db db') (hid : H.scrub g.id ≠ graphId)

include h hid

theorem Puts.graph? : db'.graph? graphId = db.graph? graphId := by
  obtain ⟨when, rows, hrows, rfl⟩ := h
  refine Table.find?_replaceAll_of_ne ?_ ?_
  · simpa [WorkGraph.row] using hid
  · intro r hr r' hr'
    rw [List.mem_singleton] at hr
    subst hr
    have hr' : r'.id = .text graphId := by simpa using hr'
    refine Or.inr ?_
    simpa [hr', WorkGraph.row] using hid.symm

theorem Puts.edgesOf : db'.edgesOf graphId = db.edgesOf graphId := by
  obtain ⟨when, rows, hrows, rfl⟩ := h
  have hrow : ∀ r ∈ edges.map (WorkEdge.row H (H.scrub g.id)),
      r.graphId = .text (H.scrub g.id) := by
    intro r hr
    obtain ⟨e, -, rfl⟩ := List.mem_map.1 hr
    rfl
  refine (Table.filter_replaceAll_eq_iff fun r hr => by simpa [hrow r hr] using hid).2 ?_
  intro r' _ hr' r hr
  refine Or.inr fun heq => hid ?_
  have hr' : r'.graphId = .text graphId := by simpa using hr'
  rw [Option.some.inj heq, hrow r hr] at hr'
  exact SqlVal.text.inj hr'

/-- The rows of another graph's nodes are left alone exactly if none of their ids is shared. -/
theorem Puts.nodesOf_iff : db'.nodesOf graphId = db.nodesOf graphId ↔
    ∀ n ∈ nodes, .text (H.scrub n.id) ∉ (db.nodesOf graphId).map (·.id) := by
  obtain ⟨when, rows, hrows, rfl⟩ := h
  have hother : ∀ r ∈ rows, decide (r.graphId = .text graphId) = false := by
    intro r hr
    obtain ⟨n, -, -, hg⟩ := isRow_of_mem hrows hr
    simpa [hg] using hid
  refine (Table.filter_replaceAll_eq_iff hother).trans ⟨fun hkeep n hn hmem => ?_, ?_⟩
  · obtain ⟨r', hr', hkey⟩ := List.mem_map.1 hmem
    obtain ⟨hr', hgraph⟩ := List.mem_filter.1 hr'
    obtain ⟨r, hr, hrid⟩ := row_of_mem hrows hn
    rcases hkeep r' hr' hgraph r hr with hnone | hne
    · rw [hkey] at hnone
      cases hnone
    · exact hne (by rw [hkey, hrid])
  · intro hno r' hr' hgraph r hr
    obtain ⟨n, hn, hrid, -⟩ := isRow_of_mem hrows hr
    by_cases hnull : r'.id = .null
    · exact Or.inl (by rw [hnull]; rfl)
    · refine Or.inr fun heq => hno n hn ?_
      have : r'.id = r.id := SqlVal.eq_of_key_eq (by simp [SqlVal.key, hnull]) heq
      rw [← hrid, ← this]
      exact List.mem_map_of_mem (List.mem_filter.2 ⟨hr', hgraph⟩)

theorem Puts.leavesGraph
    (hno : ∀ n ∈ nodes, .text (H.scrub n.id) ∉ (db.nodesOf graphId).map (·.id)) :
    LeavesGraph H graphId db db' := by
  refine .of_rows (h.graph? hid) ((h.nodesOf_iff hid).2 hno) (h.edgesOf hid) fun nodeId hin => ?_
  obtain ⟨when, rows, hrows, rfl⟩ := h
  have hne : ∀ r ∈ rows, r.id ≠ .text nodeId := by
    intro r hr heq
    obtain ⟨n, hn, hrid, -⟩ := isRow_of_mem hrows hr
    rw [hrid] at heq
    exact hno n hn (heq ▸ hin)
  refine Table.find?_replaceAll_of_ne (fun r hr => by simpa using hne r hr) fun r hr r' hr' => ?_
  have hr' : r'.id = .text nodeId := by simpa using hr'
  refine Or.inr fun heq => hne r hr ?_
  rw [hr'] at heq
  exact (SqlVal.eq_of_key_eq (by simp) heq).symm

/-- A graph whose statuses stay the same keeps all its nodes. -/
theorem Puts.noShared_of_statuses (hs : db'.nodeStatuses graphId = db.nodeStatuses graphId) :
    ∀ n ∈ nodes, .text (H.scrub n.id) ∉ (db.nodesOf graphId).map (·.id) := by
  refine (h.nodesOf_iff hid).1 ?_
  obtain ⟨when, rows, hrows, rfl⟩ := h
  have hother : ∀ r ∈ rows, decide (r.graphId = .text graphId) = false := by
    intro r hr
    obtain ⟨n, -, -, hg⟩ := isRow_of_mem hrows hr
    simpa [hg] using hid
  have hlen := congrArg List.length hs
  simp only [Db.nodeStatuses, List.length_map] at hlen
  -- the nodes that are left are those that no row replaces; as many are left as there were
  unfold Db.nodesOf Db.withWork at hlen ⊢
  simp only [Table.filter_replaceAll hother] at hlen ⊢
  exact List.filter_eq_self.2 (List.length_filter_eq_length_iff.1 hlen)

end

/-- What is said of a graph does not depend on the mirror of the log. -/
theorem LeavesGraph.of_mirror {graphId : String} {db₀ db db' : Db}
    (hdb : db.exceptMirror = db₀.exceptMirror) (h : LeavesGraph H graphId db db') :
    LeavesGraph H graphId db₀ db' := by
  have heq : db = { db₀ with memoryEvents := db.memoryEvents } := by
    cases db
    cases db₀
    simpa [Db.exceptMirror] using hdb
  rw [heq] at h
  exact ⟨h.graph, h.statuses, h.node, h.ready⟩

/-- Which nodes are shared does not depend on the mirror either. -/
theorem NoSharedNode.of_mirror {graphId : String} {g : WorkGraph} {db₀ db : Db}
    (hdb : db.exceptMirror = db₀.exceptMirror) :
    NoSharedNode H db graphId g ↔ NoSharedNode H db₀ graphId g := by
  have hnodes : db.workNodes = db₀.workNodes := (congrArg Db.workNodes hdb :)
  rw [NoSharedNode, NoSharedNode, Db.nodesOf, Db.nodesOf, hnodes]

/-- **Creating a graph leaves another graph alone exactly if no node id is shared.**  The other
graph is the one stored under `graphId`, an id that the new graph does not get after redaction.
Without a shared node it is left alone however the creation ends. -/
theorem createGraph_leaves_iff (H : Host) (i : ℕ) (g : WorkGraph) (graphId : String) (w : World) :
    (H.scrub g.id ≠ graphId → NoSharedNode H w.db graphId g →
      LeavesGraph H graphId w.db (Act.final (createGraph H i g) w).db) ∧
    ∀ w', createGraph H i g w = .ok () w' → H.scrub g.id ≠ graphId →
      (LeavesGraph H graphId w.db w'.db ↔ NoSharedNode H w.db graphId g) := by
  have hspec := createGraph_spec (H := H) i g w
  refine ⟨fun hid hno => ?_, fun w' hw' hid => ?_⟩
  · refine wp_final (I := fun w' => LeavesGraph H graphId w.db w'.db) (wp_mono hspec ?_ ?_)
    · rintro - w' ⟨-, db, hdb, hputs⟩
      exact .of_mirror hdb (hputs.leavesGraph hid ((NoSharedNode.of_mirror hdb).2 hno))
    · rintro - w' ⟨-, db, hdb, rfl | ⟨nodes, edges, hnodes, -, hputs⟩⟩
      · exact .of_mirror hdb ⟨rfl, rfl, fun _ _ => ⟨rfl, rfl, rfl⟩, rfl⟩
      · have hno' := (NoSharedNode.of_mirror hdb).2 hno
        exact .of_mirror hdb (hputs.leavesGraph hid fun n hn => hno' n (hnodes.subset hn))
  · obtain ⟨-, db, hdb, hputs⟩ := (wp_of_ok hw').1 hspec
    rw [← NoSharedNode.of_mirror hdb]
    refine ⟨fun hl => hputs.noShared_of_statuses hid ?_, fun hno =>
      .of_mirror hdb (hputs.leavesGraph hid hno)⟩
    have hnodes : db.workNodes = w.db.workNodes := (congrArg Db.workNodes hdb :)
    have hstatuses : db.nodeStatuses graphId = w.db.nodeStatuses graphId := by
      rw [Db.nodeStatuses, Db.nodeStatuses, Db.nodesOf, Db.nodesOf, hnodes]
    exact hl.statuses.trans hstatuses.symm

/-! ### Two plans -/

/-- A spec that names nothing but its nodes and edges. -/
def planSpec (graphId : String) (nodeIds : List String) (edges : List (String × String)) : Json :=
  .mkObj [("id", .str graphId), ("objective", .str "ship"),
    ("nodes", .arr (nodeIds.map fun id => .mkObj [("id", .str id), ("objective", .str "do")])),
    ("edges", .arr (edges.map fun e => .mkObj [("from", .str e.1), ("to", .str e.2)]))]

/-- The graph of a spec that names nothing but its nodes and edges, where these are sorted. -/
def planGraph (graphId : String) (nodeIds : List String) (edges : List (String × String)) :
    WorkGraph where
  id := graphId
  objective := "ship"
  nodes := nodeIds.map fun id =>
    { id, graphId, kind := .task, objective := "do", requires := [], risk := .str "low"
      approvalRequired := false, independentReview := false, evidenceRequired := false
      expectedOutputs := [], retry := {}, placement := {}, metadata := .mkObj [] }
  edges := edges.map fun e => { graphId, srcId := e.1, dstId := e.2 }
  constraints := []
  successCriteria := []
  status := .draft
  version := 1

/-- Two plans with a node of their own are created one after the other. -/
theorem createGraph_leaves_iff_plans :
    LeavesGraph (Host.plain id) "g1"
      (Act.final (createGraph (Host.plain id) 0 (planGraph "g1" ["a", "b"] [("a", "b")]))
        emptyWorld).db
      (Act.final (createGraph (Host.plain id) 0 (planGraph "g2" ["c"] []))
        (Act.final (createGraph (Host.plain id) 0 (planGraph "g1" ["a", "b"] [("a", "b")]))
          emptyWorld)).db := by
  refine (createGraph_leaves_iff (Host.plain id) 0 (planGraph "g2" ["c"] []) "g1" _).1
    (by decide) ?_
  unfold NoSharedNode
  decide +kernel

/-- The run of two plans that share the node `a`, as far as the first one is concerned. -/
theorem shared_node_run :
    let H := Host.plain id
    let w₁ := Act.final (createGraph H 0 (planGraph "g1" ["a", "b"] [("a", "b")])) emptyWorld
    let x₂ := createGraph H 0 (planGraph "g2" ["a"] [])
    (Act.result? x₂ w₁).isSome = true ∧
      ((Act.final x₂ w₁).db.nodesOf "g1").map (·.id) = [.text "b"] ∧
      (w₁.db.nodesOf "g1").map (·.id) = [.text "a", .text "b"] := by
  decide +kernel

/-- **A plan takes a node from another one**: both are compiled, under different ids, and the
second one moves the node `a` out of the first. -/
theorem shared_node_taken :
    ∃ spec₁ spec₂, ∃ g₁ g₂ : WorkGraph, ∃ w₁ w₂, compileWorkGraph spec₁ = .ok g₁ ∧
      compileWorkGraph spec₂ = .ok g₂ ∧ g₁.id ≠ g₂.id ∧
      createGraph (Host.plain id) 0 g₁ emptyWorld = .ok () w₁ ∧
      createGraph (Host.plain id) 0 g₂ w₁ = .ok () w₂ ∧
      ¬ LeavesGraph (Host.plain id) g₁.id w₁.db w₂.db := by
  obtain ⟨⟨⟩, w₁, hw₁⟩ := Act.exists_ok (x := createGraph (Host.plain id) 0
    (planGraph "g1" ["a", "b"] [("a", "b")])) (s := emptyWorld) (by decide +kernel)
  obtain ⟨hsome, hafter, hbefore⟩ := shared_node_run
  rw [Act.final_of_ok hw₁] at hsome hafter hbefore
  obtain ⟨⟨⟩, w₂, hw₂⟩ := Act.exists_ok hsome
  rw [Act.final_of_ok hw₂] at hafter
  refine ⟨planSpec "g1" ["b", "a"] [("a", "b")], planSpec "g2" ["a"] [], _, _, w₁, w₂,
    by decide +kernel, by decide +kernel, by decide, hw₁, hw₂, fun hleaves => ?_⟩
  have h := congrArg (List.map Prod.fst) hleaves.statuses
  simp only [Db.nodeStatuses, List.map_map] at h
  exact absurd (hafter.symm.trans (h.trans hbefore)) (by decide)

end Shiroe

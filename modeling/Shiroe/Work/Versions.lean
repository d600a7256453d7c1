import Shiroe.Lib.Run
import Shiroe.Storage.Acceptance
import Shiroe.Work.Compiled
import Shiroe.Work.Creation

/-!
# Reading a graph back

`create` puts the rows of a graph over the rows of its earlier versions and takes none of them away.

* `Stored.getGraph` : rows that are those of a compiled graph are read as this graph;
* `get_last_created` : a run of creations after which each id gives the graph last created under it.
-/

namespace Shiroe

open Act

variable {H : Host}

/-! ### The rows of a graph are read as the graph -/

mutual
/-- A number of the value is `NaN`, which is not equal to itself. -/
def Json.hasNaN : Json → Bool
  | .float x => x.isNaN
  | .arr l => Json.itemsHaveNaN l
  | .obj d => Json.fieldsHaveNaN d
  | _ => false
/-- A number of one of the values is `NaN`. -/
def Json.itemsHaveNaN : List Json → Bool
  | [] => false
  | x :: l => x.hasNaN || Json.itemsHaveNaN l
/-- A number of one of the fields is `NaN`. -/
def Json.fieldsHaveNaN : List (String × Json) → Bool
  | [] => false
  | (_, x) :: d => x.hasNaN || Json.fieldsHaveNaN d
end

/-- Some part of the graph is not equal to itself. -/
def WorkGraph.hasNaN (g : WorkGraph) : Bool :=
  Json.itemsHaveNaN g.constraints || Json.itemsHaveNaN g.successCriteria ||
    g.nodes.any fun n => n.toJson.hasNaN

/-- The redaction pass leaves every text of the graph as it is; the ends of an edge are nodes. -/
structure WorkGraph.Unredacted (H : Host) (g : WorkGraph) : Prop where
  id : H.scrub g.id = g.id
  objective : H.scrub g.objective = g.objective
  constraints : (Json.arr g.constraints).mapStr H.scrub = .arr g.constraints
  successCriteria : (Json.arr g.successCriteria).mapStr H.scrub = .arr g.successCriteria
  status : H.scrub g.status.value = g.status.value
  nodes : ∀ n ∈ g.nodes, n.toJson.mapStr H.scrub = n.toJson

/-- The tables take every part of the graph as it is: its texts can be encoded, the risk of each
node is a text, the version fits in a column and no edge is named twice. -/
structure WorkGraph.Storable (H : Host) (g : WorkGraph) : Prop where
  id : H.encodes g.id = true
  objective : H.encodes g.objective = true
  version : g.version < 2 ^ 63
  nodes : ∀ n ∈ g.nodes, H.encodes n.id = true ∧ H.encodes n.objective = true ∧
    ∃ s, n.risk = .str s ∧ H.encodes s = true
  edges : g.edges.Nodup

/-- The row of a node that the redaction pass leaves as it is. -/
theorem WorkNode.IsRow.eq {n : WorkNode} {graphId : String} {r : NodeRow}
    (h : n.IsRow H graphId r) (hn : n.toJson.mapStr H.scrub = n.toJson) {s : String}
    (hrisk : n.risk = .str s) : r =
      { id := .text n.id, graphId := .text graphId, kind := .text n.kind.value
        objective := .text n.objective, requiresJson := .json (.arr n.requires), risk := .text s
        approvalRequired := n.approvalRequired, independentReview := n.independentReview
        evidenceRequired := n.evidenceRequired
        expectedOutputsJson := .json (.arr n.expectedOutputs), retryJson := .json n.retry.toJson
        placementJson := .json n.placement.toJson, metadataJson := .json n.metadata
        status := .text NodeStatus.pending.value } := by
  obtain ⟨risk, hbind, rfl⟩ := h
  have hget : ∀ k, (n.toJson.get k).mapStr H.scrub = n.toJson.get k := fun k => by
    rw [← Json.get_mapStr, hn]
  have h₁ := hget "id"
  have h₂ := hget "kind"
  have h₃ := hget "objective"
  have h₄ := hget "requires"
  have h₅ := hget "risk"
  have h₆ := hget "expected_outputs"
  have h₇ := hget "retry"
  have h₈ := hget "placement"
  have h₉ := hget "metadata"
  have h₁₀ := hget "status"
  simp [WorkNode.toJson, List.lookup, -Json.mapStr_arr] at h₁ h₂ h₃ h₄ h₅ h₆ h₇ h₈ h₉ h₁₀
  rw [h₅, hrisk] at hbind
  rw [WorkNode.row, h₁, h₂, h₃, h₄, h₆, h₇, h₈, h₉, h₁₀, bindText_str_eq_ok hbind]

theorem scrub_nodeId {n : WorkNode} (hn : n.toJson.mapStr H.scrub = n.toJson) :
    H.scrub n.id = n.id := by
  have hid := congrArg (Json.get · "id") hn
  simpa [WorkNode.toJson, List.lookup] using hid

theorem WorkNode.IsRow.load {n : WorkNode} {graphId : String} {r : NodeRow}
    (h : n.IsRow H graphId r) (hn : n.toJson.mapStr H.scrub = n.toJson) {s : String}
    (hrisk : n.risk = .str s) (hc : n.Checked) (hg : n.graphId = graphId) : r.load = .ok n := by
  rw [h.eq hn hrisk, ← hg]
  simp only [NodeRow.load, SqlVal.loadsOr, SqlVal.loads, SqlVal.read, memberOf?_nodeKind,
    reduceCtorEq, if_false]
  refine except_bind_eq_ok.2
    ⟨_, rfl, except_bind_eq_ok.2 ⟨_, rfl, except_bind_eq_ok.2 ⟨_, rfl, ?_⟩⟩⟩
  refine except_bind_eq_ok.2
    ⟨_, rfl, except_bind_eq_ok.2 ⟨_, rfl, except_bind_eq_ok.2 ⟨_, hc.retry, ?_⟩⟩⟩
  refine except_bind_eq_ok.2 ⟨_, rfl, except_bind_eq_ok.2 ⟨_, hc.placement, ?_⟩⟩
  refine except_bind_eq_ok.2 ⟨_, rfl, ?_⟩
  rw [← hrisk]
  exact hc.make

/-- The ends of an edge are ids of nodes, which the redaction pass leaves as they are. -/
theorem edgeRow_eq {g : WorkGraph} (hc : g.Compiled) (hu : g.Unredacted H) {e : WorkEdge}
    (he : e ∈ g.edges) : e.row H g.id =
      { graphId := .text g.id, srcId := .text e.srcId, dstId := .text e.dstId } := by
  have hnode : ∀ x ∈ g.nodes.map (·.id), H.scrub x = x := by
    intro x hx
    obtain ⟨n, hn, rfl⟩ := List.mem_map.1 hx
    exact scrub_nodeId (hu.nodes n hn)
  obtain ⟨hsrc, hdst⟩ := hc.ends e he
  rw [WorkEdge.row, hnode _ hsrc, hnode _ hdst]

/-- The rows of the graph are the rows that the store keeps under its id. -/
structure Stored (H : Host) (db : Db) (g : WorkGraph) : Prop where
  graph : ∃ now, db.graph? g.id = some (g.row H now)
  nodes : List.Forall₂ (WorkNode.IsRow H g.id) g.nodes (db.nodesOf g.id)
  edges : db.edgesOf g.id = g.edges.map (WorkEdge.row H g.id)

namespace Stored

variable {db : Db} {g : WorkGraph}

section

variable (h : Stored H db g) (hc : g.Compiled) (hu : g.Unredacted H) (hs : g.Storable H)

include hs in
theorem ids_of_rows {nodes : List WorkNode} {rows : List NodeRow}
    (h : List.Forall₂ (WorkNode.IsRow H g.id) nodes rows) (hsub : ∀ n ∈ nodes, n ∈ g.nodes)
    (hu : g.Unredacted H) : rows.map (fun r => (r.id, r.status)) =
      nodes.map fun n => (.text n.id, .text NodeStatus.pending.value) := by
  induction h with
  | nil => rfl
  | cons hrow _ ih =>
    have hn := hsub _ List.mem_cons_self
    obtain ⟨-, -, s, hrisk, -⟩ := hs.nodes _ hn
    rw [List.map_cons, List.map_cons, ih fun n hn => hsub n (List.mem_cons_of_mem _ hn),
      hrow.eq (hu.nodes _ hn) hrisk]

theorem forall₂_load {nodes : List WorkNode} {rows : List NodeRow}
    (h : List.Forall₂ (WorkNode.IsRow H g.id) nodes rows) (hsub : ∀ n ∈ nodes, n ∈ g.nodes)
    (hc : g.Compiled) (hu : g.Unredacted H) (hs : g.Storable H) :
    List.Forall₂ (fun r n => NodeRow.load r = .ok n) rows nodes := by
  induction h with
  | nil => exact .nil
  | cons hrow _ ih =>
    have hn := hsub _ List.mem_cons_self
    obtain ⟨-, -, s, hrisk, -⟩ := hs.nodes _ hn
    obtain ⟨hchecked, hgraph⟩ := hc.nodes _ hn
    exact .cons (hrow.load (hu.nodes _ hn) hrisk hchecked hgraph)
      (ih fun n hn => hsub n (List.mem_cons_of_mem _ hn))

include h hu hs

/-- Every node of a new graph is pending. -/
theorem nodeStatuses : db.nodeStatuses g.id =
    g.nodes.map fun n => (.text n.id, .text NodeStatus.pending.value) :=
  ids_of_rows hs h.nodes (fun _ hn => hn) hu

theorem nodeIds : (db.nodesOf g.id).map (·.id) = g.nodes.map fun n => .text n.id := by
  have hstatus := congrArg (List.map Prod.fst) (h.nodeStatuses hu hs)
  rwa [Db.nodeStatuses, List.map_map, List.map_map] at hstatus

include hc

theorem loadNodes : ((db.nodesOf g.id).insertionSort fun a b => idText a.id ≤ idText b.id).mapM
    NodeRow.load = .ok g.nodes := by
  have hsorted : (db.nodesOf g.id).Pairwise fun a b => idText a.id ≤ idText b.id := by
    have hids : ((db.nodesOf g.id).map (·.id)).Pairwise fun v v' => idText v ≤ idText v' := by
      rw [h.nodeIds hu hs, List.pairwise_map]
      exact hc.sorted
    rwa [List.pairwise_map] at hids
  rw [hsorted.insertionSort_eq]
  exact except_mapM_eq_ok.2 (forall₂_load h.nodes (fun _ hn => hn) hc hu hs)

omit hs in
theorem loadEdges : ((db.edgesOf g.id).insertionSort Db.EdgeLe).mapM EdgeRow.load =
    .ok g.edges := by
  have hsorted : (db.edgesOf g.id).Pairwise Db.EdgeLe := by
    rw [h.edges, List.pairwise_map]
    refine hc.edgesSorted.imp_of_mem fun {e e'} he he' hle => ?_
    rw [edgeRow_eq hc hu he, edgeRow_eq hc hu he']
    exact hle
  rw [hsorted.insertionSort_eq, h.edges, except_mapM_eq_ok, List.forall₂_map_left_iff,
    List.forall₂_same]
  intro e he
  rw [edgeRow_eq hc hu he]
  exact hc.edges e he

/-- **The rows of a compiled graph are read as the graph.** -/
theorem getGraph : db.getGraph H g.id = .ok g := by
  obtain ⟨now, hrow⟩ := h.graph
  have hid : bindText H (.str g.id) = .ok (.text g.id) := bindText_eq (j := .str g.id) hs.id
  have hmake : WorkGraph.make (.str g.id) (.str g.objective) (.str g.status.value) g.version
      g.nodes g.edges g.constraints g.successCriteria = .ok g := by
    have hnodes : g.nodes.find? (·.graphId ≠ g.id) = none := by
      rw [List.find?_eq_none]
      exact fun n hn => by simpa using (hc.nodes n hn).2
    have hedges : g.edges.find? (·.graphId ≠ g.id) = none := by
      rw [List.find?_eq_none]
      intro e he
      have hmake := (WorkEdge.make_again (hc.edges e he)).1
      simpa using (Json.str.inj hmake).symm
    rw [WorkGraph.make, requireText_str hc.id, requireText_str hc.objective]
    refine except_bind_eq_ok.2 ⟨_, rfl, except_bind_eq_ok.2 ⟨_, rfl, ?_⟩⟩
    rw [if_neg (not_lt.2 hc.version), coerceEnum, memberOf?_graphStatus]
    refine except_bind_eq_ok.2 ⟨_, rfl, ?_⟩
    rw [hnodes, hedges]
  simp only [Db.getGraph, hid, hrow, Db.loadGraph, h.loadNodes hc hu hs, h.loadEdges hc hu,
    WorkGraph.row, hu.id, hu.objective, hu.constraints, hu.successCriteria, hu.status]
  have hstatus : GraphStatus.ofJson (.str g.status.value) = .ok g.status := by
    rw [GraphStatus.ofJson, memberOf?_graphStatus]
  refine except_bind_eq_ok.2
    ⟨_, rfl, except_bind_eq_ok.2 ⟨_, rfl, except_bind_eq_ok.2 ⟨_, rfl, ?_⟩⟩⟩
  refine except_bind_eq_ok.2 ⟨_, rfl, except_bind_eq_ok.2 ⟨_, rfl, ?_⟩⟩
  refine except_bind_eq_ok.2 ⟨_, rfl, except_bind_eq_ok.2 ⟨_, rfl, ?_⟩⟩
  exact except_bind_eq_ok.2 ⟨_, hstatus, except_bind_eq_ok.2 ⟨_, rfl, hmake⟩⟩

end

/-- A graph whose rows are put over the rows of its earlier versions is stored, if it has all their
nodes and edges. -/
theorem of_puts {db₀ : Db} (h : Puts H g g.nodes g.edges db₀ db) (hc : g.Compiled)
    (hu : g.Unredacted H) (hs : g.Storable H)
    (hnodes : ∀ r ∈ db₀.nodesOf g.id, r.id ∈ g.nodes.map fun n => SqlVal.text n.id)
    (hedges : ∀ r ∈ db₀.edgesOf g.id, r ∈ g.edges.map (WorkEdge.row H g.id)) : Stored H db g := by
  obtain ⟨now, rows, hrows, rfl⟩ := h
  rw [hu.id] at hrows
  have hids : rows.map (·.id) = g.nodes.map fun n => SqlVal.text n.id := by
    have h := congrArg (List.map Prod.fst) (ids_of_rows hs hrows (fun _ hn => hn) hu)
    rwa [List.map_map, List.map_map] at h
  have hnodup : (rows.map (·.id.key)).Nodup := by
    have hkeys : rows.map (·.id.key) = (g.nodes.map (·.id)).map fun x => some (SqlVal.text x) := by
      have h := congrArg (List.map SqlVal.key) hids
      rw [List.map_map, List.map_map] at h
      rw [List.map_map]
      exact h
    rw [hkeys]
    exact hc.nodup.map fun x y h => SqlVal.text.inj (Option.some.inj h)
  have hgraph : ∀ r ∈ rows, r.graphId = .text g.id := fun r hr => by
    obtain ⟨_, _, -, hg⟩ := isRow_of_mem hrows hr
    exact hg
  -- every old node and edge of the graph gives way to a new one
  have hn : (db₀.withWork [g.row H now] rows
      (g.edges.map (WorkEdge.row H (H.scrub g.id)))).nodesOf g.id = rows := by
    refine Table.filter_replaceAll_of_covered hnodup (fun r hr => decide_eq_true (hgraph r hr)) ?_
    intro r' hr' hp
    have hmem := hnodes r' (List.mem_filter.2 ⟨hr', hp⟩)
    have hne : r'.id.key ≠ none := by
      obtain ⟨n, -, hid⟩ := List.mem_map.1 hmem
      rw [← hid]
      exact Option.some_ne_none _
    rw [← hids] at hmem
    obtain ⟨r, hr, hid⟩ := List.mem_map.1 hmem
    exact ⟨hne, List.mem_map.2 ⟨r, hr, by rw [hid]⟩⟩
  have he : (db₀.withWork [g.row H now] rows
      (g.edges.map (WorkEdge.row H (H.scrub g.id)))).edgesOf g.id =
      g.edges.map (WorkEdge.row H g.id) := by
    rw [hu.id]
    refine Table.filter_replaceAll_of_covered ?_ (fun r hr => ?_) fun r' hr' hp => ?_
    · rw [List.map_map]
      refine hs.edges.map_on fun e he e' he' heq => ?_
      have heq := Option.some.inj heq
      rw [edgeRow_eq hc hu he, edgeRow_eq hc hu he'] at heq
      have hsrc := SqlVal.text.inj (congrArg EdgeRow.srcId heq)
      have hdst := SqlVal.text.inj (congrArg EdgeRow.dstId heq)
      have hmake := hc.edges e he
      rw [hsrc, hdst, hc.edges e' he'] at hmake
      exact (Except.ok.inj hmake).symm
    · obtain ⟨e, -, rfl⟩ := List.mem_map.1 hr
      exact decide_eq_true rfl
    · refine ⟨Option.some_ne_none _, List.mem_map_of_mem ?_⟩
      exact hedges r' (List.mem_filter.2 ⟨hr', hp⟩)
  refine ⟨⟨now, ?_⟩, by rw [hn]; exact hrows, he⟩
  refine Table.find?_replace_self (decide_eq_true (congrArg SqlVal.text hu.id)) fun r' hr' => ?_
  have hid : r'.id = .text g.id := of_decide_eq_true hr'
  rw [hid, WorkGraph.row, hu.id]
  exact ⟨rfl, Option.some_ne_none _⟩

/-- What is stored of a graph is left alone by a graph under another id without a shared node. -/
theorem of_puts_other {g₁ : WorkGraph} {db₀ : Db} (h : Stored H db₀ g)
    (hputs : Puts H g₁ g₁.nodes g₁.edges db₀ db) (hu₁ : g₁.Unredacted H) (hu : g.Unredacted H)
    (hs : g.Storable H) (hne : g₁.id ≠ g.id)
    (hno : ∀ n ∈ g₁.nodes, ∀ n' ∈ g.nodes, n.id ≠ n'.id) : Stored H db g := by
  have hid : H.scrub g₁.id ≠ g.id := by rwa [hu₁.id]
  have hnodes : db.nodesOf g.id = db₀.nodesOf g.id := by
    refine (hputs.nodesOf_iff hid).2 fun n hn hmem => ?_
    rw [h.nodeIds hu hs] at hmem
    obtain ⟨n', hn', heq⟩ := List.mem_map.1 hmem
    rw [scrub_nodeId (hu₁.nodes n hn)] at heq
    exact hno n hn n' hn' (SqlVal.text.inj heq).symm
  exact ⟨(hputs.graph? hid).symm ▸ h.graph, hnodes.symm ▸ h.nodes,
    (hputs.edgesOf hid).trans h.edges⟩

end Stored

/-! ### Creating a graph that the tables take as it is -/

section

variable {g : WorkGraph} (hc : g.Compiled) (hu : g.Unredacted H) (hs : g.Storable H)

include hs in
theorem nodeFits {n : WorkNode} (hn : n ∈ g.nodes) : NodeFits H n.toJson := by
  obtain ⟨hid, hobjective, s, hrisk, hencodes⟩ := hs.nodes n hn
  have hkind : H.encodes n.kind.value = true := H.encodes_ascii _ (by cases n.kind <;> decide)
  have hpending : H.encodes NodeStatus.pending.value = true := H.encodes_ascii _ (by decide)
  constructor <;>
    simp [WorkNode.toJson, List.lookup, Json.getD, hrisk, Bindable, hid, hobjective, hkind,
      hpending, hencodes]

include hc hu hs

omit hu in
theorem edgeFits {e : WorkEdge} (he : e ∈ g.edges) :
    EdgeFits H (g.nodes.map fun n => .text n.id) e.toJson := by
  have hmem : ∀ x ∈ g.nodes.map (·.id), H.encodes x = true ∧
      SqlVal.text x ∈ g.nodes.map fun n => SqlVal.text n.id := by
    intro x hx
    obtain ⟨n, hn, rfl⟩ := List.mem_map.1 hx
    exact ⟨(hs.nodes n hn).1, List.mem_map.2 ⟨n, hn, rfl⟩⟩
  obtain ⟨hsrc, hsmem⟩ := hmem _ (hc.ends e he).1
  obtain ⟨hdst, hdmem⟩ := hmem _ (hc.ends e he).2
  constructor
  case mem =>
    have hsrcId : e.toJson.get "src_id" = .str e.srcId := by simp [WorkEdge.toJson]
    have hdstId : e.toJson.get "dst_id" = .str e.dstId := by simp [WorkEdge.toJson, List.lookup]
    simp only [List.forall_mem_cons, List.not_mem_nil, false_imp_iff, implies_true, and_true,
      hsrcId, hdstId]
    exact ⟨hsmem, hdmem⟩
  all_goals simp [WorkEdge.toJson, List.lookup, Bindable, hsrc, hdst]

theorem returns_runCreated {env : Json} {t : String} (ht : env.get "timestamp" = .str t)
    (henc : H.encodes t = true) (n : ℕ) (db : Db) :
    Returns (applyRunCreated H env ((g.event (H.clock n)).payload.mapStr H.scrub)) db := by
  have hnodes : (g.nodes.map fun n => n.toJson.mapStr H.scrub) = g.nodes.map WorkNode.toJson :=
    List.map_congr_left hu.nodes
  have hedges : (g.edges.map fun e => e.toJson.mapStr H.scrub) = g.edges.map WorkEdge.toJson := by
    refine List.map_congr_left fun e he => ?_
    have hrow := edgeRow_eq hc hu he
    have hsrc := SqlVal.text.inj (congrArg EdgeRow.srcId hrow)
    have hdst := SqlVal.text.inj (congrArg EdgeRow.dstId hrow)
    rw [WorkEdge.toJson, Json.mapStr_mkObj]
    simp [hsrc, hdst]
  have hp : ∀ p, p = (g.event (H.clock n)).payload.mapStr H.scrub →
      p.get "id" = .str g.id ∧ p.get "objective" = .str g.objective ∧
      p.get "status" = .str g.status.value ∧ p.get "version" = .int g.version ∧
      p.get "event_time" = .str (H.scrub (H.clock n)) ∧
      p.get "nodes" = .arr (g.nodes.map WorkNode.toJson) ∧
      p.get "edges" = .arr (g.edges.map WorkEdge.toJson) := by
    rintro p rfl
    rw [← hnodes, ← hedges]
    simp [WorkGraph.event, List.lookup, hu.id, hu.objective, hu.status]
  obtain ⟨h₁, h₂, h₃, h₄, h₅, h₆, h₇⟩ := hp _ rfl
  generalize (g.event (H.clock n)).payload.mapStr H.scrub = p at *
  have hwhen : Bindable H (eventTime env p) ∧ (eventTime env p).isNull = false := by
    rw [eventTime, h₅, ht, Json.orElse]
    split_ifs
    · exact ⟨H.scrub_encodes _ (encodes_clock n), rfl⟩
    · exact ⟨henc, rfl⟩
  have hstatus : H.encodes g.status.value = true :=
    H.encodes_ascii _ (by cases g.status <;> decide)
  refine returns_applyRunCreated hwhen.1 hwhen.2 ?_ ⟨g.version, h₄, ?_, hs.version⟩ h₆ h₇ ?_ ?_
  · simp [h₁, h₂, h₃, Bindable, hs.id, hs.objective, hstatus]
  · have := hc.version
    omega
  · intro node hnode
    obtain ⟨n, hn, rfl⟩ := List.mem_map.1 hnode
    exact nodeFits hs hn
  · intro edge hedge
    obtain ⟨e, he, rfl⟩ := List.mem_map.1 hedge
    obtain ⟨hobj, hhas, hb, hnull, hmem⟩ := edgeFits hc hs he
    refine ⟨hobj, hhas, hb, hnull, fun k hk => List.mem_append_right _ ?_⟩
    obtain ⟨n, hn, hid⟩ := List.mem_map.1 (hmem k hk)
    refine List.mem_map.2 ⟨n.toJson, List.mem_map_of_mem hn, ?_⟩
    rw [← hid]
    simp [WorkNode.toJson]

/-- Creating the graph puts all of it into the tables, or nothing. -/
theorem createGraph_whole (i : ℕ) (w : World) :
    Act.wp (createGraph H i g)
      (fun _ w' => ∃ db, db.exceptMirror = w.db.exceptMirror ∧ Puts H g g.nodes g.edges db w'.db)
      (fun _ w' => w'.db.exceptMirror = w.db.exceptMirror) w := by
  rw [createGraph, wp_bind, wp_now, wp_bind]
  refine wp_mono (emit_of_fold (Q := Puts H g g.nodes g.edges) (fun env henv db => ?_) i)
    (fun _ _ h => (wp_pure _).2 h.2) fun _ _ h => h.2
  rw [applyEvent_runCreated (henv.payloadOf (Json.isObj_mkObj _)) henv.eventType, touched, wp_map]
  have hreturns := returns_runCreated hc hu hs henv.timestamp
    (EventEnvelope.Open.encodes_timestampAt ⟨rfl, rfl⟩ _) w.tick db
  exact wp_mono (wp_and (applyRunCreated_spec g _ henv.timestamp db) hreturns)
    (fun _ _ h => h.1) fun _ _ h => h.2.elim

end

/-! ### Runs of creations -/

/-- A world and the graphs that have been created in it, the last one first. -/
structure Plans where
  world : World
  made : List WorkGraph

/-- A call of `create` of the store with a number; a call that raises creates no graph. -/
def createStep (H : Host) (s : Plans) (c : ℕ × WorkGraph) : Plans :=
  match createGraph H c.1 c.2 s.world with
  | .ok _ w => { world := w, made := c.2 :: s.made }
  | .error _ w => { world := w, made := s.made }

/-- The graph last created under an id. -/
def Plans.last? (s : Plans) (graphId : String) : Option WorkGraph :=
  s.made.find? (·.id = graphId)

/-- The graph takes the place of the one last created under its id: it has all its nodes and edges,
the tables take it as it is, and it is equal to itself. -/
structure Replaces (H : Host) (s : Plans) (c : ℕ × WorkGraph) : Prop where
  storable : c.2.Storable H
  numbers : c.2.hasNaN = false
  nodes : ∀ g ∈ s.last? c.2.id, ∀ n ∈ g.nodes, n.id ∈ c.2.nodes.map (·.id)
  edges : ∀ g ∈ s.last? c.2.id, ∀ e ∈ g.edges, e ∈ c.2.edges

/-- Compiled graphs with texts for the keys of all metadata, and whose texts the redaction pass
leaves as they are; graphs under different ids share no node. -/
structure Planned (H : Host) (gs : List WorkGraph) : Prop where
  compiled : ∀ g ∈ gs, ∃ spec, compileWorkGraph spec = .ok g
  unredacted : ∀ g ∈ gs, g.Unredacted H
  apart : ∀ g ∈ gs, ∀ g' ∈ gs, g.id ≠ g'.id → ∀ n ∈ g.nodes, ∀ n' ∈ g'.nodes, n.id ≠ n'.id

/-- The tables hold, of each id, the graph last created under it and nothing else. -/
structure Plans.Tidy (H : Host) (gs : List WorkGraph) (s : Plans) : Prop where
  made : ∀ g ∈ s.made, g ∈ gs ∧ g.Storable H
  stored : ∀ graphId g, s.last? graphId = some g → Stored H s.world.db g
  absent : ∀ graphId, s.last? graphId = none →
    s.world.db.nodesOf graphId = [] ∧ s.world.db.edgesOf graphId = []

theorem Plans.last?_spec {s : Plans} {graphId : String} {g : WorkGraph}
    (h : s.last? graphId = some g) : g ∈ s.made ∧ g.id = graphId :=
  ⟨List.mem_of_find?_eq_some h, by simpa using List.find?_some h⟩

theorem rows_of_mirror {db db' : Db} (h : db'.exceptMirror = db.exceptMirror) :
    db'.workGraphs = db.workGraphs ∧ db'.workNodes = db.workNodes ∧
      db'.workEdges = db.workEdges :=
  ⟨(congrArg Db.workGraphs h :), (congrArg Db.workNodes h :), (congrArg Db.workEdges h :)⟩

/-- What is stored of a graph does not depend on the mirror of the log. -/
theorem Stored.of_mirror {db db' : Db} {g : WorkGraph} (h : Stored H db g)
    (hdb : db'.exceptMirror = db.exceptMirror) : Stored H db' g := by
  obtain ⟨hgraphs, hnodes, hedges⟩ := rows_of_mirror hdb
  obtain ⟨hgraph, hn, he⟩ := h
  refine ⟨?_, ?_, ?_⟩
  · rwa [Db.graph?, hgraphs]
  · rwa [Db.nodesOf, hnodes]
  · rwa [Db.edgesOf, hedges]

theorem Plans.Tidy.of_mirror {gs : List WorkGraph} {s : Plans} (h : s.Tidy H gs) {w : World}
    (hdb : w.db.exceptMirror = s.world.db.exceptMirror) :
    Plans.Tidy H gs { world := w, made := s.made } where
  made := h.made
  stored := fun graphId g hg => (h.stored graphId g hg).of_mirror hdb
  absent := fun graphId hg => by
    obtain ⟨-, hnodes, hedges⟩ := rows_of_mirror hdb
    rw [Db.nodesOf, Db.edgesOf, hnodes, hedges]
    exact h.absent graphId hg

/-- **A creation keeps the tables tidy** when the graph takes the place of the earlier one. -/
theorem Plans.Tidy.step {gs : List WorkGraph} (hgs : Planned H gs) {s : Plans} {c : ℕ × WorkGraph}
    (h : s.Tidy H gs) (hmem : c.2 ∈ gs) (hc : Replaces H s c) : (createStep H s c).Tidy H gs := by
  obtain ⟨i, g⟩ := c
  obtain ⟨spec, hspec⟩ := hgs.compiled g hmem
  have hcompiled : g.Compiled := compileWorkGraph_spec hspec
  have hu := hgs.unredacted g hmem
  have hwhole := createGraph_whole hcompiled hu hc.storable i s.world
  unfold createStep
  cases hcreate : createGraph H i g s.world with
  | error e w => exact h.of_mirror ((wp_of_error hcreate).1 hwhole)
  | ok a w =>
    obtain ⟨db, hdb, hputs⟩ := (wp_of_ok hcreate).1 hwhole
    -- the tables before the graph is put in, but for the mirror
    have h₀ : Plans.Tidy H gs { world := { s.world with db := db }, made := s.made } :=
      h.of_mirror hdb
    have hlast : ∀ graphId, Plans.last? { world := w, made := g :: s.made } graphId =
        if g.id = graphId then some g else s.last? graphId := by
      intro graphId
      by_cases hid : g.id = graphId
      · simp [Plans.last?, hid]
      · simp [Plans.last?, hid]
    refine ⟨List.forall_mem_cons.2 ⟨⟨hmem, hc.storable⟩, h.made⟩, fun graphId g' hg' => ?_,
      fun graphId hnone => ?_⟩
    · rw [hlast] at hg'
      split_ifs at hg' with hid
      · cases hg'
        refine .of_puts hputs hcompiled hu hc.storable ?_ ?_
        · intro r hr
          cases hold : s.last? g.id with
          | none =>
            rw [(h₀.absent g.id hold).1] at hr
            cases hr
          | some g₀ =>
            obtain ⟨hmade, hid⟩ := Plans.last?_spec hold
            obtain ⟨hmem₀, hs₀⟩ := h.made g₀ hmade
            have hids := (h₀.stored g.id g₀ hold).nodeIds (hgs.unredacted g₀ hmem₀) hs₀
            rw [hid] at hids
            obtain ⟨n₀, hn₀, heq⟩ := List.mem_map.1 (hids ▸ List.mem_map_of_mem hr)
            obtain ⟨n, hn, hid⟩ := List.mem_map.1 (hc.nodes g₀ hold n₀ hn₀)
            exact List.mem_map.2 ⟨n, hn, by rw [← heq, hid]⟩
        · intro r hr
          cases hold : s.last? g.id with
          | none =>
            rw [(h₀.absent g.id hold).2] at hr
            cases hr
          | some g₀ =>
            have hedges := (h₀.stored g.id g₀ hold).edges
            rw [(Plans.last?_spec hold).2] at hedges
            obtain ⟨e, he, heq⟩ := List.mem_map.1 (hedges ▸ hr)
            exact List.mem_map.2 ⟨e, hc.edges g₀ hold e he, heq⟩
      · obtain ⟨hmade, hid'⟩ := Plans.last?_spec hg'
        obtain ⟨hmem', hs'⟩ := h.made g' hmade
        have hne : g.id ≠ g'.id := fun heq => hid (heq.trans hid')
        exact (h₀.stored graphId g' hg').of_puts_other hputs hu (hgs.unredacted g' hmem') hs' hne
          (hgs.apart g hmem g' hmem' hne)
    · rw [hlast] at hnone
      split_ifs at hnone with hid
      obtain ⟨hnodes, hedges⟩ := h₀.absent graphId hnone
      have hne : H.scrub g.id ≠ graphId := by rwa [hu.id]
      refine ⟨?_, (hputs.edgesOf hne).trans hedges⟩
      rw [← hnodes]
      refine (hputs.nodesOf_iff hne).2 fun n _ hmem => ?_
      rw [hnodes] at hmem
      cases hmem

theorem Plans.tidy_stateAt {s : Plans} {calls : List (ℕ × WorkGraph)}
    (hplanned : Planned H (calls.map Prod.snd)) (h : s.Tidy H (calls.map Prod.snd))
    (hreplaces : Run.Throughout (createStep H) (Replaces H) s calls) (k : ℕ) :
    (Run.stateAt (createStep H) s calls k).Tidy H (calls.map Prod.snd) := by
  induction k with
  | zero => exact h
  | succ k ih =>
    by_cases hk : k < calls.length
    · rw [Run.stateAt_succ hk]
      exact ih.step hplanned (List.mem_map_of_mem (List.getElem_mem hk)) (hreplaces.at hk)
    · rw [Run.stateAt_of_length_le (by omega)]
      exact ih

/-- **Reading back the graph last created.**  In a run of creations from tables without nodes and
edges, where each graph has the nodes and edges of the one it replaces, every id gives the graph
last created under it, with every node pending. -/
theorem get_last_created {w : World} (hnodes : w.db.workNodes = []) (hedges : w.db.workEdges = [])
    {calls : List (ℕ × WorkGraph)} (hplanned : Planned H (calls.map Prod.snd))
    (hreplaces : Run.Throughout (createStep H) (Replaces H) { world := w, made := [] } calls)
    (k : ℕ) :
    let s := Run.stateAt (createStep H) { world := w, made := [] } calls k
    ∀ graphId g, s.last? graphId = some g →
      getGraph H graphId s.world = .ok g s.world ∧
        s.world.db.nodeStatuses graphId =
          g.nodes.map fun n => (.text n.id, .text NodeStatus.pending.value) := by
  intro s graphId g hlast
  have hempty : Plans.Tidy H (calls.map Prod.snd) { world := w, made := [] } := by
    refine ⟨fun _ hg => absurd hg List.not_mem_nil, fun _ _ hg => (by cases hg),
      fun _ _ => ?_⟩
    rw [Db.nodesOf, Db.edgesOf, hnodes, hedges]
    exact ⟨rfl, rfl⟩
  have htidy : s.Tidy H (calls.map Prod.snd) := Plans.tidy_stateAt hplanned hempty hreplaces k
  obtain ⟨hmade, rfl⟩ := Plans.last?_spec hlast
  obtain ⟨hmem, hs⟩ := htidy.made g hmade
  obtain ⟨spec, hspec⟩ := hplanned.compiled g hmem
  have hstored := htidy.stored g.id g hlast
  have hu := hplanned.unredacted g hmem
  refine ⟨?_, hstored.nodeStatuses hu hs⟩
  change Act.ofExcept (s.world.db.getGraph H g.id) s.world = _
  rw [hstored.getGraph (compileWorkGraph_spec hspec) hu hs]
  rfl

/-! ### Two versions of a plan -/

theorem mem_made_createStep {s : Plans} {c : ℕ × WorkGraph} {g : WorkGraph}
    (h : g ∈ (createStep H s c).made) : g = c.2 ∨ g ∈ s.made := by
  unfold createStep at h
  split at h
  · exact List.mem_cons.1 h
  · exact Or.inr h

/-- The first version of a plan has one node, the second one another node behind it. -/
def grownPlan : List (ℕ × WorkGraph) :=
  [(0, planGraph "g1" ["a"] []), (0, planGraph "g1" ["a", "b"] [("a", "b")])]

/-- The first version of a plan has two nodes, the second one only the first of them. -/
def shrunkPlan : List (ℕ × WorkGraph) :=
  [(0, planGraph "g1" ["a", "b"] [("a", "b")]), (0, planGraph "g1" ["a"] [])]

theorem planned_plans : Planned (Host.quick id) (grownPlan.map Prod.snd) ∧
    Planned (Host.quick id) (shrunkPlan.map Prod.snd) := by
  have hsmall : compileWorkGraph (planSpec "g1" ["a"] []) = .ok (planGraph "g1" ["a"] []) := by
    decide +kernel
  have hlarge : compileWorkGraph (planSpec "g1" ["a", "b"] [("a", "b")]) =
      .ok (planGraph "g1" ["a", "b"] [("a", "b")]) := by decide +kernel
  have hunredacted : ∀ g : WorkGraph, g.Unredacted (Host.quick id) := fun g =>
    ⟨rfl, rfl, Json.mapStr_id _, Json.mapStr_id _, rfl, fun _ _ => Json.mapStr_id _⟩
  have hplanned : ∀ gs : List WorkGraph, (∀ g ∈ gs, g = planGraph "g1" ["a"] [] ∨
      g = planGraph "g1" ["a", "b"] [("a", "b")]) → Planned (Host.quick id) gs := by
    refine fun gs hgs => ⟨fun g hg => ?_, fun g _ => hunredacted g, fun g hg g' hg' hne => ?_⟩
    · rcases hgs g hg with rfl | rfl
      · exact ⟨_, hsmall⟩
      · exact ⟨_, hlarge⟩
    · rcases hgs g hg with rfl | rfl <;> rcases hgs g' hg' with rfl | rfl <;>
        exact absurd rfl hne
  exact ⟨hplanned _ (by simp [grownPlan]), hplanned _ (by simp [shrunkPlan])⟩

/-- A plan that grows is read back as its second version. -/
theorem get_last_created_grown :
    let s := Run.stateAt (createStep (Host.quick id)) { world := emptyWorld, made := [] }
      grownPlan 2
    let g := planGraph "g1" ["a", "b"] [("a", "b")]
    s.last? "g1" = some g ∧ getGraph (Host.quick id) "g1" s.world = .ok g s.world ∧
      s.world.db.nodeStatuses "g1" = g.nodes.map fun n =>
        (.text n.id, .text NodeStatus.pending.value) := by
  intro s g
  have hlast : s.last? "g1" = some g := by decide +kernel
  have hstorable : ∀ c ∈ grownPlan, c.2.Storable (Host.quick id) := by
    intro c hc
    have hversion : c.2.version < 2 ^ 63 ∧ c.2.edges.Nodup := by
      revert c
      decide +kernel
    refine ⟨rfl, rfl, hversion.1, fun n hn => ⟨rfl, rfl, "low", ?_, rfl⟩, hversion.2⟩
    revert n
    revert c
    decide +kernel
  have hreplaces : Run.Throughout (createStep (Host.quick id)) (Replaces (Host.quick id))
      { world := emptyWorld, made := [] } grownPlan := by
    have hmade : ∀ g ∈ (createStep (Host.quick id) { world := emptyWorld, made := [] }
        (0, planGraph "g1" ["a"] [])).last? "g1", g = planGraph "g1" ["a"] [] := fun g hg =>
      (mem_made_createStep (Plans.last?_spec hg).1).resolve_right List.not_mem_nil
    refine ⟨⟨hstorable _ (by simp [grownPlan]), rfl, by simp [Plans.last?], by simp [Plans.last?]⟩,
      ⟨hstorable _ (by simp [grownPlan]), rfl, fun g hg => ?_, fun g hg => ?_⟩, trivial⟩
    · rw [hmade g hg]
      decide
    · rw [hmade g hg]
      decide
  exact ⟨hlast, get_last_created rfl rfl planned_plans.1 hreplaces 2 "g1" g hlast⟩

/-- **A node that a new version leaves out is still read**, and so is its edge. -/
theorem removed_node_read :
    let s := Run.stateAt (createStep (Host.quick id)) { world := emptyWorld, made := [] }
      shrunkPlan 2
    Planned (Host.quick id) (shrunkPlan.map Prod.snd) ∧
      s.last? "g1" = some (planGraph "g1" ["a"] []) ∧
      (Act.result? (getGraph (Host.quick id) "g1") s.world).map (fun g => (g.nodes, g.edges)) =
        some ((planGraph "g1" ["a", "b"] [("a", "b")]).nodes,
          (planGraph "g1" ["a", "b"] [("a", "b")]).edges) := by
  exact ⟨planned_plans.2, by decide +kernel⟩

end Shiroe

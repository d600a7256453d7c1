import Shiroe.Work.Versions

/-!
# The ready set of a stored graph

A node is ready when it is pending and all its predecessors are completed or skipped, be it a task
or an approval.  With nothing but pending, completed and skipped nodes the ready set is empty only
where all is done, if the edges that are stored have no cycle.

* `mem_ready_iff` : the ready nodes;
* `ready_empty_iff` : when an empty ready set means that all is done.
-/

namespace Shiroe

open Act

variable {H : Host}

/-! ### The statuses of the nodes of a graph -/

/-- The tables with new statuses for the nodes of a graph. -/
def Db.withStatuses (db : Db) (graphId : String) (status : String → NodeStatus) : Db :=
  { db with
    workNodes := Table.update (fun r => r.graphId = .text graphId)
      (fun r => { r with status := .text (status (idText r.id)).value }) db.workNodes }

/-- The ids of the nodes are held as texts. -/
def Db.Named (db : Db) : Prop := ∀ r ∈ db.workNodes, ∃ s, r.id = .text s

section

variable {db : Db} {graphId : String} {status : String → NodeStatus}

theorem nodesOf_withStatuses : (db.withStatuses graphId status).nodesOf graphId =
    (db.nodesOf graphId).map fun r => { r with status := .text (status (idText r.id)).value } := by
  rw [Db.nodesOf, Db.withStatuses, Table.update, Db.nodesOf, List.filter_map]
  have hfilter : db.workNodes.filter ((fun r : NodeRow => decide (r.graphId = .text graphId)) ∘
      fun r => if decide (r.graphId = .text graphId) = true then
        { r with status := .text (status (idText r.id)).value } else r) =
      db.workNodes.filter fun r => decide (r.graphId = .text graphId) := by
    refine List.filter_congr fun r _ => ?_
    by_cases h : r.graphId = .text graphId <;> simp [h]
  rw [hfilter]
  refine List.map_congr_left fun r hr => ?_
  rw [if_pos (List.mem_filter.1 hr).2]

/-- What a graph is read as does not depend on the statuses of its nodes. -/
theorem getGraph_withStatuses :
    (db.withStatuses graphId status).getGraph H graphId = db.getGraph H graphId := by
  have hload : ∀ row : GraphRow, Db.loadGraph row ((db.withStatuses graphId status).nodesOf graphId)
      (db.edgesOf graphId) = Db.loadGraph row (db.nodesOf graphId) (db.edgesOf graphId) := by
    intro row
    have hsort := List.map_insertionSort (r := fun a b : NodeRow => idText a.id ≤ idText b.id)
      (s := fun a b : NodeRow => idText a.id ≤ idText b.id)
      (fun r : NodeRow => { r with status := .text (status (idText r.id)).value })
      (db.nodesOf graphId) (fun _ _ _ _ => Iff.rfl)
    rw [Db.loadGraph, nodesOf_withStatuses, ← hsort, List.mapM_map]
    rfl
  have hgraph : (db.withStatuses graphId status).graph? graphId = db.graph? graphId := rfl
  have hedges : (db.withStatuses graphId status).edgesOf graphId = db.edgesOf graphId := rfl
  simp only [Db.getGraph, hgraph, hedges, hload]

theorem lookup_map_self {α β : Type} [BEq α] [LawfulBEq α] (f : α → β) (l : List α) (a : α) :
    (l.map fun x => (x, f x)).lookup a = if l.contains a then some (f a) else none := by
  induction l with
  | nil => rfl
  | cons x l ih =>
    rw [List.map_cons, List.lookup_cons, ih, List.contains_cons]
    by_cases hax : a = x
    · simp [hax]
    · have hne : (a == x) = false := by simpa using hax
      simp [hne]

theorem statusOf_withStatuses (x : String) :
    statusOf ((db.withStatuses graphId status).nodeStatuses graphId) x =
      if .text x ∈ (db.nodesOf graphId).map (·.id) then some (.text (status x).value)
        else none := by
  have hrows : ((db.withStatuses graphId status).nodeStatuses graphId).reverse =
      ((db.nodesOf graphId).map (·.id)).reverse.map fun v =>
        (v, SqlVal.text (status (idText v)).value) := by
    rw [Db.nodeStatuses, nodesOf_withStatuses, List.map_map, ← List.map_reverse,
      ← List.map_reverse, List.map_map]
    rfl
  rw [statusOf, hrows, lookup_map_self]
  simp [idText, SqlVal.text?]

end

/-! ### The nodes of a stored graph -/

section

variable {db : Db} {graphId : String} {g : WorkGraph}

theorem nodes_of_make {id objective status : Json} {version : ℤ} {nodes : List WorkNode}
    {edges : List WorkEdge} {constraints successCriteria : List Json}
    (h : WorkGraph.make id objective status version nodes edges constraints successCriteria =
      .ok g) : g.nodes = nodes := by
  rw [WorkGraph.make] at h
  obtain ⟨_, -, h₁⟩ := except_bind_eq_ok.1 h
  obtain ⟨_, -, h₂⟩ := except_bind_eq_ok.1 h₁
  split_ifs at h₂
  obtain ⟨_, -, h₃⟩ := except_bind_eq_ok.1 h₂
  split at h₃
  · cases h₃
  · cases h₃
  · cases h₃
    rfl

/-- Each node that is read comes from a row, in the order of the ids. -/
theorem nodes_of_getGraph (h : db.getGraph H graphId = .ok g) :
    List.Forall₂ (fun r n => NodeRow.load r = .ok n)
      ((db.nodesOf graphId).insertionSort fun a b => idText a.id ≤ idText b.id) g.nodes := by
  rw [Db.getGraph] at h
  obtain ⟨_, -, h₁⟩ := except_bind_eq_ok.1 h
  split at h₁
  · cases h₁
  · rw [Db.loadGraph] at h₁
    obtain ⟨nodes, hnodes, h₂⟩ := except_bind_eq_ok.1 h₁
    obtain ⟨_, -, h₃⟩ := except_bind_eq_ok.1 h₂
    obtain ⟨_, -, h₄⟩ := except_bind_eq_ok.1 h₃
    obtain ⟨_, -, h₅⟩ := except_bind_eq_ok.1 h₄
    obtain ⟨_, -, h₆⟩ := except_bind_eq_ok.1 h₅
    obtain ⟨_, -, h₇⟩ := except_bind_eq_ok.1 h₆
    obtain ⟨_, -, h₈⟩ := except_bind_eq_ok.1 h₇
    obtain ⟨_, -, h₉⟩ := except_bind_eq_ok.1 h₈
    rw [nodes_of_make h₉]
    exact except_mapM_eq_ok.1 hnodes

theorem coerceEnum_eq_ok {α : Type} {members : List α} {value : α → String} {x : Json}
    {name : String} {m : α} (h : coerceEnum members value x name = .ok m) : x = .str (value m) := by
  unfold coerceEnum at h
  split at h
  · rename_i m' hfind
    cases Except.ok.inj h
    simpa using List.find?_some hfind
  · cases h

/-- A node as it is loaded. -/
theorem load_spec {r : NodeRow} {n : WorkNode} (h : r.load = .ok n) :
    r.id.read = .str n.id ∧ r.kind.read = .str n.kind.value ∧
      ∃ policy, r.retryJson.loadsOr (.mkObj []) = .ok policy ∧
        RetryPolicy.make policy = .ok n.retry := by
  rw [NodeRow.load] at h
  obtain ⟨policy, hjson, h⟩ := except_bind_eq_ok.1 h
  dsimp only at h
  split_ifs at h
  obtain ⟨_, -, h⟩ := except_bind_eq_ok.1 h
  obtain ⟨_, -, h⟩ := except_bind_eq_ok.1 h
  obtain ⟨_, -, h⟩ := except_bind_eq_ok.1 h
  obtain ⟨_, -, h⟩ := except_bind_eq_ok.1 h
  obtain ⟨retry, hpolicy, h⟩ := except_bind_eq_ok.1 h
  obtain ⟨_, -, h⟩ := except_bind_eq_ok.1 h
  obtain ⟨_, -, h⟩ := except_bind_eq_ok.1 h
  obtain ⟨_, -, h⟩ := except_bind_eq_ok.1 h
  rw [WorkNode.make] at h
  obtain ⟨id, hid, h⟩ := except_bind_eq_ok.1 h
  obtain ⟨_, -, h⟩ := except_bind_eq_ok.1 h
  obtain ⟨_, -, h⟩ := except_bind_eq_ok.1 h
  obtain ⟨kind, hkind, h⟩ := except_bind_eq_ok.1 h
  obtain ⟨_, -, h⟩ := except_bind_eq_ok.1 h
  cases h
  exact ⟨(requireText_eq_ok.1 hid).1, coerceEnum_eq_ok hkind, policy, hjson, hpolicy⟩

/-- The nodes that are read have the ids of their rows. -/
theorem mem_ids_iff (hnamed : db.Named) (h : db.getGraph H graphId = .ok g) (x : String) :
    x ∈ g.nodes.map (·.id) ↔ .text x ∈ (db.nodesOf graphId).map (·.id) := by
  have hall := nodes_of_getGraph h
  have hrow : ∀ r ∈ db.nodesOf graphId, ∀ n, r.load = .ok n → r.id = .text n.id := by
    intro r hr n hload
    obtain ⟨s, hs⟩ := hnamed r (List.mem_filter.1 hr).1
    have hread := (load_spec hload).1
    rw [hs] at hread ⊢
    rw [Json.str.inj hread]
  constructor
  · rintro hx
    obtain ⟨n, hn, rfl⟩ := List.mem_map.1 hx
    obtain ⟨r, hr, hload⟩ := exists_of_mem_forall₂ hall hn
    have hr := (List.mem_insertionSort _).1 hr
    exact List.mem_map.2 ⟨r, hr, hrow r hr n hload⟩
  · rintro hx
    obtain ⟨r, hr, hid⟩ := List.mem_map.1 hx
    obtain ⟨n, hn, hload⟩ :=
      exists_of_mem_forall₂ hall.flip ((List.mem_insertionSort _).2 hr)
    rw [hrow r hr n hload] at hid
    exact List.mem_map.2 ⟨n, hn, SqlVal.text.inj hid⟩

theorem checkPredecessors_iff : g.checkPredecessors = .ok () ↔
    ∀ e ∈ g.edges, e.dstId ∈ g.nodes.map (·.id) := by
  rw [WorkGraph.checkPredecessors, except_forM_eq_ok]
  refine forall₂_congr fun e _ => ?_
  by_cases h : g.nodes.any (·.id = e.dstId) = true
  · rw [if_pos h]
    simpa using h
  · rw [if_neg h]
    simpa using h

/-- The ready set is computed if every edge ends at a node. -/
theorem readyNodeIds_isOk (hg : db.getGraph H graphId = .ok g) :
    (∃ ready, db.readyNodeIds H graphId = .ok ready) ↔
      ∀ e ∈ g.edges, e.dstId ∈ g.nodes.map (·.id) := by
  rw [← checkPredecessors_iff]
  constructor
  · rintro ⟨ready, hready⟩
    rw [Db.readyNodeIds, hg] at hready
    obtain ⟨_, hg', hready⟩ := except_bind_eq_ok.1 hready
    cases hg'
    obtain ⟨_, hcalc, -⟩ := except_bind_eq_ok.1 hready
    obtain ⟨⟨⟩, hcheck, -⟩ := except_bind_eq_ok.1 hcalc
    exact hcheck
  · intro hcheck
    obtain ⟨tasks, htasks⟩ : ∃ tasks, g.calculateReady (db.nodeStatuses graphId) = .ok tasks :=
      ⟨_, except_bind_eq_ok.2 ⟨(), hcheck, rfl⟩⟩
    rw [Db.readyNodeIds, hg]
    exact ⟨_, except_bind_eq_ok.2 ⟨_, rfl, except_bind_eq_ok.2 ⟨tasks, htasks, rfl⟩⟩⟩

/-- **The ready nodes**: tasks and approvals become ready by one rule. -/
theorem mem_ready_iff {ready : List String} (hg : db.getGraph H graphId = .ok g)
    (hready : db.readyNodeIds H graphId = .ok ready) (x : String) :
    x ∈ ready ↔ x ∈ g.nodes.map (·.id) ∧ g.unblocked (db.nodeStatuses graphId) x = true := by
  rw [Db.readyNodeIds, hg] at hready
  obtain ⟨_, hg', hready⟩ := except_bind_eq_ok.1 hready
  cases hg'
  obtain ⟨tasks, hcalc, hready⟩ := except_bind_eq_ok.1 hready
  obtain ⟨⟨⟩, -, hcalc⟩ := except_bind_eq_ok.1 hcalc
  cases hcalc
  cases hready
  simp only [List.mem_insertionSort, List.mem_dedup, List.mem_append, List.mem_filter,
    Bool.and_eq_true]
  constructor
  · rintro (⟨hx, -, hun⟩ | ⟨hx, hun⟩)
    · exact ⟨hx, hun⟩
    · obtain ⟨n, hn, rfl⟩ := List.mem_map.1 hx
      exact ⟨List.mem_map_of_mem (List.mem_filter.1 hn).1, hun⟩
  · rintro ⟨hx, hun⟩
    obtain ⟨n₀, hn₀, hid₀⟩ := List.mem_map.1 hx
    obtain ⟨n, hn⟩ : ∃ n, g.nodeById x = some n := by
      refine Option.isSome_iff_exists.1 (List.find?_isSome.2 ⟨n₀, List.mem_reverse.2 hn₀, ?_⟩)
      exact decide_eq_true hid₀
    by_cases hkind : n.kind = .approval
    · refine Or.inr ⟨List.mem_map.2 ⟨n, List.mem_filter.2 ⟨?_, decide_eq_true hkind⟩, ?_⟩, hun⟩
      · exact List.mem_reverse.1 (List.mem_of_find?_eq_some hn)
      · simpa using List.find?_some hn
    · exact Or.inl ⟨hx, by rw [hn]; simpa using hkind, hun⟩

/-- Every edge that is read joins two nodes that are read, and the edges have no cycle. -/
structure WorkGraph.Schedulable (g : WorkGraph) : Prop where
  ends : ∀ e ∈ g.edges, e.srcId ∈ g.nodes.map (·.id) ∧ e.dstId ∈ g.nodes.map (·.id)
  acyclic : Digraph.Acyclic (Leads g.edges)

theorem mem_predecessors {x y : String} : y ∈ g.predecessors x ↔ Leads g.edges y x := by
  simp only [WorkGraph.predecessors, List.mem_map, List.mem_filter, decide_eq_true_eq, Leads]
  constructor
  · rintro ⟨e, ⟨he, hd⟩, hs⟩
    exact ⟨e, he, hs, hd⟩
  · rintro ⟨e, he, hs, hd⟩
    exact ⟨e, ⟨he, hd⟩, hs⟩

variable {status : String → NodeStatus}

/-- With these statuses a node is ready when it is pending and each of its predecessors is a node
that is completed or skipped. -/
theorem unblocked_withStatuses (hnamed : db.Named) (hg : db.getGraph H graphId = .ok g)
    {x : String} (hx : x ∈ g.nodes.map (·.id)) :
    g.unblocked ((db.withStatuses graphId status).nodeStatuses graphId) x = true ↔
      status x = .pending ∧ ∀ y, Leads g.edges y x →
        y ∈ g.nodes.map (·.id) ∧ (status y = .completed ∨ status y = .skipped) := by
  have hvalue : ∀ s t : NodeStatus, s.value = t.value ↔ s = t := by
    rintro (_ | _) (_ | _) <;> decide
  have hpending : isPending ((db.withStatuses graphId status).nodeStatuses graphId) x = true ↔
      status x = .pending := by
    rw [isPending, statusOf_withStatuses, if_pos ((mem_ids_iff hnamed hg x).1 hx)]
    simp [hvalue]
  have hdone : ∀ y, isDone ((db.withStatuses graphId status).nodeStatuses graphId) y = true ↔
      y ∈ g.nodes.map (·.id) ∧ (status y = .completed ∨ status y = .skipped) := by
    intro y
    rw [isDone, statusOf_withStatuses, mem_ids_iff hnamed hg]
    split_ifs with hy
    · simp [hy, hvalue]
    · simp [hy]
  rw [WorkGraph.unblocked, Bool.and_eq_true, hpending, List.all_eq_true]
  simp only [hdone, mem_predecessors]

/-- The node is completed or skipped. -/
def NodeRow.Done (r : NodeRow) : Prop :=
  r.status = .text NodeStatus.completed.value ∨ r.status = .text NodeStatus.skipped.value

/-- With nothing but pending, completed and skipped nodes, however they are spread, the ready set of
the graph is computed, and it is empty only where every node is completed or skipped. -/
def Db.Progresses (H : Host) (db : Db) (graphId : String) : Prop :=
  ∀ status : String → NodeStatus, (∀ x, status x ∈ [.pending, .completed, .skipped]) →
    ∃ ready, (db.withStatuses graphId status).readyNodeIds H graphId = .ok ready ∧
      (ready = [] ↔ ∀ r ∈ (db.withStatuses graphId status).nodesOf graphId, r.Done)

/-- Whether all nodes are done, by the nodes that are read. -/
theorem all_done_iff (hnamed : db.Named) (hg : db.getGraph H graphId = .ok g)
    (hstatus : ∀ x, status x ∈ [.pending, .completed, .skipped]) :
    (∀ r ∈ (db.withStatuses graphId status).nodesOf graphId, r.Done) ↔
      ∀ x ∈ g.nodes.map (·.id), status x ≠ .pending := by
  have hdone : ∀ s : NodeStatus, s ∈ [.pending, .completed, .skipped] →
      ((SqlVal.text s.value = .text NodeStatus.completed.value ∨
        SqlVal.text s.value = .text NodeStatus.skipped.value) ↔ s ≠ .pending) := by
    intro s hs
    cases s <;> simp at hs <;> decide
  rw [nodesOf_withStatuses]
  constructor
  · intro hall x hx
    obtain ⟨r, hr, hid⟩ := List.mem_map.1 ((mem_ids_iff hnamed hg x).1 hx)
    have hr := hall _ (List.mem_map_of_mem hr)
    rw [NodeRow.Done, hid] at hr
    exact (hdone _ (hstatus x)).1 hr
  · intro hall r hr
    obtain ⟨r₀, hr₀, rfl⟩ := List.mem_map.1 hr
    obtain ⟨x, hx⟩ := hnamed r₀ (List.mem_filter.1 hr₀).1
    have hmem := (mem_ids_iff hnamed hg x).2 (List.mem_map.2 ⟨r₀, hr₀, hx⟩)
    rw [NodeRow.Done, hx]
    exact (hdone _ (hstatus x)).2 (hall x hmem)

/-- In a graph without cycles some pending node has no pending predecessor. -/
theorem WorkGraph.Schedulable.exists_source (h : g.Schedulable) {x : String}
    (hx : x ∈ g.nodes.map (·.id)) (hpending : status x = .pending) :
    ∃ y ∈ g.nodes.map (·.id), status y = .pending ∧
      ∀ z, Leads g.edges z y → z ∈ g.nodes.map (·.id) ∧ status z ≠ .pending := by
  have hne : (g.nodes.map (·.id)).filter (status · = .pending) ≠ [] := by
    refine List.ne_nil_of_mem (a := x) (List.mem_filter.2 ⟨hx, decide_eq_true hpending⟩)
  obtain ⟨y, hy, hsource⟩ := h.acyclic.exists_source hne
  obtain ⟨hy, hypending⟩ := List.mem_filter.1 hy
  refine ⟨y, hy, of_decide_eq_true hypending, fun z hz => ?_⟩
  have hz' : z ∈ g.nodes.map (·.id) := by
    obtain ⟨e, he, rfl, -⟩ := hz
    exact (h.ends e he).1
  exact ⟨hz', fun hzp => hsource _ (List.mem_filter.2 ⟨hz', decide_eq_true hzp⟩) hz⟩

/-- Where every node is pending or done, some pending node is ready if there is one. -/
theorem WorkGraph.Schedulable.exists_ready (hnamed : db.Named)
    (hg : db.getGraph H graphId = .ok g) (h : g.Schedulable)
    (hthree : ∀ x ∈ g.nodes.map (·.id),
      status x = .pending ∨ status x = .completed ∨ status x = .skipped) {ready : List String}
    (hready : (db.withStatuses graphId status).readyNodeIds H graphId = .ok ready) {x : String}
    (hx : x ∈ g.nodes.map (·.id)) (hpending : status x = .pending) : ∃ y, y ∈ ready := by
  obtain ⟨y, hy, hypending, hpred⟩ := h.exists_source hx hpending
  refine ⟨y, (mem_ready_iff (getGraph_withStatuses.trans hg) hready y).2 ⟨hy, ?_⟩⟩
  refine (unblocked_withStatuses hnamed hg hy).2 ⟨hypending, fun z hz => ?_⟩
  obtain ⟨hz, hzp⟩ := hpred z hz
  exact ⟨hz, (hthree z hz).resolve_left hzp⟩

/-- **The ready set of a graph that is read back without a cycle is empty only where all is
done.** -/
theorem WorkGraph.Schedulable.progresses (hnamed : db.Named) (hg : db.getGraph H graphId = .ok g)
    (h : g.Schedulable) : db.Progresses H graphId := by
  intro status hstatus
  have hg' : (db.withStatuses graphId status).getGraph H graphId = .ok g :=
    getGraph_withStatuses.trans hg
  obtain ⟨ready, hready⟩ := (readyNodeIds_isOk hg').2 fun e he => (h.ends e he).2
  refine ⟨ready, hready, ?_⟩
  rw [all_done_iff hnamed hg hstatus]
  constructor
  · rintro rfl x hx hpending
    have hthree : ∀ x ∈ g.nodes.map (·.id),
        status x = .pending ∨ status x = .completed ∨ status x = .skipped :=
      fun x _ => by simpa using hstatus x
    obtain ⟨y, hy⟩ := h.exists_ready hnamed hg hthree hready hx hpending
    exact List.not_mem_nil hy
  · intro hall
    refine List.eq_nil_iff_forall_not_mem.2 fun x hx => ?_
    obtain ⟨hx, hun⟩ := (mem_ready_iff hg' hready x).1 hx
    exact hall x hx ((unblocked_withStatuses hnamed hg hx).1 hun).1

/-- **Only such a graph has this property**: a predecessor that is no node is never done, and the
nodes of a cycle wait for each other. -/
theorem schedulable_of_progresses (hnamed : db.Named) (h : db.Progresses H graphId) :
    ∃ g, db.getGraph H graphId = .ok g ∧ g.Schedulable := by
  classical
  obtain ⟨ready₀, hready₀, -⟩ := h (fun _ => .pending) (by simp)
  obtain ⟨g, hg, -⟩ := except_bind_eq_ok.1 hready₀
  rw [getGraph_withStatuses] at hg
  -- a nonempty set of nodes that all wait for something in it stays pending
  have hstuck : ∀ S : String → Prop, (∀ x, S x → x ∈ g.nodes.map (·.id) →
      ∃ y, Leads g.edges y x ∧ (S y ∨ y ∉ g.nodes.map (·.id))) →
      ∀ x ∈ g.nodes.map (·.id), ¬ S x := by
    intro S hS x hx hSx
    have hthree : ∀ y, (if S y then NodeStatus.pending else .completed) ∈
        [NodeStatus.pending, .completed, .skipped] := by
      intro y
      split_ifs <;> simp
    obtain ⟨ready, hready, hiff⟩ := h (fun y => if S y then .pending else .completed) hthree
    rw [all_done_iff hnamed hg hthree] at hiff
    have hnil : ready = [] := by
      refine List.eq_nil_iff_forall_not_mem.2 fun y hy => ?_
      obtain ⟨hy, hun⟩ := (mem_ready_iff (getGraph_withStatuses.trans hg) hready y).1 hy
      obtain ⟨hpending, hpred⟩ := (unblocked_withStatuses hnamed hg hy).1 hun
      have hSy : S y := by
        by_contra hSy
        simp [hSy] at hpending
      obtain ⟨z, hz, hSz⟩ := hS y hSy hy
      obtain ⟨hzmem, hzdone⟩ := hpred z hz
      rcases hSz with hSz | hSz
      · simp [hSz] at hzdone
      · exact hSz hzmem
    exact hiff.1 hnil x hx (by simp [hSx])
  have hdst := (readyNodeIds_isOk (getGraph_withStatuses.trans hg)).1 ⟨_, hready₀⟩
  refine ⟨g, hg, ⟨fun e he => ⟨?_, hdst e he⟩, ?_⟩⟩
  · by_contra hsrc
    exact hstuck (· = e.dstId) (fun x hx _ => ⟨e.srcId, ⟨e, he, rfl, hx.symm⟩, Or.inr hsrc⟩)
      e.dstId (hdst e he) rfl
  · by_contra hcycle
    obtain ⟨S, ⟨x, hx⟩, hfed⟩ := Digraph.exists_fed_of_not_acyclic hcycle
    obtain ⟨y, -, e, he, -, rfl⟩ := hfed x hx
    refine hstuck (· ∈ S) (fun z hz _ => ?_) e.dstId (hdst e he) hx
    obtain ⟨y, hy, hyz⟩ := hfed z hz
    exact ⟨y, hyz, Or.inl hy⟩

end

end Shiroe

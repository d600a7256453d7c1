import Shiroe.Storage.Replay

/-!
# Which events the tables accept

A store appends its event before it folds it, so an event that the tables reject stays in the log
and no replay gets past it.  For each reducer, the conditions on the event and on the tables under
which the fold returns: every parameter can be bound, no NOT NULL column is left out, every
foreign key names a row.

* `not_rejects` : an event that can be mirrored and whose reducer returns is not rejected.
-/

namespace Shiroe

open Act

variable {H : Host}

/-- The computation returns. -/
def Returns {σ α : Type} (x : Act Exc σ α) (s : σ) : Prop :=
  Act.wp x (fun _ _ => True) (fun _ _ => False) s

theorem returns_pure {σ α : Type} (a : α) (s : σ) : Returns (pure a : Act Exc σ α) s :=
  (wp_pure a).2 trivial

theorem Returns.exists_ok {σ α : Type} {x : Act Exc σ α} {s : σ} (h : Returns x s) :
    ∃ a s', x s = .ok a s' := by
  unfold Returns Act.wp at h
  cases hx : x s with
  | ok a s' => exact ⟨a, s', rfl⟩
  | error e s' =>
    rw [hx] at h
    exact h.elim

theorem returns_touched {d : Domain} {x : Act Exc Db Bool} {db : Db} (h : Returns x db) :
    Returns (touched d x) db := by
  rw [Returns, touched, wp_map]
  exact h

/-! ### Parameters -/

variable {Q : SqlVal → Db → Prop} {E : Exc → Db → Prop} {db : Db}

theorem wp_text {j : Json} (h : Bindable H j) :
    Act.wp (text H j) Q E db ↔ Q ((boundVal j).asText H) db := by
  rw [text, wp_ofExcept, bindText_eq h]

theorem wp_text_any {j : Json} (hE : ∀ x, E x db) (hQ : ∀ v, bindText H j = .ok v → Q v db) :
    Act.wp (text H j) Q E db := by
  rw [text, wp_ofExcept]
  cases hv : bindText H j with
  | error x => exact hE x
  | ok v => exact hQ v hv

theorem bindText_str_eq_ok {s : String} {v : SqlVal} (h : bindText H (.str s) = .ok v) :
    v = .text s := by
  rw [bindText, bindParam] at h
  split_ifs at h
  · exact (Except.ok.inj h).symm
  · cases h

/-- The column that keeps an optional text. -/
def optText : Option String → SqlVal
  | none => .null
  | some s => .text s

theorem bindText_ofOption_eq_ok {o : Option String} {v : SqlVal}
    (h : bindText H (.ofOption o) = .ok v) : v = optText o := by
  cases o with
  | none => exact (Except.ok.inj h).symm
  | some s => exact bindText_str_eq_ok h

theorem wp_integer {j : Json} (h : Bindable H j) :
    Act.wp (integer H j) Q E db ↔ Q (boundVal j).asInt db := by
  rw [integer, wp_ofExcept, bindInt_eq h]

theorem wp_real {j : Json} (h : Bindable H j) :
    Act.wp (real H j) Q E db ↔ Q (boundVal j) db := by
  rw [real, wp_ofExcept, bindParam_eq h]

theorem bindable_str {s : String} (h : H.encodes s = true) : Bindable H (.str s) := h

theorem bindable_ofOption {o : Option String} (h : ∀ s ∈ o, H.encodes s = true) :
    Bindable H (.ofOption o) := by
  cases o with
  | none => trivial
  | some s => exact h s rfl

theorem bindable_mapStr {j : Json} (h : Bindable H j) : Bindable H (j.mapStr H.scrub) := by
  cases j with
  | str s => exact H.scrub_encodes s h
  | arr l => exact h.elim
  | obj d => exact h.elim
  | _ => exact h

theorem bindable_orElse {a b : Json} (ha : Bindable H a) (hb : Bindable H b) :
    Bindable H (a.orElse b) := by
  unfold Json.orElse
  split_ifs
  · exact ha
  · exact hb

theorem isNull_orElse_str {a : Json} {s : String} : (a.orElse (.str s)).isNull = false := by
  unfold Json.orElse
  split_ifs with h
  · cases a with
    | null => cases h
    | _ => rfl
  · rfl

theorem isNull_boundVal {j : Json} (h : Bindable H j) :
    ((boundVal j).asText H).isNull = j.isNull := by
  cases j with
  | arr l => exact h.elim
  | obj d => exact h.elim
  | _ => rfl

theorem get_of_not_anyNone {payload : Json} {fields : List String}
    (h : ¬ anyNone payload fields = true) : ∀ k ∈ fields, (payload.get k).isNull = false := by
  intro k hk
  simp only [anyNone, List.any_eq_true, not_exists, not_and, Bool.not_eq_true] at h
  exact h k hk

/-- The text of a value other than a text is ASCII. -/
theorem ascii_pyStr {j : Json} (h : ∀ s, j ≠ .str s) : Ascii (pyStr j) := by
  have hfloat : ∀ c, floatChar c = true → c.toNat < 128 := by
    intro c hc
    simp only [floatChar, Bool.or_eq_true, beq_iff_eq, Char.isDigit, Bool.and_eq_true,
      decide_eq_true_eq] at hc
    rcases hc with (((hc | rfl) | rfl) | rfl) | rfl
    · exact lt_of_le_of_lt hc.2 (by decide)
    all_goals decide
  cases j with
  | str s => exact absurd rfl (h s)
  | int n =>
    intro c hc
    rw [pyStr, String.toList_ofList] at hc
    exact hfloat c (Json.floatChar_of_mem_dumpsInt hc)
  | float x =>
    simp only [pyStr]
    split_ifs
    · decide
    · decide
    · decide
    · intro c hc
      rcases x.isRepr with hr | hr
      · exact hfloat c (List.all_eq_true.1 (Bool.and_eq_true_iff.1 hr).1 c hc)
      · have hall : ∀ s ∈ nonFinite, Ascii s := by decide
        exact hall _ hr c hc
  | bool b => cases b <;> decide
  | null => decide
  | arr l => exact (by decide : Ascii "None")
  | obj d => exact (by decide : Ascii "None")

theorem encodes_pyStr {id : Json} (hb : Bindable H id) : H.encodes (pyStr id) = true := by
  by_cases h : ∃ s, id = .str s
  · obtain ⟨s, rfl⟩ := h
    exact hb
  · exact H.encodes_ascii _ (ascii_pyStr fun s hs => h ⟨s, hs⟩)

/-! ### Statements -/

theorem exec_ok {check : Db → Except Exc Unit} {write : Db → Db} (h : check db = .ok ()) :
    exec check write db = .ok () (write db) := by
  rw [exec, h]

/-- The parent that a column names is there, or the column is NULL. -/
def Refers (v : SqlVal) (parents : List SqlVal) : Prop := v = .null ∨ v ∈ parents

theorem requireRef_ok {table column : String} {v : SqlVal} {parents : List SqlVal}
    (h : Refers v parents) : requireRef table column v parents = .ok () :=
  requireRef_eq_ok.2 h

/-- An update that sets no NOT NULL column to NULL returns. -/
theorem returns_updateWhere {ρ : Type} {table : String} {columns : List (String × SqlVal)}
    {get : Db → List ρ} {set : List ρ → Db → Db} {id : ρ → SqlVal} {v : SqlVal} {f : ρ → ρ}
    (h : ∀ c ∈ columns, c.2.isNull = false) :
    Returns (updateWhere table columns get set id v f) db := by
  have hcheck : requireNotNull table columns = .ok () := requireNotNull_eq_ok.2 h
  unfold Returns updateWhere
  rw [wp_bind, wp_of_ok (show EStateM.get db = .ok db db from rfl)]
  simp only [wp_bind, wp_exec, wp_pure, hcheck]
  split_ifs <;> trivial

/-! ### Approvals -/

theorem returns_applyRequested {p : Json}
    (hb : ∀ k ∈ ["id", "graph_id", "node_id", "approval_type", "action_kind", "requested_action",
      "scope_digest", "reason", "risk", "status", "requested_at"], Bindable H (p.get k))
    (hg : Refers ((boundVal (p.get "graph_id")).asText H) (db.workGraphs.map (·.id)))
    (hn : Refers ((boundVal (p.get "node_id")).asText H) (db.workNodes.map (·.id))) :
    Returns (applyRequested H p) db := by
  unfold Returns applyRequested
  rw [wp_ite]
  refine ⟨fun _ => returns_pure _ _, fun hnone => ?_⟩
  have hnull := get_of_not_anyNone hnone
  simp only [List.forall_mem_cons, List.not_mem_nil, requestedFields, false_imp_iff, implies_true,
    and_true] at hb hnull
  simp only [wp_bind, wp_text, hb]
  unfold insertApproval
  rw [wp_exec]
  rw [requireNotNull_eq_ok.2 (by simp [isNull_boundVal, hb, hnull])]
  simp only [bind, Except.bind, requireRef_ok hg, requireRef_ok hn]
  exact returns_pure _ _

theorem returns_applyDecided {p : Json}
    (hb : ∀ k ∈ ["id", "decision", "actor", "reason", "decided_at"], Bindable H (p.get k)) :
    Returns (applyDecided H p) db := by
  unfold Returns applyDecided
  rw [wp_ite]
  refine ⟨fun _ => returns_pure _ _, fun _ => ?_⟩
  simp only [List.forall_mem_cons, List.not_mem_nil, false_imp_iff, implies_true, and_true] at hb
  simp only [wp_bind, wp_text, hb]
  exact wp_mono (returns_updateWhere (by simp)) (fun _ _ _ => returns_pure _ _) fun _ _ h => h

theorem returns_applyStaled {p : Json} (hb : Bindable H (p.get "id")) :
    Returns (applyStaled H p) db := by
  unfold Returns applyStaled
  rw [wp_ite]
  refine ⟨fun _ => returns_pure _ _, fun _ => ?_⟩
  simp only [wp_bind, wp_text hb]
  exact wp_mono (returns_updateWhere (by simp)) (fun _ _ _ => returns_pure _ _) fun _ _ h => h

/-! ### Work graphs -/

theorem bindable_eventTime {env p : Json} {t : String} (ht : env.get "timestamp" = .str t)
    (henc : H.encodes t = true) (hb : Bindable H (p.get "event_time")) :
    Bindable H (eventTime env p) := by
  rw [eventTime, ht]
  exact bindable_orElse hb (bindable_str henc)

theorem returns_applyRunStatus {env p : Json} (ht : Bindable H (eventTime env p))
    (hb : ∀ k ∈ ["id", "status"], Bindable H (p.get k)) :
    Returns (applyRunStatus H env p) db := by
  unfold Returns applyRunStatus
  rw [wp_ite]
  refine ⟨fun _ => returns_pure _ _, fun _ => ?_⟩
  simp only [List.forall_mem_cons, List.not_mem_nil, false_imp_iff, implies_true, and_true] at hb
  simp only [wp_bind, wp_text, hb, ht]
  exact wp_mono (returns_updateWhere (by simp)) (fun _ _ _ => returns_pure _ _) fun _ _ h => h

theorem returns_applyStep {p : Json} (hto : Bindable H (p.get "to"))
    (hid : Bindable H (p.get "node_id")) : Returns (applyStep H p) db := by
  unfold Returns applyStep
  rw [wp_ite]
  refine ⟨fun _ => returns_pure _ _, fun _ => ?_⟩
  simp only [wp_bind, wp_text hto, wp_text hid]
  exact wp_mono (returns_updateWhere (by simp)) (fun _ _ _ => returns_pure _ _) fun _ _ h => h

theorem returns_applyAttempt {env p : Json} {n : ℤ} (ht : Bindable H (eventTime env p))
    (hn : p.get "attempt" = .int n) (hrange : -2 ^ 63 ≤ n ∧ n < 2 ^ 63)
    (husage : ∀ s, p.get "usage" = .str s → H.encodes s = true)
    (hb : ∀ k ∈ ["id", "graph_id", "node_id", "capability_id", "state", "input_digest",
      "output_digest", "error"], Bindable H (p.get k))
    (hg : Refers ((boundVal (p.get "graph_id")).asText H) (db.workGraphs.map (·.id)))
    (hnode : Refers ((boundVal (p.get "node_id")).asText H) (db.workNodes.map (·.id))) :
    Returns (applyAttempt H env p) db := by
  unfold Returns applyAttempt
  rw [wp_ite]
  refine ⟨fun _ => returns_pure _ _, fun hnone => ?_⟩
  have hnull := get_of_not_anyNone hnone
  simp only [List.forall_mem_cons, List.not_mem_nil, false_imp_iff, implies_true,
    and_true] at hb hnull
  have hint : Bindable H (.int n) := hrange
  have hended : Bindable H (if p.get "state" = .str "running" then .null else eventTime env p) := by
    split_ifs
    · trivial
    · exact ht
  have huse : ∀ Q : SqlVal → Db → Prop, (∀ v, Q v db) →
      Act.wp (usageText H (p.get "usage")) Q (fun _ _ => False) db := by
    intro Q hQ
    cases hu : p.get "usage" with
    | str s => exact (wp_text (bindable_str (husage s hu))).2 (hQ _)
    | _ => exact (wp_pure _).2 (hQ _)
  simp only [wp_bind, wp_ofExcept, hn, pyInt, wp_text, wp_integer, hb, ht, hint, hended]
  refine huse _ fun v => ?_
  unfold upsertAttempt
  rw [wp_exec, requireNotNull_eq_ok.2 (by simp [isNull_boundVal, hb, hnull])]
  simp only [bind, Except.bind, requireRef_ok hg, requireRef_ok hnode, ite_self]
  exact returns_pure _ _

/-- The node of a `run.created` payload fits the schema. -/
structure NodeFits (H : Host) (node : Json) : Prop where
  isObj : node.isObj = true
  has : ∀ k ∈ ["id", "kind", "objective"], node.has k = true
  bindable : ∀ k ∈ ["id", "kind", "objective"], Bindable H (node.get k)
  notNull : ∀ k ∈ ["kind", "objective"], (node.get k).isNull = false
  risk : Bindable H (node.getD "risk" (.str "")) ∧ (node.getD "risk" (.str "")).isNull = false
  status : Bindable H (node.getD "status" (.str "pending")) ∧
    (node.getD "status" (.str "pending")).isNull = false

/-- The edge of a `run.created` payload fits the schema: it joins two nodes that are stored or
that the event stores before it. -/
structure EdgeFits (H : Host) (nodes : List SqlVal) (edge : Json) : Prop where
  isObj : edge.isObj = true
  has : ∀ k ∈ ["src_id", "dst_id"], edge.has k = true
  bindable : ∀ k ∈ ["src_id", "dst_id"], Bindable H (edge.get k)
  notNull : ∀ k ∈ ["src_id", "dst_id"], (edge.get k).isNull = false
  mem : ∀ k ∈ ["src_id", "dst_id"], (boundVal (edge.get k)).asText H ∈ nodes

theorem item_eq {x : Json} {k : String} (hx : x.isObj = true) (hk : x.has k = true) :
    x.item k = .ok (x.get k) := by
  cases x with
  | obj d => simp [Json.item, hk]
  | _ => cases hx

theorem wp_item {x : Json} {k : String} {Q : Json → Db → Prop} (hx : x.isObj = true)
    (hk : x.has k = true) : Act.wp (item x k) Q E db ↔ Q (x.get k) db := by
  rw [item, wp_ofExcept, item_eq hx hk]

/-- A fitting node is inserted under its id; the graphs and the ids of the nodes stay. -/
theorem wp_applyNode {graphId node : Json} (hid : Bindable H graphId)
    (hnull : graphId.isNull = false)
    (hg : (boundVal graphId).asText H ∈ db.workGraphs.map (·.id)) (hf : NodeFits H node) :
    Act.wp (applyNode H graphId node)
      (fun _ db' => db'.workGraphs = db.workGraphs ∧
        (∀ v, v ∈ db.workNodes.map (·.id) → v ∈ db'.workNodes.map (·.id)) ∧
        (boundVal (node.get "id")).asText H ∈ db'.workNodes.map (·.id))
      (fun _ _ => False) db := by
  obtain ⟨hobj, hhas, hb, hn, hrisk, hstatus⟩ := hf
  simp only [List.forall_mem_cons, List.not_mem_nil, false_imp_iff, implies_true, and_true]
    at hhas hb hn
  unfold applyNode
  simp only [wp_bind, wp_item hobj, hhas, wp_text, hb, hid, hrisk, hstatus]
  unfold insertNode
  rw [wp_exec, requireNotNull_eq_ok.2
    (by simp [isNull_boundVal, hb, hid, hnull, hn, hrisk, hstatus])]
  simp only [bind, Except.bind, requireRef_ok (Or.inr hg)]
  exact ⟨trivial, fun v hv => Table.mem_map_replace (fun _ _ => SqlVal.eq_of_key_eq) hv,
    Table.mem_map_replace_self⟩

/-- A fitting edge is inserted; the graphs and the nodes stay. -/
theorem wp_applyEdge {graphId edge : Json} {nodes : List SqlVal} (hid : Bindable H graphId)
    (hnull : graphId.isNull = false)
    (hg : (boundVal graphId).asText H ∈ db.workGraphs.map (·.id))
    (hnodes : ∀ v ∈ nodes, v ∈ db.workNodes.map (·.id)) (hf : EdgeFits H nodes edge) :
    Act.wp (applyEdge H graphId edge)
      (fun _ db' => db'.workGraphs = db.workGraphs ∧ db'.workNodes = db.workNodes)
      (fun _ _ => False) db := by
  obtain ⟨hobj, hhas, hb, hn, hmem⟩ := hf
  simp only [List.forall_mem_cons, List.not_mem_nil, false_imp_iff, implies_true, and_true]
    at hhas hb hn hmem
  unfold applyEdge
  simp only [wp_bind, wp_item hobj, hhas, wp_text, hb, hid]
  unfold insertEdge
  rw [wp_exec, requireNotNull_eq_ok.2 (by simp [isNull_boundVal, hb, hid, hnull, hn])]
  simp only [bind, Except.bind, requireRef_ok (Or.inr hg),
    requireRef_ok (Or.inr (hnodes _ hmem.1)), requireRef_ok (Or.inr (hnodes _ hmem.2))]
  exact ⟨trivial, trivial⟩

/-- A `run.created` event whose nodes and edges fit is accepted. -/
theorem returns_applyRunCreated {env p : Json} {nodes edges : List Json}
    (ht : Bindable H (eventTime env p)) (htn : (eventTime env p).isNull = false)
    (hb : ∀ k ∈ ["id", "objective", "status"], Bindable H (p.get k))
    (hversion : ∃ n, p.get "version" = .int n ∧ -2 ^ 63 ≤ n ∧ n < 2 ^ 63)
    (hnodes : p.get "nodes" = .arr nodes) (hedges : p.get "edges" = .arr edges)
    (hn : ∀ node ∈ nodes, NodeFits H node)
    (he : ∀ edge ∈ edges, EdgeFits H (db.workNodes.map (·.id) ++
      nodes.map fun node => (boundVal (node.get "id")).asText H) edge) :
    Returns (applyRunCreated H env p) db := by
  unfold Returns applyRunCreated
  rw [wp_ite]
  refine ⟨fun _ => returns_pure _ _, fun hnone => ?_⟩
  have hnull := get_of_not_anyNone hnone
  simp only [List.forall_mem_cons, List.not_mem_nil, false_imp_iff, implies_true, and_true]
    at hb hnull
  obtain ⟨n, hv, hrange⟩ := hversion
  have hint : Bindable H (.int n) := hrange
  simp only [wp_bind, wp_text, wp_integer, hv, hb, ht, hint]
  unfold insertGraph
  rw [wp_exec, requireNotNull_eq_ok.2 (by simp [isNull_boundVal, hb, hnull, ht, htn])]
  simp only [wp_ofExcept, hnodes, hedges, Json.items]
  -- the nodes, then the edges between nodes that are all there
  refine wp_mono (wp_forM_parts (I := fun done db' =>
    (boundVal (p.get "id")).asText H ∈ db'.workGraphs.map (·.id) ∧
      ∀ v ∈ db.workNodes.map (·.id) ++ done.map fun node => (boundVal (node.get "id")).asText H,
        v ∈ db'.workNodes.map (·.id)) (E := fun _ _ => False) ?_ ?_) ?_ fun _ _ h => h
  · exact ⟨Table.mem_map_replace_self, by simp⟩
  · rintro done node rest hl db₁ ⟨hg, hin⟩
    refine wp_mono (wp_applyNode hb.1 hnull.1 hg (hn node (by simp [hl]))) ?_ fun _ _ h => h
    rintro - db₂ ⟨hgraphs, hkeep, hself⟩
    refine ⟨by rw [hgraphs]; exact hg, fun v hv => ?_⟩
    rw [List.map_append, ← List.append_assoc, List.mem_append] at hv
    rcases hv with hv | hv
    · exact hkeep v (hin v hv)
    · rw [List.map_singleton, List.mem_singleton] at hv
      rw [hv]
      exact hself
  · rintro - db₁ ⟨hg, hin⟩
    refine wp_mono (wp_forM (I := fun db' => db'.workGraphs = db₁.workGraphs ∧
      db'.workNodes = db₁.workNodes) (E := fun _ _ => False) ⟨rfl, rfl⟩ ?_)
      (fun _ _ _ => returns_pure _ _) fun _ _ h => h
    rintro edge hedge db₂ ⟨hgraphs, hsame⟩
    refine wp_mono (wp_applyEdge hb.1 hnull.1 (by rw [hgraphs]; exact hg)
      (by rw [hsame]; exact hin) (he edge hedge)) ?_ fun _ _ h => h
    rintro - db₃ ⟨hgraphs', hsame'⟩
    exact ⟨hgraphs'.trans hgraphs, hsame'.trans hsame⟩

/-! ### Capabilities -/

theorem returns_applyLifecycle {env p : Json} {lifecycle : String} {id : String}
    (hid : targetId env p "capability:" = some id) (henc : H.encodes id = true)
    (ht : Bindable H (eventTime env p)) (hto : Bindable H (p.getD "to" (.str lifecycle)))
    (hnn : (p.getD "to" (.str lifecycle)).isNull = false) :
    Returns (applyLifecycle H env p lifecycle) db := by
  have hb : Bindable H (.str id) := henc
  unfold Returns applyLifecycle
  simp only [hid, wp_bind, wp_text, hto, ht, hb]
  exact returns_updateWhere (by simp [isNull_boundVal, hto, hnn])

theorem returns_applyDrift {env p : Json} {id : String}
    (hid : targetId env p "capability:" = some id) (henc : H.encodes id = true)
    (ht : Bindable H (eventTime env p))
    (hb : ∀ k ∈ ["new_digest", "new_state"], Bindable H (p.get k)) :
    Returns (applyDrift H env p) db := by
  have hbid : Bindable H (.str id) := henc
  unfold Returns applyDrift
  simp only [hid]
  rw [wp_ite]
  refine ⟨fun _ => returns_pure _ _, fun hnone => ?_⟩
  have hnull := get_of_not_anyNone hnone
  simp only [List.forall_mem_cons, List.not_mem_nil, false_imp_iff, implies_true, and_true]
    at hb hnull
  simp only [wp_bind, wp_text, hb, ht, hbid]
  exact returns_updateWhere (by simp [isNull_boundVal, hb, hnull])

/-- The permissions of a `capability.discovered` payload fit the schema, where it has some. -/
structure PermissionsFit (H : Host) (permissions : Json) : Prop where
  isObj : permissions.isObj = true
  bindable : ∀ k ∈ ["id", "approved_at", "approved_by"], Bindable H (permissions.get k)

theorem wp_insertCapability {r : CapabilityRow} (hn : ∀ v ∈ [r.name, r.type, r.lifecycle,
    r.createdAt, r.updatedAt], v.isNull = false) :
    Act.wp (insertCapability r) (fun _ db' => r.id ∈ db'.capabilities.map (·.id))
      (fun _ _ => False) db := by
  simp only [List.forall_mem_cons, List.not_mem_nil, false_imp_iff, implies_true, and_true] at hn
  unfold insertCapability
  rw [wp_exec, requireNotNull_eq_ok.2 (by simp [hn])]
  exact Table.mem_map_replace_self

theorem wp_insertVersion {r : VersionRow} (hn : ∀ v ∈ [r.capabilityId, r.version, r.digest,
    r.manifest, r.sourceKind, r.sourceLocation, r.lifecycle, r.createdAt], v.isNull = false)
    (href : r.capabilityId ∈ db.capabilities.map (·.id)) :
    Act.wp (insertVersion r) (fun _ db' => db'.capabilities = db.capabilities)
      (fun _ _ => False) db := by
  simp only [List.forall_mem_cons, List.not_mem_nil, false_imp_iff, implies_true, and_true] at hn
  unfold insertVersion
  rw [wp_exec, requireNotNull_eq_ok.2 (by simp [hn])]
  simp only [bind, Except.bind, requireRef_ok (Or.inr href)]

theorem returns_applyPermissions {p permissions : Json} {id : String}
    (hid : p.get "id" = .str id) (henc : H.encodes id = true) (hf : PermissionsFit H permissions)
    (href : SqlVal.text id ∈ db.capabilities.map (·.id)) :
    Returns (applyPermissions H p permissions) db := by
  obtain ⟨hobj, hb⟩ := hf
  simp only [List.forall_mem_cons, List.not_mem_nil, false_imp_iff, implies_true, and_true] at hb
  have hbid : Bindable H (p.get "id") := by
    rw [hid]
    exact henc
  have hperm : Bindable H
      ((permissions.get "id").orElse (.str (pyStr (p.get "id") ++ "_perm"))) := by
    unfold Json.orElse
    split_ifs
    · exact hb.1
    · refine bindable_str ?_
      rw [hid, H.encodes_append, H.encodes_ascii "_perm" (by decide)]
      exact Bool.and_eq_true_iff.2 ⟨henc, rfl⟩
  have hdict : permissions.dict = .ok permissions := by rw [Json.dict, if_pos hobj]
  have hv : (boundVal (p.get "id")).asText H = .text id := by rw [hid]; rfl
  unfold Returns applyPermissions
  simp only [wp_bind, wp_ofExcept, hdict, wp_text, hperm, hbid, hb]
  unfold insertPermission
  rw [wp_exec, requireNotNull_eq_ok.2 (by simp [hv])]
  simp only [bind, Except.bind, hv, requireRef_ok (Or.inr href)]

theorem returns_applyDiscovered {env p : Json} {id : String} (ht : Bindable H (eventTime env p))
    (htn : (eventTime env p).isNull = false)
    (hb : ∀ k ∈ ["id", "name", "type", "digest", "version_id", "version", "source_kind",
      "source_location", "license", "adapter"], Bindable H (p.get k))
    (hl : Bindable H (p.getD "lifecycle" (.str "quarantined")))
    (hln : (p.getD "lifecycle" (.str "quarantined")).isNull = false)
    (hm : ∀ s, p.get "manifest" = .str s → H.encodes s = true) (hid : p.get "id" = .str id)
    (hperm : (p.get "permissions").truthy = true → PermissionsFit H (p.get "permissions")) :
    Returns (applyDiscovered H env p) db := by
  unfold Returns applyDiscovered
  rw [wp_ite]
  refine ⟨fun _ => returns_pure _ _, fun hnone => ?_⟩
  have hnull := get_of_not_anyNone hnone
  simp only [List.forall_mem_cons, List.not_mem_nil, discoveredFields, false_imp_iff, implies_true,
    and_true] at hb hnull
  have hmanifest : ∀ Q : SqlVal → Db → Prop, ∀ db, (∀ v, v.isNull = false → Q v db) →
      Act.wp (manifestText H (p.get "manifest")) Q (fun _ _ => False) db := by
    intro Q db hQ
    cases hu : p.get "manifest" with
    | str s => exact (wp_text (bindable_str (hm s hu))).2 (hQ _ rfl)
    | _ => exact (wp_pure _).2 (hQ _ rfl)
  have henc : H.encodes id = true := by
    have h := hb.1
    rw [hid] at h
    exact h
  simp only [wp_bind, wp_text, hb, hl, ht]
  refine wp_mono (wp_insertCapability
    (by simp [isNull_boundVal, hb, hnull, hl, hln, ht, htn])) ?_ fun _ _ h => h
  rintro - db₁ hin
  refine hmanifest _ _ fun v hv => ?_
  refine wp_mono (wp_insertVersion
    (by simp [isNull_boundVal, hb, hnull, hl, hln, ht, htn, hv]) hin) ?_ fun _ _ h => h
  rintro - db₂ hsame
  rw [wp_ite]
  refine ⟨fun htrue => ?_, fun _ => returns_pure _ _⟩
  rw [wp_bind]
  refine wp_mono (returns_applyPermissions hid henc (hperm htrue) ?_)
    (fun _ _ _ => returns_pure _ _) fun _ _ h => h
  rw [hsame]
  rw [hid] at hin
  exact hin

/-! ### Memory -/

/-- The source of a `memory.written` payload fits the schema. -/
structure SourceFits (H : Host) (source : Json) : Prop where
  isObj : source.isObj = true
  has : ∀ k ∈ ["id", "source_type", "source_ref"], source.has k = true
  bindable : ∀ k ∈ ["id", "source_type", "source_ref", "source_digest", "observed_at",
    "retrieved_at"], Bindable H (source.get k)
  notNull : ∀ k ∈ ["source_type", "source_ref"], (source.get k).isNull = false
  provenance : Bindable H (source.getD "provenance" (.str "unknown")) ∧
    (source.getD "provenance" (.str "unknown")).isNull = false

theorem wp_applySource {p source : Json} (hb : Bindable H (p.get "id"))
    (hnull : (p.get "id").isNull = false)
    (href : (boundVal (p.get "id")).asText H ∈ db.memoryRecords.map (·.id))
    (hf : SourceFits H source) :
    Act.wp (applySource H p source) (fun _ db' => db'.memoryRecords = db.memoryRecords)
      (fun _ _ => False) db := by
  obtain ⟨hobj, hhas, hbs, hn, hprov⟩ := hf
  simp only [List.forall_mem_cons, List.not_mem_nil, false_imp_iff, implies_true, and_true]
    at hhas hbs hn
  unfold applySource
  simp only [wp_bind, wp_item hobj, hhas, wp_text, hb, hbs, hprov]
  unfold insertSource
  rw [wp_exec, requireNotNull_eq_ok.2 (by simp [isNull_boundVal, hb, hnull, hbs, hn, hprov])]
  simp only [bind, Except.bind, requireRef_ok (Or.inr href)]

/-- The texts that a `memory_records` row takes from its payload. -/
def recordTextFields : List String :=
  ["id", "kind", "title", "claim", "summary", "status", "confidence", "evidence_grade",
    "privacy_class", "authority", "scope", "valid_from", "valid_until", "created_at", "updated_at",
    "owner", "schema_version", "archived", "tags_json"]

theorem returns_applyWritten {p : Json} (sources : List Json)
    (hb : ∀ k ∈ recordTextFields, Bindable H (p.get k))
    (hn : ∀ k ∈ ["status", "confidence", "evidence_grade", "privacy_class", "schema_version"],
      (p.get k).isNull = false)
    (hs : ((p.get "sources").orElse (.arr [])).items = .ok sources)
    (hf : ∀ source ∈ sources, SourceFits H source) :
    Returns (applyWritten H p) db := by
  unfold Returns applyWritten
  rw [wp_ite]
  refine ⟨fun _ => returns_pure _ _, fun hnone => ?_⟩
  have hnull := get_of_not_anyNone hnone
  simp only [List.forall_mem_cons, List.not_mem_nil, recordTextFields, requiredPayloadFields,
    false_imp_iff, implies_true, and_true] at hb hn hnull
  have hint : ∀ j : Json, Bindable H j → j.isNull = false → (boundVal j).asInt.isNull = false := by
    intro j hj h
    cases j with
    | null => cases h
    | arr l => exact hj.elim
    | obj d => exact hj.elim
    | str s =>
      simp only [boundVal, SqlVal.asInt]
      split <;> rfl
    | _ => rfl
  simp only [wp_bind, wp_text, wp_integer, wp_real, hb]
  unfold insertRecord
  rw [wp_exec, requireNotNull_eq_ok.2 (by simp [isNull_boundVal, hb, hnull, hn, hint])]
  simp only [wp_ofExcept, hs]
  refine wp_mono (wp_forM (I := fun db' => (boundVal (p.get "id")).asText H ∈
    db'.memoryRecords.map (·.id)) (E := fun _ _ => False) ?_ ?_) (fun _ _ _ => returns_pure _ _)
    fun _ _ h => h
  · exact Table.mem_map_replace_self
  · rintro source hsource db₁ hin
    refine wp_mono (wp_applySource hb.1 hnull.1 hin (hf source hsource)) ?_ fun _ _ h => h
    rintro - db₂ hsame
    rw [hsame]
    exact hin

theorem returns_applyRetired {env p : Json} {status : String} {archived : ℤ}
    (ht : Bindable H ((p.get "updated_at").orElse (env.get "timestamp")))
    (htn : ((p.get "updated_at").orElse (env.get "timestamp")).isNull = false)
    (hid : Bindable H ((p.get "id").orElse (env.get "target"))) :
    Returns (applyRetired H env p status archived) db := by
  unfold Returns applyRetired
  simp only [wp_bind, wp_text, ht, hid]
  exact wp_mono (returns_updateWhere (by simp [isNull_boundVal, ht, htn]))
    (fun _ _ _ => returns_pure _ _) fun _ _ h => h

/-! ### Events as a whole -/

/-- The fields that the caller of an append fills in can be mirrored. -/
structure EventEnvelope.Mirrorable (H : Host) (e : EventEnvelope) : Prop where
  eventType : H.encodes e.eventType = true
  actor : H.encodes e.actor = true
  privacyClass : H.encodes e.privacyClass = true
  runId : ∀ s ∈ e.runId, H.encodes s = true
  target : ∀ s ∈ e.target, H.encodes s = true

theorem mirrorRow_ok {e : EventEnvelope} {t : String} {env : Json} (h : IsEnvOf H e t env)
    (hs : Mirrored H env) (hm : e.Mirrorable H) : Returns (mirrorRow H env) db := by
  obtain ⟨hobj, hhas, hget⟩ : env.isObj = true ∧ (∀ k ∈ ["event_id", "timestamp", "event_type",
      "actor", "payload", "privacy_class", "hash", "previous_hash"], env.has k = true) ∧
      env.get "event_type" = .str e.eventType ∧ env.get "actor" = .str e.actor ∧
      env.get "privacy_class" = .str e.privacyClass ∧ env.get "run_id" = .ofOption e.runId ∧
      env.get "target" = .ofOption e.target := by
    obtain ⟨eventId, previousHash, rfl⟩ := h
    simp [EventEnvelope.prepared, EventEnvelope.fields, EventEnvelope.scrubbed, List.lookup]
  have hbs : ∀ k ∈ ["event_id", "timestamp", "hash", "previous_hash"],
      Bindable H (env.get k) ∧ (env.get k).isNull = false := by
    intro k hk
    obtain ⟨s, hs, henc⟩ := hs k hk
    rw [hs]
    exact ⟨henc, rfl⟩
  have hb : (Bindable H (.str e.eventType) ∧ Bindable H (.str e.actor) ∧
      Bindable H (.str e.privacyClass)) ∧ Bindable H (.ofOption e.runId) ∧
      Bindable H (.ofOption e.target) :=
    ⟨⟨hm.eventType, hm.actor, hm.privacyClass⟩, bindable_ofOption hm.runId,
      bindable_ofOption hm.target⟩
  simp only [List.forall_mem_cons, List.not_mem_nil, false_imp_iff, implies_true, and_true]
    at hhas hbs
  unfold Returns mirrorRow
  simp only [wp_bind, wp_ofExcept, item_eq hobj, hhas, hget, bindText_eq, hb, hbs]
  unfold insertEvent
  rw [wp_exec, requireNotNull_eq_ok.2 (by simp [isNull_boundVal, hbs])]
  exact trivial

/-- What the reducers read of the envelope that `e` becomes. -/
structure ReadsAs (H : Host) (e : EventEnvelope) (env : Json) : Prop where
  payload : payloadOf env = .ok (e.payload.mapStr H.scrub)
  eventType : env.get "event_type" = .str e.eventType
  target : env.get "target" = .ofOption e.target
  timestamp : ∃ t, env.get "timestamp" = .str t ∧ H.encodes t = true

/-- **An event that can be mirrored and whose reducer returns is not rejected.** -/
theorem not_rejects {e : EventEnvelope} {w : World} (he : e.Open) (hobj : e.payload.isObj = true)
    (hm : e.Mirrorable H)
    (ha : ∀ env db, ReadsAs H e env → db.exceptMirror = w.db.exceptMirror →
      Returns (applyEvent H env) db) :
    ¬ Rejects H e w := by
  rintro ⟨env, x, db, henv, hsealed, hf⟩
  obtain ⟨u, db₁, hmirror⟩ := Returns.exists_ok (s := w.db) (mirrorRow_ok henv hsealed hm)
  have hreads : ReadsAs H e env :=
    ⟨henv.payloadOf hobj, henv.eventType, henv.target, _, henv.timestamp, he.encodes_timestampAt w⟩
  obtain ⟨d, db₂, happly⟩ := (ha env db₁ hreads ((leaves_mirrorRow env).of_ok hmirror)).exists_ok
  rw [foldEvent, Act.bind_of_ok hmirror, happly] at hf
  cases hf

/-! ### Calls that keep a world synced

A call is shown to keep a world synced when it returns, and to leave `E` when it raises.  With
`E` always true that is all; with `E` the synced worlds every event of the call has to be
accepted, for which the call has a condition on its arguments and the tables. -/

section

variable {E : World → Prop} {w : World} (hmono : H.ClockMonotone) (h : Synced H w)
  (hE : ∀ w', Synced H w' → E w')

include hmono h hE

theorem emit_safe (i : ℕ) {e : EventEnvelope} (he : e.Open)
    (hfit : (∀ w', E w') ∨ ¬ Rejects H e w) :
    Act.wp (emit H i e) (fun _ w' => Synced H w') (fun _ w' => E w') w := by
  refine wp_mono (emit_synced hmono h i he) (fun _ _ h => h) fun x w' hx => ?_
  rcases hx with hs | hr
  · exact hE w' hs
  · exact hfit.elim (fun hall => hall w') fun hno => absurd hr hno

end

end Shiroe

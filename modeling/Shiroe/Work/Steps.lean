import Shiroe.Work.Store

/-!
# What the events of a run do to the tables

The status of a graph, the status of a node and the output of a node are written by one event
each.  An event of a node moves the row under the id after redaction and counts up its version.

* `applyStep_spec` : the fold of a `step.*` event;
* `checkVersion_spec` : the check of a caller's version reads and writes nothing else.
-/

namespace Shiroe

open Act

variable {H : Host}

/-! ### Reading a node -/

theorem nodeRow_eq_ok {db : Db} {nodeId : String} {r : NodeRow} :
    db.nodeRow H nodeId = .ok r ↔
      (bindText H (.str nodeId)).isOk = true ∧ db.node? nodeId = some r := by
  unfold Db.nodeRow
  cases hb : bindText H (.str nodeId) with
  | error x => exact ⟨fun h => (by cases h), fun h => (by cases h.1)⟩
  | ok v =>
    cases db.node? nodeId <;> simp [bind, Except.bind, Except.isOk, Except.toBool]

theorem nodeStateVersion_eq_ok {db : Db} {nodeId : String} {v : ℤ} :
    db.nodeStateVersion H nodeId = .ok v ↔
      (bindText H (.str nodeId)).isOk = true ∧
        ∃ r, db.node? nodeId = some r ∧ r.stateVersion = v := by
  unfold Db.nodeStateVersion
  constructor
  · intro h
    obtain ⟨r, hr, hv⟩ := except_bind_eq_ok.1 h
    obtain ⟨hb, hr⟩ := nodeRow_eq_ok.1 hr
    exact ⟨hb, r, hr, Except.ok.inj hv⟩
  · rintro ⟨hb, r, hr, rfl⟩
    exact except_bind_eq_ok.2 ⟨r, nodeRow_eq_ok.2 ⟨hb, hr⟩, rfl⟩

theorem encodes_of_nodeStateVersion {db : Db} {nodeId : String} {v : ℤ}
    (h : db.nodeStateVersion H nodeId = .ok v) : H.encodes nodeId = true :=
  bindText_isOk (nodeStateVersion_eq_ok.1 h).1

/-- What is read of a node depends on its row alone. -/
theorem nodeStateVersion_congr {db db' : Db} {nodeId : String}
    (h : db'.node? nodeId = db.node? nodeId) :
    db'.nodeStateVersion H nodeId = db.nodeStateVersion H nodeId := by
  simp only [Db.nodeStateVersion, Db.nodeRow, h]

theorem wp_nodeStateVersion {nodeId : String} {w : World} {Q : ℤ → World → Prop}
    {E : Exc → World → Prop} (hE : ∀ x, w.db.nodeStateVersion H nodeId = .error x → E x w)
    (hQ : ∀ v, w.db.nodeStateVersion H nodeId = .ok v → Q v w) :
    Act.wp (nodeStateVersion H nodeId) Q E w := by
  rw [nodeStateVersion, wp_readDb]
  cases hv : w.db.nodeStateVersion H nodeId with
  | ok v => exact hQ v hv
  | error x => exact hE x hv

theorem checkVersion_spec (nodeId : String) (v : ℤ) (w : World) :
    Act.wp (checkVersion H nodeId v)
      (fun _ w' => w' = w ∧ w.db.nodeStateVersion H nodeId = .ok v)
      (fun x w' => w' = w ∧ (w.db.nodeStateVersion H nodeId = .error x ∨
        ∃ v', w.db.nodeStateVersion H nodeId = .ok v' ∧ v' ≠ v ∧
          x = .concurrentWorkUpdate nodeId)) w := by
  rw [checkVersion, wp_bind]
  refine wp_nodeStateVersion (fun x hx => ⟨rfl, Or.inl hx⟩) fun v' hv' => ?_
  rw [wp_ite]
  refine ⟨fun hne => (wp_throw _).2 ⟨rfl, Or.inr ⟨v', hv', hne, rfl⟩⟩, fun heq => ?_⟩
  exact (wp_pure _).2 ⟨rfl, by rw [hv', not_not.1 heq]⟩

/-! ### The events of nodes -/

/-- A row after an event that names a status, an output, or both. -/
def NodeRow.step (next : Option String) (output : Json) (r : NodeRow) : NodeRow :=
  { r with
    status := next.elim r.status .text
    outputJson := if output.isNull then r.outputJson else .json output
    stateVersion := r.stateVersion + 1 }

@[simp] theorem NodeRow.step_id (next : Option String) (output : Json) (r : NodeRow) :
    (r.step next output).id = r.id := rfl

@[simp] theorem NodeRow.step_stateVersion (next : Option String) (output : Json) (r : NodeRow) :
    (r.step next output).stateVersion = r.stateVersion + 1 := rfl

/-- The tables after an event of the node under an id. -/
def Db.stepped (db : Db) (id : String) (next : Option String) (output : Json) : Db :=
  { db with workNodes :=
    Table.update (fun r => r.id = .text id) (NodeRow.step next output) db.workNodes }

theorem wp_updateNode {id : String} {f : NodeRow → NodeRow} {db : Db} {Q : Bool → Db → Prop}
    {E : Exc → Db → Prop}
    (hQ : ∀ b, Q b
      { db with workNodes := Table.update (fun r => r.id = .text id) f db.workNodes }) :
    Act.wp (updateNode [] (.text id) f) Q E db := by
  unfold updateNode updateWhere
  rw [wp_bind, wp_of_ok (show EStateM.get db = .ok db db from rfl), wp_bind, wp_exec]
  have hcheck : requireNotNull "work_nodes" [] = .ok () := rfl
  have hmatch : (fun r : NodeRow => SqlVal.text id ≠ .null && r.id = .text id) =
      fun r => decide (r.id = .text id) := by
    funext r
    simp
  simp only [hcheck, ite_self, wp_pure, hmatch]
  exact hQ _

theorem applyStep_spec {p : Json} {id : String} {next : Option String}
    (hid : p.get "node_id" = .str id) (hto : p.get "to" = .ofOption next) (db : Db) :
    Act.wp (applyStep H p) (fun _ db' => db' = db.stepped id next (p.get "output"))
      (fun _ db' => db' = db) db := by
  unfold applyStep
  rw [if_neg (by rw [hid]; exact Bool.false_ne_true), hto, hid]
  dsimp only
  rw [wp_bind]
  refine wp_text_any (fun _ => rfl) fun v hv => ?_
  rw [wp_bind]
  refine wp_text_any (fun _ => rfl) fun w hw => ?_
  rw [bindText_str_eq_ok hw, wp_bind]
  refine wp_updateNode fun _ => (wp_pure _).2 ?_
  have hstep : ∀ r : NodeRow, { r with
      status := if (Json.ofOption next).isNull = true then r.status else v
      outputJson := if (p.get "output").isNull = true then r.outputJson else .json (p.get "output")
      stateVersion := r.stateVersion + 1 } = r.step next (p.get "output") := by
    intro r
    rw [bindText_ofOption_eq_ok hv]
    cases next <;> rfl
  simp only [hstep]
  rfl

/-- The version of a node after an event under its id. -/
theorem nodeStateVersion_stepped {db : Db} {nodeId : String} {v : ℤ} (next : Option String)
    (output : Json) (h : db.nodeStateVersion H nodeId = .ok v) :
    (db.stepped nodeId next output).nodeStateVersion H nodeId = .ok (v + 1) := by
  obtain ⟨hb, r, hr, rfl⟩ := nodeStateVersion_eq_ok.1 h
  refine nodeStateVersion_eq_ok.2 ⟨hb, r.step next output, ?_, rfl⟩
  have hid : r.id = .text nodeId := by simpa using List.find?_some hr
  have hfind : (db.stepped nodeId next output).node? nodeId =
      (db.node? nodeId).map fun r => if r.id = .text nodeId then r.step next output else r := by
    have h := Table.find?_update (t := db.workNodes) (f := NodeRow.step next output)
      (p := fun r => decide (r.id = .text nodeId)) (q := fun r => decide (r.id = .text nodeId))
      fun _ => rfl
    simpa [Db.node?, Db.stepped] using h
  rw [hfind, hr, Option.map_some, if_pos hid]

theorem applyEvent_stepEvent {nodeId : String} {status : NodeStatus} {t : String} {env : Json}
    (h : IsEnvOf H (stepEvent nodeId status) t env) (db : Db) :
    Act.wp (applyEvent H env)
      (fun _ db' => db' = db.stepped (H.scrub nodeId) (some (H.scrub status.value)) .null)
      (fun _ db' => db' = db) db := by
  have hmem : nodeStatusEvent status ∈ stepEvents := by cases status <;> decide
  rw [applyEvent_step (h.payloadOf (Json.isObj_mkObj _)) hmem h.eventType, touched, wp_map]
  generalize hp : (stepEvent nodeId status).payload.mapStr H.scrub = p
  have hid : p.get "node_id" = .str (H.scrub nodeId) := by simp [← hp, stepEvent, List.lookup]
  have hnext : p.get "to" = .ofOption (some (H.scrub status.value)) := by
    simp [← hp, stepEvent, List.lookup, Json.ofOption]
  have hout : p.get "output" = .null := by simp [← hp, stepEvent, List.lookup]
  exact hout ▸ applyStep_spec hid hnext db

theorem applyEvent_outputEvent {nodeId : String} {output : Json} {t : String} {env : Json}
    (h : IsEnvOf H (outputEvent nodeId output) t env) (db : Db) :
    Act.wp (applyEvent H env)
      (fun _ db' => db' = db.stepped (H.scrub nodeId) none (output.mapStr H.scrub))
      (fun _ db' => db' = db) db := by
  have hmem : "step.completed" ∈ stepEvents := by decide
  rw [applyEvent_step (h.payloadOf (Json.isObj_mkObj _)) hmem h.eventType, touched, wp_map]
  generalize hp : (outputEvent nodeId output).payload.mapStr H.scrub = p
  have hid : p.get "node_id" = .str (H.scrub nodeId) := by simp [← hp, outputEvent, List.lookup]
  have hnext : p.get "to" = .ofOption none := by
    simp [← hp, outputEvent, List.lookup, Json.ofOption]
  have hout : p.get "output" = output.mapStr H.scrub := by simp [← hp, outputEvent, List.lookup]
  exact hout ▸ applyStep_spec hid hnext db

end Shiroe

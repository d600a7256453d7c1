import Shiroe.Nodes.Remote

/-!
# What a remote execution comes to

* `remote_run_logged` : **what the log says of a run**, wherever the run breaks off;
* `remote_result_authentic` : **a result is that of the package that was sent**.
-/

namespace Shiroe

open Act

variable {H : Host} {T : Calendar} {S : RemoteSite T}

/-! ### Values read off values -/

namespace Json

theorem WF.lookup {k : String} {v : Json} {d : List (String × Json)} (hd : WFFields d)
    (hv : d.lookup k = some v) : v.WF := by
  obtain ⟨before, after, rfl, -⟩ := List.lookup_eq_some_iff.1 hv
  exact wfFields_iff.1 hd (k, v) (by simp)

theorem WF.get {j : Json} (h : j.WF) (k : String) : (j.get k).WF := by
  cases j with
  | obj d =>
    rw [Json.get]
    cases hv : d.lookup k with
    | none => exact trivial
    | some v => exact WF.lookup h.2 hv
  | _ => exact trivial

theorem WF.getD {j default : Json} (h : j.WF) (hdefault : default.WF) (k : String) :
    (j.getD k default).WF := by
  rw [Json.getD]
  split_ifs
  · exact h.get k
  · exact hdefault

theorem WF.pair {j : Json} {kv : String × Json} (h : j.WF) (hpair : j.pair = .ok kv) :
    kv.2.WF := by
  unfold Json.pair at hpair
  split at hpair
  · cases hpair
    exact h.2.1
  · cases hpair
    exact trivial
  · split at hpair
    · cases hpair
      exact trivial
    · cases hpair
  · cases hpair

/-- What a list is mapped to is well formed where its items are. -/
theorem WFItems.pairs {l : List Json} {pairs : List (String × Json)} (h : WFItems l)
    (hpairs : List.Forall₂ (fun a kv => a.pair = .ok kv) l pairs) : ∀ kv ∈ pairs, kv.2.WF := by
  induction hpairs with
  | nil => simp
  | cons hpair _ ih => exact List.forall_mem_cons.2 ⟨h.1.pair hpair, ih h.2⟩

theorem WF.toDict {j d : Json} (h : j.WF) (hd : j.toDict = .ok d) : d.WF := by
  unfold Json.toDict at hd
  split at hd
  · cases hd
    exact h
  · obtain ⟨pairs, hpairs, hd⟩ := except_bind_eq_ok.1 hd
    cases hd
    refine WF.mkObj (wfFields_iff.2 fun kv hkv => ?_)
    exact WFItems.pairs h (except_mapM_eq_ok.1 hpairs) kv (List.mem_reverse.1 hkv)
  · cases hd
    exact ⟨List.Pairwise.nil, trivial⟩
  · cases hd
  · cases hd

end Json

/-! ### The receipt on its way -/

/-- The result that a receipt stands for. -/
def ExecutionReceipt.result (r : ExecutionReceipt) : RemoteResult where
  ok := r.ok
  output := r.output
  error := r.error
  exitCode := .int r.exitCode
  stderrTail := r.stderrTail
  metadata := r.metadata
  usage := r.usage

theorem makeReceipt_eq_ok {p : WorkPackage} {result : Json} {controller : String}
    {receipt : ExecutionReceipt} (h : makeReceipt H p result controller = .ok receipt)
    (hp : p.digest.WF) (hresult : result.WF) :
    receipt.packageDigest = p.digest ∧ receipt.metadata.isObj = true ∧ receipt.toDict.WF := by
  obtain ⟨output, houtput, h⟩ := except_bind_eq_ok.1 h
  obtain ⟨exitCode, -, h⟩ := except_bind_eq_ok.1 h
  obtain ⟨metadata, hmetadata, h⟩ := except_bind_eq_ok.1 h
  obtain ⟨usage, husage, h⟩ := except_bind_eq_ok.1 h
  obtain ⟨digest, -, h⟩ := except_bind_eq_ok.1 h
  cases h
  refine ⟨rfl, Json.isObj_toDict hmetadata, ?_⟩
  have hempty : (Json.mkObj []).WF := ⟨List.Pairwise.nil, trivial⟩
  have hzero : zeroUsage.WF := Json.WF.mkObj ⟨trivial, trivial, trivial, trivial⟩
  exact Json.WF.mkObj ⟨trivial, hp, trivial, (hresult.getD hempty _).toDict houtput,
    hresult.get _, trivial, hresult.get _, (hresult.getD hempty _).toDict hmetadata,
    (hresult.getD hzero _).toDict husage, trivial, trivial⟩

/-- A receipt that is written is read as it was. -/
theorem parseReceipt_toDict {receipt : ExecutionReceipt} (h : receipt.toDict.WF) :
    parseReceipt (receipt.toDict.dumpsIndent 0 ++ ['\n']) = .ok receipt.toDict := by
  have hread : loadsText (receipt.toDict.dumpsIndent 0 ++ ['\n']) = some receipt.toDict := by
    rw [loadsText, withoutBlanks_indented, Json.loads_dumps, h.reread]
  rw [parseReceipt, hread]
  rfl

/-- The fields that the controller reads. -/
theorem ExecutionReceipt.get (r : ExecutionReceipt) :
    r.toDict.get "schema" = .str executionReceiptSchema ∧
      r.toDict.get "package_digest" = r.packageDigest ∧ r.toDict.get "ok" = .bool r.ok ∧
      r.toDict.get "output" = r.output ∧ r.toDict.get "error" = r.error ∧
      r.toDict.get "exit_code" = .int r.exitCode ∧ r.toDict.get "stderr_tail" = r.stderrTail ∧
      r.toDict.get "metadata" = r.metadata ∧ r.toDict.get "usage" = r.usage := by
  simp [ExecutionReceipt.toDict, List.lookup]

theorem toDict_orElse {d : Json} (h : d.isObj = true) : (d.orElse (.mkObj [])).toDict = .ok d := by
  cases d with
  | obj fields =>
    cases fields with
    | nil => rfl
    | cons kv fields => rfl
  | _ => cases h

/-! ### The events of a run -/

theorem appendUnmirrored_spec (i : ℕ) (e : EventEnvelope) (cut : Option Cut) (w : World) :
    Act.wp (appendUnmirrored H i e cut)
      (fun _ w' => LineAdded H e w w' ∧ w'.db = w.db)
      (fun _ w' => (w'.dir.iterEvents = w.dir.iterEvents ∨ LineAdded H e w w') ∧ w'.db = w.db)
      w := by
  simp only [appendUnmirrored, reach, modifyDir, wp_bind, wp_get, wp_ite, wp_throw, wp_pure, wp_set,
    wp_modify, wp_ofExcept]
  refine ⟨fun _ => by simp, fun _ => ⟨fun _ => by simp, fun _ => ?_⟩⟩
  refine wp_mono (loadHead_spec i cut w) (fun head w₁ hl => ?_) fun _ w' h =>
    ⟨Or.inl (by rw [h]), by rw [h]⟩
  have hdb : w₁.db = w.db := by rw [hl.frame]
  have hold : ((e.scrubbed H).stamp w₁).dir.iterEvents = w.dir.iterEvents :=
    LogDir.iterEvents_congr hl.files
  have hadded : ∀ {w' : World} {t : String}, w'.dir.iterEvents =
      (((e.scrubbed H).stamp w₁).dir.appendEvent t
        ((e.scrubbed H).preparedAt H w₁ head)).iterEvents → LineAdded H e w w' :=
    fun h => ⟨_, _, hl.isEnv e, h ▸ hold ▸ appendLine_perm _ _ _⟩
  cases validateEnvelope true ((e.scrubbed H).preparedAt H w₁ head) with
  | error x => exact ⟨Or.inl hold, hdb⟩
  | ok u =>
    exact ⟨fun _ => ⟨Or.inl hold, hdb⟩, fun _ => ⟨fun _ => ⟨Or.inr (hadded rfl), hdb⟩,
      fun _ => ⟨hadded rfl, hdb⟩⟩⟩

/-- The log has gained these events, and no table has changed. -/
def Wrote (H : Host) (es : List EventEnvelope) (w w' : World) : Prop :=
  w'.db = w.db ∧ ∃ envs, List.Forall₂ (fun e env => ∃ t, IsEnvOf H e t env) es envs ∧
    w'.dir.iterEvents.Perm (w.dir.iterEvents ++ envs)

theorem Wrote.nothing {w w' : World} (hdir : w'.dir = w.dir) (hdb : w'.db = w.db) :
    Wrote H [] w w' :=
  ⟨hdb, [], .nil, by rw [hdir, List.append_nil]⟩

theorem Wrote.same {es : List EventEnvelope} {w w₁ w' : World} (h : Wrote H es w w₁)
    (hlog : w'.dir.iterEvents = w₁.dir.iterEvents) (hdb : w'.db = w₁.db) : Wrote H es w w' := by
  obtain ⟨hdb₁, envs, henvs, hperm⟩ := h
  exact ⟨hdb.trans hdb₁, envs, henvs, hlog ▸ hperm⟩

theorem Wrote.add {es : List EventEnvelope} {e : EventEnvelope} {w w₁ w' : World}
    (h : Wrote H es w w₁) (hadded : LineAdded H e w₁ w') (hdb : w'.db = w₁.db) :
    Wrote H (es ++ [e]) w w' := by
  obtain ⟨hdb₁, envs, henvs, hperm⟩ := h
  obtain ⟨t, env, henv, hline⟩ := hadded
  refine ⟨hdb.trans hdb₁, envs ++ [env], List.rel_append henvs (.cons ⟨t, henv⟩ .nil), ?_⟩
  rw [← List.append_assoc]
  exact hline.trans (hperm.append_right _)

variable (S) in
/-- An event is added, also by an append that raises, or none. -/
theorem remoteEmit_spec (log : ℕ) (e : EventEnvelope) {es : List EventEnvelope} {w : World}
    {s : RemoteState} (h : Wrote H es w s.project) :
    Act.wp (remoteEmit H S log e)
      (fun _ s' => Wrote H (es ++ [e]) w s'.project ∧ s'.executed = s.executed)
      (fun _ s' => (Wrote H es w s'.project ∨ Wrote H (es ++ [e]) w s'.project) ∧
        s'.executed = s.executed) s := by
  rw [remoteEmit, wp_bind, onProject, wp_zoom]
  refine wp_mono (appendUnmirrored_spec log e _ s.project) (fun _ w' h' => ?_) fun _ w' h' => ?_
  · exact (wp_pure _).2 ⟨h.add h'.1 h'.2, rfl⟩
  · rcases h' with ⟨hlog | hadded, hdb⟩
    · exact ⟨Or.inl (h.same hlog hdb), rfl⟩
    · exact ⟨Or.inr (h.add hadded hdb), rfl⟩

/-! ### The worker's run -/

/-- What is behind a check is reached when the check does not fire. -/
theorem eq_ok_of_check {α : Type} {c : Prop} [Decidable c] {e : Exc} {x : Except Exc α} {a : α}
    (h : (if c then .error e else x) = .ok a) : x = .ok a := by
  by_cases hc : c
  · rw [if_pos hc] at h
    cases h
  · rwa [if_neg hc] at h

/-- What passes is built from the dict. -/
theorem validateWorkPackage_ofDict {d : Json} {worker capability : String}
    {now : Option (Stamp T.Moment)} {q : WorkPackage}
    (h : validateWorkPackage H T d worker capability now = .ok q) :
    WorkPackage.ofDict d = some q := by
  obtain ⟨expected, -, h⟩ := except_bind_eq_ok.1 (eq_ok_of_check h)
  -- the digest, the worker and the capability
  have hchecked := eq_ok_of_check (eq_ok_of_check (eq_ok_of_check h))
  obtain ⟨current, -, hchecked⟩ := except_bind_eq_ok.1 hchecked
  obtain ⟨expiresAt, -, hchecked⟩ := except_bind_eq_ok.1 hchecked
  have hbuilt := eq_ok_of_check hchecked
  cases hdict : WorkPackage.ofDict d with
  | none =>
    rw [hdict] at hbuilt
    cases hbuilt
  | some p =>
    rw [hdict] at hbuilt
    cases hbuilt
    rfl

theorem WorkPackage.digest_ofDict {d : Json} {q : WorkPackage}
    (h : WorkPackage.ofDict d = some q) : q.digest = d.get "digest" := by
  unfold WorkPackage.ofDict at h
  split at h
  · split_ifs at h
    cases h
    rfl
  · cases h

/-- A package that passes the checks states its digest as a text. -/
theorem PassedChecks.digest {W : WorkerSide} {t : List Char} {q : WorkPackage} {controller : String}
    (h : PassedChecks H T W t q controller) : ∃ digest, q.digest = .str digest := by
  obtain ⟨data, -, -, config, capability, -, -, -, -, -, hvalid, -⟩ := h
  obtain ⟨expected, -, hdigest⟩ := validateWorkPackage_digest hvalid
  exact ⟨expected, by rw [WorkPackage.digest_ofDict (validateWorkPackage_ofDict hvalid), hdigest]⟩

/-- The worker has executed a package that it found, after its checks. -/
def Ran (H : Host) (S : RemoteSite T) (found : Option (List Char)) (q : WorkPackage)
    (executed executed' : List WorkPackage) : Prop :=
  ∃ t controller, found = some t ∧ PassedChecks H T S.worker t q controller ∧
    executed' = executed ++ [q]

/-- The worker has executed a package, and this is its receipt. -/
def Receipted (H : Host) (S : RemoteSite T) (found : Option (List Char)) (q : WorkPackage)
    (receipt : ExecutionReceipt) : Prop :=
  ∃ t controller result, found = some t ∧ PassedChecks H T S.worker t q controller ∧
    S.worker.executor q = .ok result ∧ makeReceipt H q result.1 controller = .ok receipt

theorem sshWorkerRun_spec (found : Option (List Char)) (s : RemoteState) :
    Act.wp (sshWorkerRun H S found)
      (fun out s' => s'.project = s.project ∧ ∃ q receipt,
        Ran H S found q s.executed s'.executed ∧ Receipted H S found q receipt ∧
        out = receipt.toDict.dumpsIndent 0 ++ ['\n'])
      (fun _ s' => s'.project = s.project ∧
        (s'.executed = s.executed ∨ ∃ q, Ran H S found q s.executed s'.executed)) s := by
  rw [sshWorkerRun, wp_bind, wp_ofExcept]
  cases S.reached with
  | error e => exact ⟨rfl, Or.inl rfl⟩
  | ok u =>
    dsimp only
    rw [wp_bind, wp_catching, onWorker, wp_zoom]
    refine wp_mono (workerRun_spec found s.executed) ?_ ?_
    · rintro out executed ⟨t, q, controller, result, receipt, hfound, hpassed, hresult, hreceipt,
        rfl, rfl⟩
      have hran : Ran H S found q s.executed (s.executed ++ [q]) :=
        ⟨t, controller, hfound, hpassed, rfl⟩
      cases S.lost with
      | some e => exact (wp_throw _).2 ⟨rfl, Or.inr ⟨q, hran⟩⟩
      | none =>
        exact (wp_pure _).2 ⟨rfl, q, receipt, hran,
          ⟨t, controller, result, hfound, hpassed, hresult, hreceipt⟩, rfl⟩
    · rintro e executed hend
      rw [if_pos rfl]
      refine (wp_throw _).2 ⟨rfl, ?_⟩
      rcases hend with rfl | ⟨t, q, controller, hfound, hpassed, rfl⟩
      · exact Or.inl rfl
      · exact Or.inr ⟨q, t, controller, hfound, hpassed, rfl⟩

/-! ### The whole run -/

section

variable (node : NodeRecord) (package : Json)

/-- The events of a run that returns. -/
def remoteScript (pathType : String) : List EventEnvelope :=
  [remoteEvent node package "remote.execution_started" "started" [("path_type", .str pathType)],
    remoteEvent node package "transfer.started" "started" [],
    remoteEvent node package "transfer.completed" "completed" [],
    remoteEvent node package "remote.execution_completed" "completed" []]

/-- `remote.execution_failed`. -/
def remoteFailed (status : String) : EventEnvelope :=
  remoteEvent node package "remote.execution_failed" status []

/-- `transfer.rejected`. -/
def transferRejected : EventEnvelope :=
  remoteEvent node package "transfer.rejected" "failed" []

/-- The events behind the first `n` of the script, in a run that raises: an append may fail, and its
event is missing then. -/
def remoteClosings : ℕ → List (List EventEnvelope)
  | 0 => [[], [remoteFailed node package "policy_denied"],
      [remoteFailed node package "unreachable"]]
  | 2 => [[], [remoteFailed node package "failed"], [transferRejected node package],
      [transferRejected node package, remoteFailed node package "failed"]]
  | _ => [[], [remoteFailed node package "failed"]]

variable (H S)

/-- What the worker has executed in a run that wrote the first `n` events of the script: nothing
before the transfer was completed, and what was sent when the execution was. -/
def RanBy (found : Option (List Char)) (packageDigest : String) (n : ℕ)
    (executed executed' : List WorkPackage) : Prop :=
  n < 4 ∧ executed' = executed ∨
    3 ≤ n ∧ ∃ q, Ran H S found q executed executed' ∧ (n = 4 → q.digest = .str packageDigest)

variable {H S node package}

/-- Where a run stands that has written the first `n` events of its script. -/
def Stands (H : Host) (node : NodeRecord) (package : Json) (pathType : String) (w : World) (n : ℕ)
    (closing : List EventEnvelope) (s : RemoteState) : Prop :=
  Wrote H ((remoteScript node package pathType).take n ++ closing) w s.project

variable {pathType : String} {w : World}

/-- The next event of the script. -/
theorem stands_emit (log : ℕ) {n : ℕ} {e : EventEnvelope} {s : RemoteState}
    (hnext : (remoteScript node package pathType)[n]? = some e)
    (h : Stands H node package pathType w n [] s) :
    Act.wp (remoteEmit H S log e)
      (fun _ s' => Stands H node package pathType w (n + 1) [] s' ∧ s'.executed = s.executed)
      (fun _ s' => (Stands H node package pathType w n [] s' ∨
        Stands H node package pathType w (n + 1) [] s') ∧ s'.executed = s.executed) s := by
  have hstep : (remoteScript node package pathType).take n ++ [] ++ [e] =
      (remoteScript node package pathType).take (n + 1) ++ [] := by
    rw [List.append_nil, List.append_nil, List.take_add_one, hnext]
    rfl
  have hspec := remoteEmit_spec S log e h
  rw [hstep] at hspec
  exact hspec

/-- An event behind the script. -/
theorem stands_close (log : ℕ) {n : ℕ} {closing : List EventEnvelope} (e : EventEnvelope)
    {s : RemoteState} (h : Stands H node package pathType w n closing s) :
    Act.wp (remoteEmit H S log e)
      (fun _ s' => Stands H node package pathType w n (closing ++ [e]) s' ∧
        s'.executed = s.executed)
      (fun _ s' => (Stands H node package pathType w n closing s' ∨
        Stands H node package pathType w n (closing ++ [e]) s') ∧ s'.executed = s.executed) s := by
  have hspec := remoteEmit_spec S log e h
  rw [List.append_assoc] at hspec
  exact hspec

/-- The receipt of a run that the worker has ended. -/
theorem acceptReceipt_spec (log : ℕ) {packageDigest : String} {found : Option (List Char)}
    {q : WorkPackage} {receipt : ExecutionReceipt} {s : RemoteState}
    (h : Stands H node package pathType w 3 [] s) (hreceipt : Receipted H S found q receipt) :
    Act.wp (acceptReceipt H S log node package packageDigest
        (receipt.toDict.dumpsIndent 0 ++ ['\n']))
      (fun r s' => Stands H node package pathType w 4 [] s' ∧ s'.executed = s.executed ∧
        q.digest = .str packageDigest ∧ r = receipt.result)
      (fun _ s' => s'.executed = s.executed ∧ (Stands H node package pathType w 3 [] s' ∨
        Stands H node package pathType w 4 [] s' ∧ q.digest = .str packageDigest)) s := by
  obtain ⟨t, controller, result, -, hpassed, -, hmake⟩ := hreceipt
  obtain ⟨digest, hdigest⟩ := hpassed.digest
  obtain ⟨hsame, hmetadata, hwf⟩ := makeReceipt_eq_ok hmake (hdigest ▸ trivial) result.2.2
  obtain ⟨hschema, hstated, hok, houtput, herror, hexit, htail, hmeta, husage⟩ := receipt.get
  rw [acceptReceipt, wp_bind, parseReceipt_toDict hwf, wp_ofExcept]
  dsimp only
  rw [if_neg (not_not_intro hschema), wp_ite]
  refine ⟨fun _ => (wp_throw _).2 ⟨rfl, Or.inl h⟩, fun hmatch => ?_⟩
  have hsent : q.digest = .str packageDigest := by
    rw [← hsame, ← hstated]
    exact not_not.1 hmatch
  rw [wp_bind]
  refine wp_mono (stands_emit log rfl h) ?_ ?_
  · rintro _ s₁ ⟨h₁, hexec⟩
    rw [wp_bind, hmeta, toDict_orElse hmetadata, wp_ofExcept]
    refine (wp_pure _).2 ⟨h₁, hexec, hsent, ?_⟩
    rw [hok, houtput, herror, hexit, htail, husage]
    rfl
  · rintro e s₁ ⟨h₁ | h₁, hexec⟩
    · exact ⟨hexec, Or.inl h₁⟩
    · exact ⟨hexec, Or.inr ⟨h₁, hsent⟩⟩

/-- What the part of a run under `try` comes to when it raises. -/
def TryBroken (H : Host) (S : RemoteSite T) (node : NodeRecord) (package : Json) (pathType : String)
    (w : World) (found : Option (List Char)) (packageDigest : String)
    (executed : List WorkPackage) (s' : RemoteState) : Prop :=
  ∃ n closing, 1 ≤ n ∧ n ≤ 4 ∧
    (closing = [] ∨ n = 2 ∧ closing = [transferRejected node package]) ∧
    Stands H node package pathType w n closing s' ∧
    RanBy H S found packageDigest n executed s'.executed

variable {found : Option (List Char)} {packageDigest : String} {executed : List WorkPackage}

/-- It raises before the worker has run. -/
theorem TryBroken.before {n : ℕ} {closing : List EventEnvelope} {s' : RemoteState} (hn : 1 ≤ n)
    (hlt : n < 4) (hclosing : closing = [] ∨ n = 2 ∧ closing = [transferRejected node package])
    (h : Stands H node package pathType w n closing s') (hexec : s'.executed = executed) :
    TryBroken H S node package pathType w found packageDigest executed s' :=
  ⟨n, closing, hn, hlt.le, hclosing, h, Or.inl ⟨hlt, hexec⟩⟩

/-- It raises behind the run of the worker. -/
theorem TryBroken.behind {n : ℕ} {q : WorkPackage} {s' : RemoteState} (hn : 3 ≤ n) (hle : n ≤ 4)
    (h : Stands H node package pathType w n [] s') (hran : Ran H S found q executed s'.executed)
    (hdigest : n = 4 → q.digest = .str packageDigest) :
    TryBroken H S node package pathType w found packageDigest executed s' :=
  ⟨n, [], by omega, hle, Or.inl rfl, h, Or.inr ⟨hn, q, hran, hdigest⟩⟩

/-- The second command and its answer. -/
theorem answered_spec (log : ℕ) {s : RemoteState}
    (h : Stands H node package pathType w 3 [] s) (hexec : s.executed = executed) :
    Act.wp (do
        let stdout ← sshWorkerRun H S found
        acceptReceipt H S log node package packageDigest stdout)
      (fun r s' => Stands H node package pathType w 4 [] s' ∧ ∃ q receipt,
        Ran H S found q executed s'.executed ∧ Receipted H S found q receipt ∧
        q.digest = .str packageDigest ∧ r = receipt.result)
      (fun _ s' => TryBroken H S node package pathType w found packageDigest executed s') s := by
  have hsame : ∀ {s₁ : RemoteState}, s₁.project = s.project →
      Stands H node package pathType w 3 [] s₁ := fun hproject => by
    rw [Stands, hproject]
    exact h
  rw [wp_bind]
  refine wp_mono (sshWorkerRun_spec found s) ?_ ?_
  · rintro _ s₁ ⟨hproject, q, receipt, hran, hreceipt, rfl⟩
    rw [hexec] at hran
    refine wp_mono (acceptReceipt_spec log (hsame hproject) hreceipt) ?_ ?_
    · rintro r s₂ ⟨h₂, hexec₂, hdigest, rfl⟩
      exact ⟨h₂, q, receipt, hexec₂ ▸ hran, hreceipt, hdigest, rfl⟩
    · rintro e s₂ ⟨hexec₂, h₂ | ⟨h₂, hdigest⟩⟩
      · exact .behind le_rfl (by omega) h₂ (hexec₂ ▸ hran) fun hn => by omega
      · exact .behind (by omega) le_rfl h₂ (hexec₂ ▸ hran) fun _ => hdigest
  · rintro e s₁ ⟨hproject, hran⟩
    rw [hexec] at hran
    rcases hran with hran | ⟨q, hran⟩
    · exact .before (by omega) (by omega) (Or.inl rfl) (hsame hproject) hran
    · exact .behind le_rfl (by omega) (hsame hproject) hran fun hn => by omega

/-- The first command: it is logged that it failed. -/
theorem copied_spec (log : ℕ) {s : RemoteState} (h : Stands H node package pathType w 2 [] s)
    (hexec : s.executed = executed) :
    Act.wp (Act.catching isRemoteError (Act.ofExcept S.copied) fun e => do
        remoteEmit H S log (remoteEvent node package "transfer.rejected" "failed" [])
        throw e)
      (fun _ s' => s' = s)
      (fun _ s' => TryBroken H S node package pathType w found packageDigest executed s') s := by
  rw [wp_catching, wp_ofExcept]
  cases S.copied with
  | ok u => rfl
  | error e =>
    dsimp only
    split_ifs
    · rw [wp_bind]
      refine wp_mono (stands_close log (transferRejected node package) h) ?_ ?_
      · rintro _ s₁ ⟨h₁, hexec₁⟩
        exact (wp_throw _).2 (.before (by omega) (by omega) (Or.inr ⟨rfl, rfl⟩) h₁
          (hexec₁.trans hexec))
      · rintro e s₁ ⟨h₁ | h₁, hexec₁⟩
        · exact .before (by omega) (by omega) (Or.inl rfl) h₁ (hexec₁.trans hexec)
        · exact .before (by omega) (by omega) (Or.inr ⟨rfl, rfl⟩) h₁ (hexec₁.trans hexec)
    · exact .before (by omega) (by omega) (Or.inl rfl) h hexec

theorem transferAndRun_spec (log : ℕ) {packageId : String} {s : RemoteState}
    (h : Stands H node package pathType w 1 [] s) (hexec : s.executed = executed)
    (hfound : S.inbox packageId (package.dumps true ++ ['\n']) = found) :
    Act.wp (transferAndRun H S log node package packageId packageDigest)
      (fun r s' => Stands H node package pathType w 4 [] s' ∧ ∃ q receipt,
        Ran H S found q executed s'.executed ∧ Receipted H S found q receipt ∧
        q.digest = .str packageDigest ∧ r = receipt.result)
      (fun _ s' => TryBroken H S node package pathType w found packageDigest executed s') s := by
  subst hfound
  rw [transferAndRun, wp_bind, wp_ofExcept]
  cases S.staged with
  | error e => exact .before le_rfl (by omega) (Or.inl rfl) h hexec
  | ok u =>
    dsimp only
    rw [wp_bind]
    refine wp_mono (stands_emit log rfl h) ?_ ?_
    · rintro _ s₁ ⟨h₁, hexec₁⟩
      rw [wp_bind]
      refine wp_mono (copied_spec log h₁ (hexec₁.trans hexec)) ?_ fun _ _ h => h
      rintro _ s₁ rfl
      rw [wp_bind]
      refine wp_mono (stands_emit log rfl h₁) ?_ ?_
      · rintro _ s₂ ⟨h₂, hexec₂⟩
        exact answered_spec log h₂ (hexec₂.trans (hexec₁.trans hexec))
      · rintro e s₂ ⟨h₂ | h₂, hexec₂⟩
        · exact .before (by omega) (by omega) (Or.inl rfl) h₂ (hexec₂.trans (hexec₁.trans hexec))
        · exact .before (by omega) (by omega) (Or.inl rfl) h₂ (hexec₂.trans (hexec₁.trans hexec))
    · rintro e s₁ ⟨h₁ | h₁, hexec₁⟩
      · exact .before le_rfl (by omega) (Or.inl rfl) h₁ (hexec₁.trans hexec)
      · exact .before (by omega) (by omega) (Or.inl rfl) h₁ (hexec₁.trans hexec)

variable (H S node package)

/-- The id of the package, as it stands in the path in the inbox. -/
def sentId : String := ((package.get "package_id").orElse (.str "")).pyText

/-- The digest that the receipt is compared with. -/
def sentDigest : String := ((package.get "digest").orElse (.str "")).pyText

/-- What the worker finds in its inbox. -/
def sentFound : Option (List Char) := S.inbox (sentId package) (package.dumps true ++ ['\n'])

/-- The node and the policy of the project let the package be sent. -/
def SendPermitted : Prop :=
  validateNode node = .ok () ∧ ∃ files, S.policyFiles = .ok files ∧
    requireNetwork (loadPolicy files.privacy files.connectors) files.stack S.allowNetwork
      "remote worker execution" node.transportHost "tailnet" = .ok ()

/-- What a run comes to that raises. -/
def BrokenOff (s s' : RemoteState) : Prop :=
  ∃ pathType n closing, n ≤ 4 ∧ closing ∈ remoteClosings node package n ∧
    Wrote H ((remoteScript node package pathType).take n ++ closing) s.project s'.project ∧
    (n = 0 ∨ SendPermitted S node) ∧
    RanBy H S (sentFound S package) (sentDigest package) n s.executed s'.executed

variable {H S node package}

/-- The closings of a run that was started. -/
theorem mem_remoteClosings {n : ℕ} {closing : List EventEnvelope} (hn : 1 ≤ n)
    (h : closing = [] ∨ n = 2 ∧ closing = [transferRejected node package]) :
    closing ∈ remoteClosings node package n ∧
      closing ++ [remoteFailed node package "failed"] ∈ remoteClosings node package n := by
  rcases h with rfl | ⟨rfl, rfl⟩
  · match n, hn with
    | 1, _ => simp [remoteClosings]
    | 2, _ => simp [remoteClosings]
    | n + 3, _ => simp [remoteClosings]
  · simp [remoteClosings]

theorem BrokenOff.early {s s' : RemoteState} (hdir : s'.project.dir = s.project.dir)
    (hdb : s'.project.db = s.project.db) (hexec : s'.executed = s.executed) :
    BrokenOff H S node package s s' :=
  ⟨"", 0, [], by omega, List.mem_cons_self, Wrote.nothing hdir hdb, Or.inl rfl,
    Or.inl ⟨by omega, hexec⟩⟩

/-- An event of a run that was refused. -/
theorem refuse_spec (log : ℕ) {status : String} {x : Exc} {s s₁ : RemoteState}
    (hstatus : status = "policy_denied" ∨ status = "unreachable")
    (h : Stands H node package "" s.project 0 [] s₁) (hexec : s₁.executed = s.executed) :
    Act.wp (do
        remoteEmit H S log (remoteEvent node package "remote.execution_failed" status [])
        throw x : Act Exc RemoteState RemoteResult)
      (fun _ _ => False) (fun _ s' => BrokenOff H S node package s s') s₁ := by
  have hmem : [remoteFailed node package status] ∈ remoteClosings node package 0 := by
    rcases hstatus with rfl | rfl <;> simp [remoteClosings]
  rw [wp_bind]
  refine wp_mono (stands_close log (remoteFailed node package status) h) ?_ ?_
  · rintro _ s₂ ⟨h₂, hexec₂⟩
    exact (wp_throw _).2 ⟨"", 0, _, by omega, hmem, h₂, Or.inl rfl,
      Or.inl ⟨by omega, hexec₂.trans hexec⟩⟩
  · rintro e s₂ ⟨h₂ | h₂, hexec₂⟩
    · exact ⟨"", 0, _, by omega, List.mem_cons_self, h₂, Or.inl rfl,
        Or.inl ⟨by omega, hexec₂.trans hexec⟩⟩
    · exact ⟨"", 0, _, by omega, hmem, h₂, Or.inl rfl, Or.inl ⟨by omega, hexec₂.trans hexec⟩⟩

/-- A run that was started, with its handler. -/
theorem started_spec (log : ℕ) {s s₁ : RemoteState} (hpermitted : SendPermitted S node)
    (h : Stands H node package pathType s.project 1 [] s₁) (hexec : s₁.executed = s.executed) :
    Act.wp (Act.catching (fun _ => true)
        (transferAndRun H S log node package (sentId package) (sentDigest package)) fun e => do
          remoteEmit H S log (remoteEvent node package "remote.execution_failed" "failed" [])
          throw e)
      (fun r s' => Stands H node package pathType s.project 4 [] s' ∧ ∃ q receipt,
        Ran H S (sentFound S package) q s.executed s'.executed ∧
        Receipted H S (sentFound S package) q receipt ∧
        q.digest = .str (sentDigest package) ∧ r = receipt.result)
      (fun _ s' => BrokenOff H S node package s s') s₁ := by
  rw [wp_catching]
  refine wp_mono (transferAndRun_spec log h hexec rfl) (fun _ _ h => h) ?_
  rintro e s₂ ⟨n, closing, hn, hle, hclosing, h₂, hran⟩
  obtain ⟨hmem, hclosed⟩ := mem_remoteClosings hn hclosing
  rw [if_pos rfl, wp_bind]
  refine wp_mono (stands_close log (remoteFailed node package "failed") h₂) ?_ ?_
  · rintro _ s₃ ⟨h₃, hexec₃⟩
    exact (wp_throw _).2 ⟨pathType, n, _, hle, hclosed, h₃, Or.inr hpermitted, hexec₃ ▸ hran⟩
  · rintro e s₃ ⟨h₃ | h₃, hexec₃⟩
    · exact ⟨pathType, n, _, hle, hmem, h₃, Or.inr hpermitted, hexec₃ ▸ hran⟩
    · exact ⟨pathType, n, _, hle, hclosed, h₃, Or.inr hpermitted, hexec₃ ▸ hran⟩

theorem validatePackageId_eq_ok {s id' : String} (h : validatePackageId s = .ok id') : id' = s := by
  unfold validatePackageId at h
  split_ifs at h
  cases h
  rfl

/-- **What a run comes to.** -/
theorem executeRemotePackage_spec (s : RemoteState) :
    Act.wp (executeRemotePackage H S node package)
      (fun r s' => (∃ pathType, Wrote H (remoteScript node package pathType) s.project s'.project) ∧
        SendPermitted S node ∧ ∃ q receipt,
          Ran H S (sentFound S package) q s.executed s'.executed ∧
          Receipted H S (sentFound S package) q receipt ∧
          q.digest = .str (sentDigest package) ∧ r = receipt.result)
      (fun _ s' => BrokenOff H S node package s s') s := by
  rw [executeRemotePackage, wp_bind, wp_ofExcept]
  cases hnode : validateNode node with
  | error e => exact .early rfl rfl rfl
  | ok u =>
    dsimp only
    rw [wp_ite]
    refine ⟨fun _ => (wp_throw _).2 (.early rfl rfl rfl), fun _ => ?_⟩
    rw [wp_bind, wp_ofExcept]
    cases hid : validatePackageId ((package.get "package_id").orElse (.str "")).pyText with
    | error e => exact .early rfl rfl rfl
    | ok packageId =>
      obtain rfl : packageId = sentId package := validatePackageId_eq_ok hid
      dsimp only
      rw [wp_bind, onProject, wp_zoom, wp_newLog, wp_bind, wp_ofExcept]
      generalize hopened : ({ s with project := _ } : RemoteState) = s₁
      have hdir : s₁.project.dir = s.project.dir := by rw [← hopened]
      have hdb : s₁.project.db = s.project.db := by rw [← hopened]
      have hexec : s₁.executed = s.executed := by rw [← hopened]
      have h₀ : ∀ pathType, Stands H node package pathType s.project 0 [] s₁ := fun _ =>
        Wrote.nothing hdir hdb
      cases hfiles : S.policyFiles with
      | error e => exact .early hdir hdb hexec
      | ok files =>
        dsimp only
        cases hallow : requireNetwork (loadPolicy files.privacy files.connectors) files.stack
            S.allowNetwork "remote worker execution" node.transportHost "tailnet" with
        | error e =>
          cases e with
          | runtimeError message =>
            exact wp_mono (refuse_spec _ (Or.inl rfl) (h₀ _) hexec) (fun _ _ h => h.elim)
              fun _ _ h => h
          | _ => exact (wp_throw _).2 (.early hdir hdb hexec)
        | ok u =>
          have hpermitted : SendPermitted S node := ⟨hnode, files, hfiles, hallow⟩
          dsimp only
          rw [wp_bind, wp_ofExcept]
          cases S.probe node.transportHost with
          | error e => exact .early hdir hdb hexec
          | ok probe =>
            dsimp only
            rw [wp_ite]
            refine ⟨fun _ => ?_, fun _ => ?_⟩
            · exact wp_mono (refuse_spec _ (Or.inr rfl) (h₀ _) hexec) (fun _ _ h => h.elim)
                fun _ _ h => h
            · rw [wp_bind]
              refine wp_mono (stands_emit _ rfl (h₀ probe.pathType)) ?_ ?_
              · rintro _ s₂ ⟨h₂, hexec₂⟩
                refine wp_mono (started_spec _ hpermitted h₂ (hexec₂.trans hexec)) ?_ fun _ _ h => h
                rintro r s₃ ⟨h₃, hrest⟩
                exact ⟨⟨probe.pathType, h₃⟩, hpermitted, hrest⟩
              · rintro e s₂ ⟨h₂ | h₂, hexec₂⟩
                · exact ⟨probe.pathType, 0, [], by omega, List.mem_cons_self, h₂, Or.inl rfl,
                    Or.inl ⟨by omega, hexec₂.trans hexec⟩⟩
                · exact ⟨probe.pathType, 1, [], by omega, List.mem_cons_self, h₂,
                    Or.inr hpermitted, Or.inl ⟨by omega, hexec₂.trans hexec⟩⟩

end

/-! ### Results -/

/-- **What the log says of a run**, wherever the run breaks off and whichever of its appends fail:
the worker executes at most one package, after its checks and after `transfer.completed`, and
`remote.execution_completed` stands for the package that was sent. -/
theorem remote_run_logged (H : Host) (S : RemoteSite T) (node : NodeRecord) (package : Json)
    (s : RemoteState) :
    Act.wp (executeRemotePackage H S node package)
      (fun _ s' => ∃ pathType q, Wrote H (remoteScript node package pathType) s.project s'.project ∧
        Ran H S (sentFound S package) q s.executed s'.executed ∧
        q.digest = .str (sentDigest package))
      (fun _ s' => BrokenOff H S node package s s') s := by
  refine wp_mono (executeRemotePackage_spec s) ?_ fun _ _ h => h
  rintro r s' ⟨⟨pathType, hlog⟩, -, q, receipt, hran, -, hdigest, -⟩
  exact ⟨pathType, q, hlog, hran, hdigest⟩

theorem pyText_orElse_str (s : String) : ((Json.str s).orElse (.str "")).pyText = s := by
  by_cases hempty : s = ""
  · rw [hempty]
    rfl
  · simp [Json.orElse, Json.truthy, hempty, Json.pyText]

/-- A sealed package is compared by its own digest. -/
theorem sentDigest_toDict {p : WorkPackage} (hp : p.Sealed H) :
    Json.str (sentDigest p.toDict) = p.digest := by
  obtain ⟨digest, -, hdigest⟩ := hp.digest
  have hget : p.toDict.get "digest" = .str digest := by
    rw [p.toDict_eq, Json.get_mkObj, hdigest]
    rfl
  rw [sentDigest, hget, pyText_orElse_str, hdigest]

/-- **A result is that of the package that was sent.**  When a remote execution returns, the worker
has executed that package and no other, after all its checks, and what is returned is what it made
of it, whatever happened to the inbox in between, unless the text in it collides. -/
theorem remote_result_authentic {S : RemoteSite T} {p : WorkPackage} (node : NodeRecord)
    (hp : p.Sealed H)
    (hcol : ∀ t d, sentFound S p.toDict = some t → loadsText t = some d →
      H.sha256 ((d.erase "digest").dumps false) = H.sha256 (p.body.dumps false) →
      (d.erase "digest").dumps false = p.body.dumps false) (s : RemoteState) :
    Act.wp (executeRemotePackage H S node p.toDict)
      (fun r s' => SendPermitted S node ∧ s'.executed = s.executed ++ [p] ∧
        ∃ t controller result receipt, sentFound S p.toDict = some t ∧
          loadsText t = some p.toDict ∧ PassedChecks H T S.worker t p controller ∧
          S.worker.executor p = .ok result ∧ makeReceipt H p result.1 controller = .ok receipt ∧
          r = receipt.result)
      (fun _ _ => True) s := by
  refine wp_mono (executeRemotePackage_spec s) ?_ fun _ _ _ => trivial
  rintro r s' ⟨-, hpermitted, q, receipt, ⟨_, _, -, -, hexec⟩,
    ⟨t, controller, result, hfound, hpassed, hresult, hmake⟩, hdigest, rfl⟩
  have hchecks := hpassed
  obtain ⟨data, -, -, config, capability, hdata, -, -, -, -, hvalid, -⟩ := hchecks
  have hbuilt := validateWorkPackage_ofDict hvalid
  have hstated : data.get "digest" = p.digest := by
    rw [← WorkPackage.digest_ofDict hbuilt, hdigest, sentDigest_toDict hp]
  -- another dict under this digest would not have passed
  have hsame : data = p.toDict := by
    by_contra hne
    obtain ⟨e, he⟩ := digest_binds hp (Json.wf_of_loads hdata) hstated hne
      (hcol t data hfound hdata) config.nodeId capability (some (.moment T.now))
    rw [hvalid] at he
    cases he
  rw [hsame, p.ofDict_toDict] at hbuilt
  obtain rfl : p = q := Option.some.inj hbuilt
  exact ⟨hpermitted, hexec, t, controller, result, receipt, hfound, hsame ▸ hdata, hpassed, hresult,
    hmake, rfl⟩

/-! ### A parked worker -/

/-- The arguments for a package without inputs, for `node_1`. -/
def parkedArgs : PackageArgs ℤ := { emptyArgs with workerNodeId := "node_1" }

/-- `default_worker_executor`. -/
def defaultWorkerExecutor (_ : WorkPackage) :
    Except Exc { result : Json // result.isObj = true ∧ result.WF } :=
  .ok ⟨.mkObj [("ok", .bool false),
      ("error", .str "remote execution is parked; no capability executor is configured"),
      ("metadata", .mkObj [("status", .str "parked"),
        ("code", .str "REMOTE_EXECUTION_NOT_ENABLED")])],
    rfl, Json.WF.mkObj ⟨trivial, trivial, Json.WF.mkObj ⟨trivial, trivial, trivial⟩, trivial⟩⟩

/-- A worker that trusts one controller. -/
def parkedWorker : WorkerSide where
  configText := .ok ((Json.mkObj [("schema", .str localNodeSchema), ("node_id", .str "node_1"),
    ("role", .str "worker"), ("trusted_controller_tailscale_id_digests",
      .arr [.str ((Host.quick id).sha256 "controller".toList)])]).dumps true)
  env name :=
    if name = "SSH_CONNECTION" then some "100.64.0.1 50000 100.64.0.2 22"
    else if name = "SHIROE_WORKER_CAPABILITY_DIGEST" then some "sha256:1"
    else none
  isAddress _ := true
  whois _ := .ok "controller"
  executor := defaultWorkerExecutor

/-- A site where nothing fails. -/
def parkedSite : RemoteSite tenMinutes where
  policyFiles := .ok {
    privacy := some "---\nnetwork_scope: tailnet\n---\n"
    connectors := []
    stack := [] }
  allowNetwork := some "1"
  probe _ := .ok { reachable := true, pathType := "direct", raw := "" }
  staged := .ok ()
  copied := .ok ()
  inbox _ line := some line
  reached := .ok ()
  worker := parkedWorker
  detail _ := ""
  lost := none
  cut _ := none

/-- The record of the worker. -/
def parkedNode : NodeRecord where
  id := "node_1"
  role := "worker"
  trusted := true
  transportHost := "worker.tailnet"
  sshUser := "runner"

/-- The parked worker's refusal is what comes back. -/
theorem remote_result_authentic_parked : ∃ p r s',
    makeWorkPackage (Host.quick id) tenMinutes parkedArgs = .ok p ∧
      executeRemotePackage (Host.quick id) parkedSite parkedNode p.toDict
        { project := emptyWorld, executed := [] } = .ok r s' ∧
      r.ok = false ∧ s'.executed = [p] := by
  have hruns : (match makeWorkPackage (Host.quick id) tenMinutes parkedArgs with
      | .error _ => false
      | .ok p => (Act.result? (executeRemotePackage (Host.quick id) parkedSite parkedNode p.toDict)
          { project := emptyWorld, executed := [] }).any fun r => !r.ok) = true := by
    decide +kernel
  cases hmade : makeWorkPackage (Host.quick id) tenMinutes parkedArgs with
  | error e => simp [hmade] at hruns
  | ok p =>
    have hp := makeWorkPackage_spec hmade
    have hcol : ∀ t d, sentFound parkedSite p.toDict = some t → loadsText t = some d →
        (Host.quick id).sha256 ((d.erase "digest").dumps false) =
          (Host.quick id).sha256 (p.body.dumps false) →
        (d.erase "digest").dumps false = p.body.dumps false := by
      intro t d ht hd _
      cases ht
      rw [loadsText_of_serialises (serialises_line hp.wf true)] at hd
      cases hd
      rw [p.erase_toDict]
    have hspec := remote_result_authentic parkedNode hp hcol
      { project := emptyWorld, executed := [] }
    rw [hmade] at hruns
    obtain ⟨r, s', hrun, hok⟩ : ∃ r s', executeRemotePackage (Host.quick id) parkedSite parkedNode
        p.toDict { project := emptyWorld, executed := [] } = .ok r s' ∧ r.ok = false := by
      cases hrun : executeRemotePackage (Host.quick id) parkedSite parkedNode p.toDict
          { project := emptyWorld, executed := [] } with
      | error e s' => simp [Act.result?, hrun] at hruns
      | ok r s' => exact ⟨r, s', rfl, by simpa [Act.result?, hrun] using hruns⟩
    unfold Act.wp at hspec
    rw [hrun] at hspec
    exact ⟨p, r, s', rfl, hrun, hok, hspec.2.1⟩

end Shiroe

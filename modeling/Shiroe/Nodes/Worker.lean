import Shiroe.Capabilities.Onboarding
import Shiroe.Execution.Budget
import Shiroe.Nodes.Protocol
import Shiroe.Transfer.Indented

/-!
# The worker's side

`nodes/local_config.py`, `nodes/worker.py` and `shiroe node worker-run` of `cli/node.py`.  A worker
reads its own configuration, checks a package and who sent it, executes it and writes a receipt.

* `LocalNodeConfig` : a configuration that has passed its checks;
* `localConfig_iff` : **exactly the well-formed configurations without secrets are accepted**,
  however deep a secret lies;
* `workerRun_spec` : what an executed package has passed, and what the receipt says of it.
-/

namespace Shiroe

open Act

/-! ### The configuration of a worker -/

/-- `LOCAL_NODE_SCHEMA`. -/
def localNodeSchema : String := "shiroe.node-local/v1"

/-- `LocalNodeConfigError`, a `ValueError`. -/
def localConfigError (message : String) : Exc := .valueError message

/-- `_SECRET_KEY_PARTS`. -/
def secretKeyParts : List String :=
  ["secret", "token", "api_key", "apikey", "auth_key", "private_key", "password"]

/-- `any(part in str(key).lower() for part in _SECRET_KEY_PARTS)`. -/
def isSecretKey (k : String) : Bool :=
  secretKeyParts.any fun part => decide (part.toList <:+: k.toList.flatMap lowerChars)

/-- A digest in hexadecimal digits. -/
def isSha256Hex (s : String) : Bool :=
  s.toList.length = 64 && s.toList.all fun c => "0123456789abcdef".toList.contains c

/-- `LocalNodeConfig`; its schema and its role have one value. -/
structure LocalNodeConfig where
  nodeId : String
  trustedControllerTailscaleIdDigests : List String
  isNode : startsWith nodeId "node_" = true
  areDigests : ∀ d ∈ trustedControllerTailscaleIdDigests, isSha256Hex d = true

mutual
/-- `_reject_secret_keys`, with the path of the value. -/
def rejectSecretKeys (path : String) : Json → Except Exc Unit
  | .obj d => rejectSecretFields path d
  | .arr l => rejectSecretItems path 0 l
  | _ => .ok ()
/-- The items of a list, from an index on. -/
def rejectSecretItems (path : String) (index : ℕ) : List Json → Except Exc Unit
  | [] => .ok ()
  | a :: l => do
    rejectSecretKeys (path ++ "[" ++ toString index ++ "]") a
    rejectSecretItems path (index + 1) l
/-- The fields of a dict. -/
def rejectSecretFields (path : String) : List (String × Json) → Except Exc Unit
  | [] => .ok ()
  | (k, a) :: d =>
    let name := if path = "" then k else path ++ "." ++ k
    if isSecretKey k then
      .error (localConfigError ("local node config must not contain secret field " ++ name))
    else do
      rejectSecretKeys name a
      rejectSecretFields path d
end

/-- `LocalNodeConfig.__post_init__`, over the values that are given. -/
def LocalNodeConfig.make (schema nodeId role : Json) (trusted : List Json) :
    Except Exc LocalNodeConfig :=
  if schema ≠ .str localNodeSchema then
    .error (localConfigError "unsupported local node config schema")
  else
    match nodeId with
    | .str nodeId =>
      if hnode : startsWith nodeId "node_" = true then
        if role ≠ .str "worker" then
          .error (localConfigError "worker local config role must be worker")
        else
          if hdigests : ∀ d ∈ trusted.map Json.pyText, isSha256Hex d = true then
            .ok { nodeId, trustedControllerTailscaleIdDigests := trusted.map Json.pyText,
                  isNode := hnode, areDigests := hdigests }
          else .error (localConfigError "trusted controller ids must be SHA-256 hex digests")
      else .error (localConfigError "node_id must be a Shiroe node id")
    | _ => .error .attributeError

/-- `load_local_node_config`, over what the file holds. -/
def loadLocalNodeConfig (data : Json) : Except Exc LocalNodeConfig := do
  rejectSecretKeys "" data
  if data.isObj = false then .error .attributeError
  else
    match (data.getD "trusted_controller_tailscale_id_digests" (.arr [])).items with
    -- the source adds the text of the `TypeError`
    | .error _ => .error (localConfigError "malformed local node config")
    | .ok trusted =>
      LocalNodeConfig.make (data.getD "schema" (.str "")) (data.getD "node_id" (.str ""))
        (data.getD "role" (.str "")) trusted

/-! ### What a worker is given -/

/-- What `worker-run` finds on its node. -/
structure WorkerSide where
  /-- The text of `~/.shiroe/node.json`; reading it may fail. -/
  configText : Except Exc (List Char)
  /-- The environment; a variable that is not set has no value. -/
  env : String → Option String
  /-- `ipaddress.ip_address(s)` raises no `ValueError`. -/
  isAddress : String → Bool
  /-- `transport.whois(source).stable_id`. -/
  whois : String → Except Exc String
  /-- `executor(package)`: a dict with string keys. -/
  executor : WorkPackage → Except Exc { result : Json // result.isObj = true ∧ result.WF }

/-- `EXECUTION_RECEIPT_SCHEMA`. -/
def executionReceiptSchema : String := "shiroe.execution-receipt/v1"

/-- `ExecutionReceipt`; its schema has one value. -/
structure ExecutionReceipt where
  packageDigest : Json
  ok : Bool
  output : Json
  error : Json
  exitCode : ℤ
  stderrTail : Json
  metadata : Json
  usage : Json
  controllerTailnetIdDigest : String
  deriving DecidableEq

/-- `ExecutionReceipt.to_dict`. -/
def ExecutionReceipt.toDict (r : ExecutionReceipt) : Json :=
  .mkObj [("schema", .str executionReceiptSchema), ("package_digest", r.packageDigest),
    ("ok", .bool r.ok), ("output", r.output), ("error", r.error), ("exit_code", .int r.exitCode),
    ("stderr_tail", r.stderrTail), ("metadata", r.metadata), ("usage", r.usage),
    ("controller_tailnet_id_digest", .str r.controllerTailnetIdDigest)]

/-- `_zero_usage`. -/
def zeroUsage : Json :=
  .mkObj [("cost_usd", zeroFloat), ("tokens_in", .int 0), ("tokens_out", .int 0)]

variable (H : Host) (T : Calendar) (W : WorkerSide)

/-- `WorkerIdentityError`, a `PermissionError`. -/
def identityError (message : String) : Exc := .denied message

/-- `raw.split()[0]`, if there is one. -/
def firstWord (raw : String) : Option String :=
  match (raw.toList.dropWhile isSpace).takeWhile fun c => !isSpace c with
  | [] => none
  | w => some (String.ofList w)

/-- `source_ip_from_ssh_env`, over the names of the variables. -/
def sourceIpFrom : List String → Except Exc String
  | [] => .error (identityError "missing SSH source identity")
  | key :: keys =>
    match (W.env key).bind firstWord with
    | none => sourceIpFrom keys
    | some source =>
      if W.isAddress source then .ok source
      else .error (identityError (key ++ " source address is malformed"))

/-- `source_ip_from_ssh_env`. -/
def sourceIpFromSshEnv : Except Exc String := sourceIpFrom W ["SSH_CONNECTION", "SSH_CLIENT"]

/-- `LocalNodeConfig.digest_tailnet_id`. -/
def digestTailnetId (stableId : String) : Except Exc String :=
  if H.encodes stableId = false then .error (.unicodeEncode stableId)
  else .ok (H.sha256 stableId.toList)

/-- `verify_controller_identity`: the stable id of the controller. -/
def verifyControllerIdentity (config : LocalNodeConfig) : Except Exc String := do
  let source ← sourceIpFromSshEnv W
  let stableId ← W.whois source
  let digest ← digestTailnetId H stableId
  if digest ∈ config.trustedControllerTailscaleIdDigests then return stableId
  else .error (identityError "controller stable Tailnet id is not trusted")

/-- `except WorkPackageError` of `worker_run_package`. -/
def asWorkerError {α : Type} : Except Exc α → Except Exc α
  | .error (.valueError message) => .error (.runtimeError message)
  | x => x

/-- `except WorkerIdentityError` of `worker_run_package`. -/
def asRejectedIdentity {α : Type} : Except Exc α → Except Exc α
  | .error (.denied message) =>
    .error (.runtimeError ("controller identity rejected: " ++ message))
  | x => x

/-- The receipt of a result. -/
def makeReceipt (package : WorkPackage) (result : Json) (controller : String) :
    Except Exc ExecutionReceipt := do
  let output ← (result.getD "output" (.mkObj [])).toDict
  let exitCode ← pyIntOf (result.getD "exit_code" (.int 0))
  let metadata ← (result.getD "metadata" (.mkObj [])).toDict
  let usage ← (result.getD "usage" zeroUsage).toDict
  let digest ← digestTailnetId H controller
  return {
    packageDigest := package.digest
    ok := (result.getD "ok" (.bool false)).truthy
    output
    error := result.get "error"
    exitCode
    stderrTail := result.get "stderr_tail"
    metadata
    usage
    controllerTailnetIdDigest := digest }

/-- `worker_run_package`, over the packages that the node has executed. -/
def workerRunPackage (data : Json) (config : LocalNodeConfig) (capabilityDigest : String) :
    Act Exc (List WorkPackage) ExecutionReceipt := do
  if data.isObj = false then throw .attributeError
  else do
    let package ← Act.ofExcept (asWorkerError
      (validateWorkPackage H T data config.nodeId capabilityDigest (some (.moment T.now))))
    let controller ← Act.ofExcept (asRejectedIdentity (verifyControllerIdentity H W config))
    modify (· ++ [package])
    let result ← Act.ofExcept (W.executor package)
    Act.ofExcept (makeReceipt H package result.1 controller)

/-- `_worker_run` of `cli/node.py`, over the text of the package file: what it writes. -/
def workerRun (text : Option (List Char)) : Act Exc (List WorkPackage) (List Char) := do
  match text with
  | none => throw .osError
  | some text =>
    match loadsText text with
    | none => throw (.jsonDecode (String.ofList text))
    | some data => do
      let configText ← Act.ofExcept W.configText
      match loadsText configText with
      | none => throw (.jsonDecode (String.ofList configText))
      | some configData => do
        let config ← Act.ofExcept (loadLocalNodeConfig configData)
        let capabilityDigest := (W.env "SHIROE_WORKER_CAPABILITY_DIGEST").getD ""
        if capabilityDigest = "" then
          throw (.runtimeError "SHIROE_WORKER_CAPABILITY_DIGEST is required for worker-run")
        else do
          let receipt ← workerRunPackage H T W data config capabilityDigest
          return receipt.toDict.dumpsIndent 0 ++ ['\n']

/-! ### Configurations without secrets -/

/-- The value stands somewhere in the other. -/
inductive Json.Inside (j : Json) : Json → Prop where
  | here : Inside j j
  | item {a : Json} {l : List Json} (ha : a ∈ l) (h : Inside j a) : Inside j (.arr l)
  | field {kv : String × Json} {d : List (String × Json)} (hkv : kv ∈ d) (h : Inside j kv.2) :
    Inside j (.obj d)

/-- No dict in the value has a secret for a key. -/
def NoSecret (data : Json) : Prop :=
  ∀ d, Json.Inside (.obj d) data → ∀ kv ∈ d, isSecretKey kv.1 = false

theorem noSecret_obj {d : List (String × Json)} :
    NoSecret (.obj d) ↔ ∀ kv ∈ d, isSecretKey kv.1 = false ∧ NoSecret kv.2 := by
  constructor
  · intro h kv hkv
    exact ⟨h d .here kv hkv, fun d' hd' => h d' (.field hkv hd')⟩
  · intro h d' hd' kv hkv
    cases hd' with
    | here => exact (h kv hkv).1
    | field hkv' hin => exact (h _ hkv').2 d' hin kv hkv

theorem noSecret_arr {l : List Json} : NoSecret (.arr l) ↔ ∀ a ∈ l, NoSecret a := by
  constructor
  · exact fun h a ha d hd => h d (.item ha hd)
  · intro h d hd
    cases hd with
    | item ha hin => exact h _ ha d hin

mutual
/-- **The walk finds every secret**, however deep it lies. -/
theorem rejectSecretKeys_iff : ∀ (path : String) (data : Json),
    rejectSecretKeys path data = .ok () ↔ NoSecret data
  | path, .obj d => by
    rw [rejectSecretKeys, noSecret_obj, rejectSecretFields_iff path d]
  | path, .arr l => by
    rw [rejectSecretKeys, noSecret_arr, rejectSecretItems_iff path 0 l]
  | _, .null | _, .bool _ | _, .int _ | _, .float _ | _, .str _ =>
    iff_of_true rfl fun d hd => by cases hd
theorem rejectSecretItems_iff : ∀ (path : String) (index : ℕ) (l : List Json),
    rejectSecretItems path index l = .ok () ↔ ∀ a ∈ l, NoSecret a
  | _, _, [] => iff_of_true rfl fun _ ha => by cases ha
  | path, index, a :: l => by
    rw [rejectSecretItems, except_bind_eq_ok, List.forall_mem_cons]
    simp only [exists_const, rejectSecretKeys_iff _ a, rejectSecretItems_iff path (index + 1) l]
theorem rejectSecretFields_iff : ∀ (path : String) (d : List (String × Json)),
    rejectSecretFields path d = .ok () ↔ ∀ kv ∈ d, isSecretKey kv.1 = false ∧ NoSecret kv.2
  | _, [] => iff_of_true rfl fun _ hkv => by cases hkv
  | path, (k, a) :: d => by
    rw [rejectSecretFields, List.forall_mem_cons]
    dsimp only
    cases hk : isSecretKey k with
    | true => simp
    | false =>
      rw [if_neg (by decide), except_bind_eq_ok]
      simp only [exists_const, rejectSecretKeys_iff _ a, rejectSecretFields_iff path d, true_and]
end

theorem unit_bind_eq_ok {α : Type} {x : Except Exc Unit} {f : Unit → Except Exc α} {a : α} :
    (x >>= f) = .ok a ↔ x = .ok () ∧ f () = .ok a := by
  rw [except_bind_eq_ok]
  exact ⟨fun ⟨_, h⟩ => h, fun h => ⟨(), h⟩⟩

/-- A default that is not asked for does not count. -/
theorem getD_eq_str {d : Json} {k s : String} (hs : s ≠ "") :
    d.getD k (.str "") = .str s ↔ d.get k = .str s := by
  rw [Json.getD]
  cases hd : d.has k with
  | true => rw [if_pos rfl]
  | false =>
    rw [if_neg (by decide)]
    have hget : d.get k = .null := by
      cases d with
      | obj fields =>
        rw [Json.has, Option.isSome_eq_false_iff, Option.isNone_iff_eq_none] at hd
        rw [Json.get, hd]
        rfl
      | _ => rfl
    rw [hget]
    exact iff_of_false (fun h => hs (Json.str.inj h).symm) (by simp)

/-- The constructor takes exactly the values of the configuration. -/
theorem LocalNodeConfig.make_eq_ok {schema nodeId role : Json} {trusted : List Json}
    {c : LocalNodeConfig} :
    LocalNodeConfig.make schema nodeId role trusted = .ok c ↔
      schema = .str localNodeSchema ∧ nodeId = .str c.nodeId ∧ role = .str "worker" ∧
        trusted.map Json.pyText = c.trustedControllerTailscaleIdDigests := by
  unfold LocalNodeConfig.make
  constructor
  · intro h
    by_cases hschema : schema ≠ .str localNodeSchema
    · rw [if_pos hschema] at h
      cases h
    · rw [if_neg hschema] at h
      cases nodeId with
      | str nodeId =>
        dsimp only at h
        split_ifs at h with hnode hrole hdigests
        cases h
        exact ⟨not_not.1 hschema, rfl, not_not.1 hrole, rfl⟩
      | _ => cases h
  · rintro ⟨rfl, rfl, rfl, htrusted⟩
    have hdigests : ∀ d ∈ trusted.map Json.pyText, isSha256Hex d = true :=
      htrusted ▸ c.areDigests
    rw [if_neg (not_not_intro rfl)]
    simp only
    rw [dif_pos c.isNode, if_neg (not_not_intro rfl), dif_pos hdigests]
    congr

/-- **Exactly the well-formed configurations without secrets are accepted.** -/
theorem localConfig_iff {data : Json} {c : LocalNodeConfig} :
    loadLocalNodeConfig data = .ok c ↔
      NoSecret data ∧ data.get "schema" = .str localNodeSchema ∧
        data.get "node_id" = .str c.nodeId ∧ data.get "role" = .str "worker" ∧
        ∃ trusted, (data.getD "trusted_controller_tailscale_id_digests" (.arr [])).items =
          .ok trusted ∧ trusted.map Json.pyText = c.trustedControllerTailscaleIdDigests := by
  have hid : c.nodeId ≠ "" := by
    intro h
    have hnode := c.isNode
    rw [h] at hnode
    exact absurd hnode (by decide)
  rw [loadLocalNodeConfig, unit_bind_eq_ok, rejectSecretKeys_iff]
  refine and_congr_right fun _ => ?_
  cases hobj : data.isObj with
  | false =>
    rw [if_pos rfl]
    refine iff_of_false (by simp) fun h => ?_
    cases data with
    | obj _ => cases hobj
    | _ => cases h.1
  | true =>
    rw [if_neg (by decide)]
    cases hitems : (data.getD "trusted_controller_tailscale_id_digests" (.arr [])).items with
    | error e => simp
    | ok trusted =>
      simp only [LocalNodeConfig.make_eq_ok, getD_eq_str hid,
        getD_eq_str (s := localNodeSchema) (by decide), getD_eq_str (s := "worker") (by decide)]
      simp

/-! ### What is executed -/

variable {H T W}

/-- A package has passed the checks of the worker: it was read from the text, its digest, its worker
and its capability match, it has not expired, and it comes from a trusted controller. -/
def PassedChecks (H : Host) (T : Calendar) (W : WorkerSide) (text : List Char) (p : WorkPackage)
    (controller : String) : Prop :=
  ∃ data configText configData config capability,
    loadsText text = some data ∧ W.configText = .ok configText ∧
      loadsText configText = some configData ∧ loadLocalNodeConfig configData = .ok config ∧
      W.env "SHIROE_WORKER_CAPABILITY_DIGEST" = some capability ∧
      validateWorkPackage H T data config.nodeId capability (some (.moment T.now)) = .ok p ∧
      verifyControllerIdentity H W config = .ok controller

theorem asWorkerError_eq_ok {α : Type} {x : Except Exc α} {a : α} :
    asWorkerError x = .ok a ↔ x = .ok a := by
  unfold asWorkerError
  split
  · simp
  · rfl

theorem asRejectedIdentity_eq_ok {α : Type} {x : Except Exc α} {a : α} :
    asRejectedIdentity x = .ok a ↔ x = .ok a := by
  unfold asRejectedIdentity
  split
  · simp
  · rfl

theorem workerRunPackage_spec (data : Json) (config : LocalNodeConfig) (capability : String)
    (executed : List WorkPackage) :
    Act.wp (workerRunPackage H T W data config capability)
      (fun receipt after => ∃ p controller result,
        validateWorkPackage H T data config.nodeId capability (some (.moment T.now)) = .ok p ∧
        verifyControllerIdentity H W config = .ok controller ∧ W.executor p = .ok result ∧
        makeReceipt H p result.1 controller = .ok receipt ∧ after = executed ++ [p])
      (fun _ after => after = executed ∨ ∃ p controller,
        validateWorkPackage H T data config.nodeId capability (some (.moment T.now)) = .ok p ∧
        verifyControllerIdentity H W config = .ok controller ∧ after = executed ++ [p])
      executed := by
  rw [workerRunPackage, wp_ite]
  refine ⟨fun _ => (wp_throw _).2 (Or.inl rfl), fun _ => ?_⟩
  rw [wp_bind, wp_ofExcept]
  cases hvalid : asWorkerError
      (validateWorkPackage H T data config.nodeId capability (some (.moment T.now))) with
  | error e => exact Or.inl rfl
  | ok p =>
    have hp := asWorkerError_eq_ok.1 hvalid
    dsimp only
    rw [wp_bind, wp_ofExcept]
    cases hidentity : asRejectedIdentity (verifyControllerIdentity H W config) with
    | error e => exact Or.inl rfl
    | ok controller =>
      have hc := asRejectedIdentity_eq_ok.1 hidentity
      dsimp only
      rw [wp_bind, wp_modify, wp_bind, wp_ofExcept]
      cases hresult : W.executor p with
      | error e => exact Or.inr ⟨p, controller, hp, hc, rfl⟩
      | ok result =>
        dsimp only
        rw [wp_ofExcept]
        cases hreceipt : makeReceipt H p result.1 controller with
        | error e => exact Or.inr ⟨p, controller, hp, hc, rfl⟩
        | ok receipt => exact ⟨p, controller, result, hp, hc, hresult, hreceipt, rfl⟩

/-- **What a worker executes has passed its checks**, and its receipt is of what it has executed.
At most one package is executed, also when no receipt comes of it. -/
theorem workerRun_spec (text : Option (List Char)) (executed : List WorkPackage) :
    Act.wp (workerRun H T W text)
      (fun out after => ∃ t p controller result receipt, text = some t ∧
        PassedChecks H T W t p controller ∧ W.executor p = .ok result ∧
        makeReceipt H p result.1 controller = .ok receipt ∧ after = executed ++ [p] ∧
        out = receipt.toDict.dumpsIndent 0 ++ ['\n'])
      (fun _ after => after = executed ∨ ∃ t p controller, text = some t ∧
        PassedChecks H T W t p controller ∧ after = executed ++ [p]) executed := by
  unfold workerRun
  cases text with
  | none => exact (wp_throw _).2 (Or.inl rfl)
  | some t =>
    dsimp only
    cases hdata : loadsText t with
    | none => exact (wp_throw _).2 (Or.inl rfl)
    | some data =>
      dsimp only
      rw [wp_bind, wp_ofExcept]
      cases hconfig : W.configText with
      | error e => exact Or.inl rfl
      | ok configText =>
        dsimp only
        cases hconfigData : loadsText configText with
        | none => exact (wp_throw _).2 (Or.inl rfl)
        | some configData =>
          dsimp only
          rw [wp_bind, wp_ofExcept]
          cases hload : loadLocalNodeConfig configData with
          | error e => exact Or.inl rfl
          | ok config =>
            dsimp only
            rw [wp_ite]
            refine ⟨fun _ => (wp_throw _).2 (Or.inl rfl), fun hcapability => ?_⟩
            obtain ⟨capability, henv⟩ : ∃ capability,
                W.env "SHIROE_WORKER_CAPABILITY_DIGEST" = some capability := by
              cases henv : W.env "SHIROE_WORKER_CAPABILITY_DIGEST" with
              | none => simp [henv] at hcapability
              | some capability => exact ⟨capability, rfl⟩
            have haccepted : ∀ p controller,
                validateWorkPackage H T data config.nodeId capability (some (.moment T.now)) =
                  .ok p → verifyControllerIdentity H W config = .ok controller →
                PassedChecks H T W t p controller := fun p controller hp hc =>
              ⟨data, configText, configData, config, capability, hdata, hconfig, hconfigData, hload,
                henv, hp, hc⟩
            rw [wp_bind, henv, Option.getD_some]
            refine wp_mono (workerRunPackage_spec data config capability executed) ?_ ?_
            · rintro receipt after ⟨p, controller, result, hp, hc, hresult, hreceipt, rfl⟩
              exact (wp_pure _).2 ⟨t, p, controller, result, receipt, rfl,
                haccepted p controller hp hc, hresult, hreceipt, rfl, rfl⟩
            · rintro e after (rfl | ⟨p, controller, hp, hc, rfl⟩)
              · exact Or.inl rfl
              · exact Or.inr ⟨t, p, controller, rfl, haccepted p controller hp hc, rfl⟩

end Shiroe

import Shiroe.Transfer.Manifest

/-!
# Work packages

`nodes/protocol.py`.  A package is a dict of thirteen fields whose digest is taken over the other
twelve.  What `datetime` makes of texts is arbitrary (`Calendar`): a package is compared with the
clock, and nothing else is done with its times.

* `makeWorkPackage_spec` : what a package says that was made;
* `validateWorkPackage_of_made` : it passes under its own names and before its end;
* `digest_binds` : no other dict passes under its digest;
* `workPackage_authentic` : both, over every text that a package is sent as.
-/

namespace Shiroe

open Act

/-! ### Times -/

/-- What `datetime` makes of texts and moments. -/
structure Calendar where
  /-- A `datetime`. -/
  Moment : Type
  /-- `datetime.fromisoformat(text)`, where it raises no `ValueError`. -/
  fromIso : String → Option Moment
  /-- The moment in UTC, in microseconds; the change of zone may leave the range of dates. -/
  utc : Moment → Except Exc ℤ
  /-- `isoformat(timespec="seconds")` of the moment in UTC. -/
  iso : Moment → Except Exc String
  /-- `datetime.now(timezone.utc)`. -/
  now : Moment

/-- A value of the type `datetime | str`. -/
inductive Stamp (M : Type) where
  | moment (m : M)
  | text (s : String)

/-- `WorkPackageError`, a `ValueError`. -/
def packageError (message : String) : Exc := .valueError message

namespace Calendar

variable (T : Calendar)

/-- `_iso`. -/
def isoOf : Stamp T.Moment → Except Exc String
  | .text s => .ok s
  | .moment m => T.iso m

/-- `value.replace("Z", "+00:00")`. -/
def zoned (s : String) : String :=
  String.ofList (s.toList.flatMap fun c => if c = 'Z' then "+00:00".toList else [c])

/-- `_parse_time`. -/
def parseTime : Stamp T.Moment → Except Exc ℤ
  | .moment m => T.utc m
  | .text s =>
    match T.fromIso (zoned s) with
    | none => .error (packageError ("invalid package timestamp " ++ pyRepr s))
    | some m => T.utc m

/-- `_parse_time(now or datetime.now(timezone.utc))`. -/
def current (now : Option (Stamp T.Moment)) : Except Exc ℤ :=
  match now with
  | some (.text "") => T.parseTime (.moment T.now)
  | some stamp => T.parseTime stamp
  | none => T.parseTime (.moment T.now)

end Calendar

/-! ### Packages -/

/-- `WORK_PACKAGE_SCHEMA`. -/
def workPackageSchema : String := "shiroe.work-package/v1"

/-- `WorkPackage`; its fields hold whatever it is built from. -/
structure WorkPackage where
  schema : Json
  packageId : Json
  graphId : Json
  workNodeId : Json
  leaseId : Json
  workerNodeId : Json
  capabilityId : Json
  capabilityDigest : Json
  inputs : Json
  timeoutS : Json
  createdAt : Json
  expiresAt : Json
  digest : Json
  deriving DecidableEq

/-- The fields under the digest. -/
def WorkPackage.body (p : WorkPackage) : Json :=
  .mkObj [("schema", p.schema), ("package_id", p.packageId), ("graph_id", p.graphId),
    ("work_node_id", p.workNodeId), ("lease_id", p.leaseId), ("worker_node_id", p.workerNodeId),
    ("capability_id", p.capabilityId), ("capability_digest", p.capabilityDigest),
    ("inputs", p.inputs), ("timeout_s", p.timeoutS), ("created_at", p.createdAt),
    ("expires_at", p.expiresAt)]

/-- `WorkPackage.to_dict`. -/
def WorkPackage.toDict (p : WorkPackage) : Json := p.body.set "digest" p.digest

/-- The names of the fields. -/
def packageFields : List String :=
  ["schema", "package_id", "graph_id", "work_node_id", "lease_id", "worker_node_id",
    "capability_id", "capability_digest", "inputs", "timeout_s", "created_at", "expires_at",
    "digest"]

/-- `WorkPackage(**data)`, where it raises no `TypeError`. -/
def WorkPackage.ofDict (data : Json) : Option WorkPackage :=
  match data with
  | .obj d =>
    if (∀ k ∈ packageFields, data.has k = true) ∧ ∀ kv ∈ d, kv.1 ∈ packageFields then
      some {
        schema := data.get "schema"
        packageId := data.get "package_id"
        graphId := data.get "graph_id"
        workNodeId := data.get "work_node_id"
        leaseId := data.get "lease_id"
        workerNodeId := data.get "worker_node_id"
        capabilityId := data.get "capability_id"
        capabilityDigest := data.get "capability_digest"
        inputs := data.get "inputs"
        timeoutS := data.get "timeout_s"
        createdAt := data.get "created_at"
        expiresAt := data.get "expires_at"
        digest := data.get "digest" }
    else none
  | _ => none

/-- The arguments of `make_work_package`. -/
structure PackageArgs (M : Type) where
  packageId : String
  graphId : String
  workNodeId : String
  leaseId : String
  workerNodeId : String
  capabilityId : String
  capabilityDigest : String
  /-- A dict with string keys, that holds JSON values. -/
  inputs : Json
  inputs_obj : inputs.isObj = true := by rfl
  inputs_wf : inputs.WF
  timeoutS : ℤ
  createdAt : Stamp M
  expiresAt : Stamp M

variable (H : Host) (T : Calendar)

/-- `package_digest`. -/
def packageDigest (data : Json) : Except Exc String :=
  let canonical := (data.erase "digest").dumps false
  if H.encodes (String.ofList canonical) = false then
    .error (.unicodeEncode (String.ofList canonical))
  else .ok ("sha256:" ++ H.sha256 canonical)

/-- `make_work_package`. -/
def makeWorkPackage (a : PackageArgs T.Moment) : Except Exc WorkPackage := do
  let createdAt ← T.isoOf a.createdAt
  let expiresAt ← T.isoOf a.expiresAt
  let data : WorkPackage := {
    schema := .str workPackageSchema
    packageId := .str a.packageId
    graphId := .str a.graphId
    workNodeId := .str a.workNodeId
    leaseId := .str a.leaseId
    workerNodeId := .str a.workerNodeId
    capabilityId := .str a.capabilityId
    capabilityDigest := .str a.capabilityDigest
    inputs := a.inputs
    timeoutS := .int a.timeoutS
    createdAt := .str createdAt
    expiresAt := .str expiresAt
    digest := .null }
  let digest ← packageDigest H data.body
  return { data with digest := .str digest }

/-- `validate_work_package`, over a dict. -/
def validateWorkPackage (data : Json) (workerNodeId capabilityDigest : String)
    (now : Option (Stamp T.Moment)) : Except Exc WorkPackage :=
  if data.get "schema" ≠ .str workPackageSchema then
    .error (packageError "wrong work package schema")
  else do
    let expected ← packageDigest H data
    if data.get "digest" ≠ .str expected then
      .error (packageError "work package digest mismatch")
    else if data.get "worker_node_id" ≠ .str workerNodeId then
      .error (packageError "work package worker identity mismatch")
    else if data.get "capability_digest" ≠ .str capabilityDigest then
      .error (packageError "work package capability digest mismatch")
    else
      let current ← T.current now
      let expiresAt ← T.parseTime (.text ((data.get "expires_at").orElse (.str "")).pyText)
      if expiresAt ≤ current then .error (packageError "work package expired")
      else
        match WorkPackage.ofDict data with
        | some p => .ok p
        -- the source adds the text of the `TypeError`
        | none => .error (packageError "malformed work package")

/-! ### Sending a package -/

/-- The text is what `json.dumps` makes of the value: with the keys of a dict in some order, with
blanks between the tokens, and with the characters outside ASCII escaped or not. -/
def Serialises (text : List Char) (value : Json) : Prop :=
  ∃ (j : Json) (ascii : Bool), j.reread = value ∧ withoutBlanks false text = j.dumps ascii

/-- `json.loads`, on the text of a value. -/
def loadsText (text : List Char) : Option Json := Json.loads (withoutBlanks false text)

theorem loadsText_of_serialises {text : List Char} {value : Json} (h : Serialises text value) :
    loadsText text = some value := by
  obtain ⟨j, ascii, rfl, htext⟩ := h
  rw [loadsText, htext, Json.loads_dumps]

/-- What the controller sends: the canonical text and a line break. -/
theorem serialises_line {value : Json} (h : value.WF) (ascii : Bool) :
    Serialises (value.dumps ascii ++ ['\n']) value := by
  refine ⟨value, ascii, h.reread, ?_⟩
  rw [withoutBlanks_value]
  exact List.append_nil _

/-! ### The digest -/

variable {H T}

theorem packageDigest_eq_ok {data : Json} {digest : String}
    (h : packageDigest H data = .ok digest) :
    digest = "sha256:" ++ H.sha256 ((data.erase "digest").dumps false) := by
  unfold packageDigest at h
  dsimp only at h
  split_ifs at h
  cases h
  rfl

theorem Json.erase_set (j : Json) (k : String) (v : Json) : (j.set k v).erase k = j.erase k := by
  cases j with
  | obj d => rw [set, erase, filter_dictInsert, erase]
  | _ => rfl

theorem WorkPackage.erase_body (p : WorkPackage) : p.body.erase "digest" = p.body :=
  Json.erase_of_not_has (by simp [body, List.lookup])

theorem WorkPackage.erase_toDict (p : WorkPackage) : p.toDict.erase "digest" = p.body := by
  rw [toDict, Json.erase_set, p.erase_body]

theorem packageDigest_toDict (p : WorkPackage) :
    packageDigest H p.toDict = packageDigest H p.body := by
  rw [packageDigest, packageDigest, p.erase_toDict, p.erase_body]

/-! ### Packages as dicts -/

theorem Json.set_mkObj (fields : List (String × Json)) (k : String) (v : Json) :
    (Json.mkObj fields).set k v = .mkObj ((k, v) :: fields) := rfl

/-- The fields of a package, the digest first. -/
theorem WorkPackage.toDict_eq (p : WorkPackage) : p.toDict = .mkObj [("digest", p.digest),
    ("schema", p.schema), ("package_id", p.packageId), ("graph_id", p.graphId),
    ("work_node_id", p.workNodeId), ("lease_id", p.leaseId), ("worker_node_id", p.workerNodeId),
    ("capability_id", p.capabilityId), ("capability_digest", p.capabilityDigest),
    ("inputs", p.inputs), ("timeout_s", p.timeoutS), ("created_at", p.createdAt),
    ("expires_at", p.expiresAt)] := Json.set_mkObj _ _ _

theorem Json.mem_keys_mkObj {fields : List (String × Json)} {d : List (String × Json)}
    (h : Json.mkObj fields = .obj d) : ∀ kv ∈ d, kv.1 ∈ fields.map Prod.fst := by
  cases h
  induction fields with
  | nil => simp
  | cons f fields ih =>
    intro kv hkv
    rcases Json.mem_keys_dictInsert (List.mem_map_of_mem hkv) with h | h
    · exact h ▸ List.mem_cons_self
    · obtain ⟨kv', hkv', heq⟩ := List.mem_map.1 h
      exact List.mem_cons_of_mem _ (heq ▸ ih kv' hkv')

/-- A package is built again from its dict. -/
theorem WorkPackage.ofDict_toDict (p : WorkPackage) : WorkPackage.ofDict p.toDict = some p := by
  have hhas : ∀ k ∈ packageFields, p.toDict.has k = true := by
    simp [toDict_eq, packageFields, List.lookup]
  have hkeys : ∀ d, p.toDict = .obj d → ∀ kv ∈ d, kv.1 ∈ packageFields := by
    intro d hd kv hkv
    have hmem := Json.mem_keys_mkObj (p.toDict_eq ▸ hd) kv hkv
    revert hmem
    simp only [packageFields, List.map_cons, List.map_nil, List.mem_cons, List.not_mem_nil]
    tauto
  unfold ofDict
  split
  · rename_i d hd
    rw [if_pos ⟨hhas, hkeys d hd⟩]
    simp [toDict_eq, List.lookup]
  · rename_i hno
    exact absurd p.toDict_eq (hno _)

/-! ### What is made -/

variable {a : PackageArgs T.Moment} {p : WorkPackage}

/-- A package under the schema, with the digest of its other fields. -/
structure WorkPackage.Sealed (H : Host) (p : WorkPackage) : Prop where
  schema : p.schema = .str workPackageSchema
  digest : ∃ digest, packageDigest H p.toDict = .ok digest ∧ p.digest = .str digest
  wf : p.toDict.WF

/-- **What is made is sealed.** -/
theorem makeWorkPackage_spec (h : makeWorkPackage H T a = .ok p) : p.Sealed H := by
  obtain ⟨createdAt, -, h⟩ := except_bind_eq_ok.1 h
  obtain ⟨expiresAt, -, h⟩ := except_bind_eq_ok.1 h
  obtain ⟨digest, hdigest, h⟩ := except_bind_eq_ok.1 h
  cases h
  refine ⟨rfl, ⟨digest, ?_, rfl⟩, ?_⟩
  · rw [packageDigest_toDict]
    exact hdigest
  · rw [WorkPackage.toDict_eq]
    exact Json.WF.mkObj ⟨trivial, trivial, trivial, trivial, trivial, trivial, trivial, trivial,
      trivial, a.inputs_wf, trivial, trivial, trivial, trivial⟩

/-- A package can be made when its times have texts and its canonical text can be encoded. -/
theorem exists_makeWorkPackage (henc : ∀ s, H.encodes s = true) {createdAt expiresAt : String}
    (hcreated : T.isoOf a.createdAt = .ok createdAt)
    (hexpires : T.isoOf a.expiresAt = .ok expiresAt) :
    ∃ p, makeWorkPackage H T a = .ok p ∧ p.workerNodeId = .str a.workerNodeId ∧
      p.capabilityDigest = .str a.capabilityDigest ∧ p.expiresAt = .str expiresAt := by
  have hdigest : ∀ data : Json, packageDigest H data =
      .ok ("sha256:" ++ H.sha256 ((data.erase "digest").dumps false)) := by
    intro data
    rw [packageDigest, henc, if_neg (by decide)]
  exact ⟨_, except_bind_eq_ok.2 ⟨_, hcreated, except_bind_eq_ok.2 ⟨_, hexpires,
    except_bind_eq_ok.2 ⟨_, hdigest _, rfl⟩⟩⟩, rfl, rfl, rfl⟩

/-! ### What passes -/

/-- A sealed package passes under its own names and before its end. -/
theorem validateWorkPackage_of_sealed (hp : p.Sealed H) {worker capability ends : String}
    (hworker : p.workerNodeId = .str worker) (hcap : p.capabilityDigest = .str capability)
    (hends : p.expiresAt = .str ends) {now : Option (Stamp T.Moment)} {t e : ℤ}
    (hnow : T.current now = .ok t) (hend : T.parseTime (.text ends) = .ok e) (hlt : t < e) :
    validateWorkPackage H T p.toDict worker capability now = .ok p := by
  obtain ⟨digest, hdigest, hsame⟩ := hp.digest
  have hget : p.toDict.get "schema" = .str workPackageSchema ∧
      p.toDict.get "digest" = .str digest ∧ p.toDict.get "worker_node_id" = .str worker ∧
      p.toDict.get "capability_digest" = .str capability ∧
      p.toDict.get "expires_at" = .str ends := by
    simp [p.toDict_eq, List.lookup, hp.schema, hsame, hworker, hcap, hends]
  obtain ⟨hschema, hsum, hname, hversion, hlast⟩ := hget
  have htext : ((Json.str ends).orElse (.str "")).pyText = ends := by
    by_cases hempty : ends = ""
    · rw [hempty]
      rfl
    · simp [Json.orElse, Json.truthy, hempty, Json.pyText]
  rw [validateWorkPackage, if_neg (not_not_intro hschema)]
  refine except_bind_eq_ok.2 ⟨digest, hdigest, ?_⟩
  rw [if_neg (not_not_intro hsum), if_neg (not_not_intro hname), if_neg (not_not_intro hversion)]
  refine except_bind_eq_ok.2 ⟨t, hnow, except_bind_eq_ok.2 ⟨e, ?_, ?_⟩⟩
  · rw [hlast, htext, hend]
  · rw [if_neg (not_le.2 hlt), p.ofDict_toDict]

/-- What passes has the digest that it states. -/
theorem validateWorkPackage_digest {d : Json} {worker capability : String}
    {now : Option (Stamp T.Moment)} {q : WorkPackage}
    (h : validateWorkPackage H T d worker capability now = .ok q) :
    ∃ expected, packageDigest H d = .ok expected ∧ d.get "digest" = .str expected := by
  rw [validateWorkPackage] at h
  by_cases hschema : d.get "schema" ≠ .str workPackageSchema
  · rw [if_pos hschema] at h
    cases h
  · rw [if_neg hschema] at h
    obtain ⟨expected, hexpected, h⟩ := except_bind_eq_ok.1 h
    by_cases hmatch : d.get "digest" ≠ .str expected
    · rw [if_pos hmatch] at h
      cases h
    · exact ⟨expected, hexpected, not_not.1 hmatch⟩

/-- **No other dict passes under the digest of a sealed package**, whatever it is checked for and
whenever, unless the two canonical texts collide. -/
theorem digest_binds (hp : p.Sealed H) {d : Json} (hd : d.WF) (hdigest : d.get "digest" = p.digest)
    (hne : d ≠ p.toDict)
    (hcol : H.sha256 ((d.erase "digest").dumps false) = H.sha256 (p.body.dumps false) →
      (d.erase "digest").dumps false = p.body.dumps false)
    (worker capability : String) (now : Option (Stamp T.Moment)) :
    ∃ e, validateWorkPackage H T d worker capability now = .error e := by
  obtain ⟨digest, hmade, hsame⟩ := hp.digest
  cases hresult : validateWorkPackage H T d worker capability now with
  | error e => exact ⟨e, rfl⟩
  | ok q =>
    obtain ⟨expected, hexpected, hmatch⟩ := validateWorkPackage_digest hresult
    -- the digests agree, so the texts do, and the dicts with them
    have hsha : H.sha256 ((d.erase "digest").dumps false) = H.sha256 (p.body.dumps false) := by
      have hboth : Json.str expected = .str digest := by rw [← hmatch, hdigest, hsame]
      rw [packageDigest_eq_ok hexpected, packageDigest_eq_ok hmade, p.erase_toDict] at hboth
      have htexts := congrArg String.toList (Json.str.inj hboth)
      simp only [String.toList_append, List.append_cancel_left_eq] at htexts
      exact String.toList_injective htexts
    have herase : d.erase "digest" = p.toDict.erase "digest" := by
      rw [p.erase_toDict]
      exact Json.dumps_injective false (hcol hsha)
    have hget : d.get "digest" = p.toDict.get "digest" := by
      rw [hdigest, p.toDict_eq, Json.get_mkObj]
      rfl
    refine absurd (Json.eq_of_erase_eq hd.keySorted hp.wf.keySorted herase hget ?_) hne
    rw [hmatch]
    rfl

/-- **A package is authentic.**  Sent as a text and read again, it passes under its own worker and
capability at every time before its end, and comes out as it was; and no other dict passes that
carries its digest. -/
theorem workPackage_authentic (h : makeWorkPackage H T a = .ok p) :
    (∀ text, Serialises text p.toDict → ∃ d, loadsText text = some d ∧
      ∀ worker capability ends now t e, p.workerNodeId = .str worker →
        p.capabilityDigest = .str capability → p.expiresAt = .str ends →
        T.current now = .ok t → T.parseTime (.text ends) = .ok e → t < e →
        validateWorkPackage H T d worker capability now = .ok p) ∧
    ∀ d : Json, d.WF → d.get "digest" = p.digest → d ≠ p.toDict →
      (H.sha256 ((d.erase "digest").dumps false) = H.sha256 (p.body.dumps false) →
        (d.erase "digest").dumps false = p.body.dumps false) →
      ∀ worker capability now, ∃ e, validateWorkPackage H T d worker capability now = .error e := by
  have hp := makeWorkPackage_spec h
  refine ⟨fun text htext => ⟨_, loadsText_of_serialises htext, ?_⟩, ?_⟩
  · intro worker capability ends now t e hworker hcap hends hnow hend hlt
    exact validateWorkPackage_of_sealed hp hworker hcap hends hnow hend hlt
  · intro d hd hdigest hne hcol worker capability now
    exact digest_binds hp hd hdigest hne hcol worker capability now

/-! ### One package -/

/-- A calendar that knows two texts, ten minutes apart. -/
def tenMinutes : Calendar where
  Moment := ℤ
  fromIso s :=
    if s = "2026-01-01T00:00:00+00:00" then some 1767225600000000
    else if s = "2026-01-01T00:10:00+00:00" then some 1767226200000000
    else none
  utc m := .ok m
  iso m := .ok (if m < 1767226200000000 then "2026-01-01T00:00:00+00:00"
    else "2026-01-01T00:10:00+00:00")
  now := 1767225600000000

/-- Inputs with a list of steps, of which the first one names a command. -/
def stepInputs (command : String) : Json :=
  .mkObj [("steps", .arr [.mkObj [("run", .str command)], .int 2])]

theorem stepInputs_obj (command : String) : (stepInputs command).isObj = true := rfl

theorem stepInputs_wf (command : String) : (stepInputs command).WF :=
  Json.WF.mkObj ⟨⟨Json.WF.mkObj ⟨trivial, trivial⟩, trivial, trivial⟩, trivial⟩

/-- The arguments for a package without inputs. -/
def emptyArgs : PackageArgs ℤ where
  packageId := "package-1"
  graphId := "graph-1"
  workNodeId := "work-1"
  leaseId := "lease-1"
  workerNodeId := "worker-1"
  capabilityId := "capability-1"
  capabilityDigest := "sha256:1"
  inputs := .mkObj []
  inputs_wf := ⟨List.Pairwise.nil, trivial⟩
  timeoutS := 60
  createdAt := .moment 1767225600000000
  expiresAt := .text "2026-01-01T00:10:00Z"

/-- The arguments for a package with steps. -/
def buildArgs : PackageArgs ℤ :=
  { emptyArgs with
    inputs := stepInputs "build"
    inputs_obj := stepInputs_obj _
    inputs_wf := stepInputs_wf _ }

/-- A host whose hash keeps the bytes of the canonical text that hold the inputs. -/
def inputsHost : Host :=
  { Host.plain id with
    digest := fun data => (data.drop 180 ++ List.replicate 32 0).take 32
    digest_length := fun _ => by simp }

/-- The fields of that package, with some inputs and a digest. -/
def buildPackage (command digest : String) : WorkPackage where
  schema := .str workPackageSchema
  packageId := .str "package-1"
  graphId := .str "graph-1"
  workNodeId := .str "work-1"
  leaseId := .str "lease-1"
  workerNodeId := .str "worker-1"
  capabilityId := .str "capability-1"
  capabilityDigest := .str "sha256:1"
  inputs := stepInputs command
  timeoutS := .int 60
  createdAt := .str "2026-01-01T00:00:00+00:00"
  expiresAt := .str "2026-01-01T00:10:00Z"
  digest := .str digest

/-- The digest of that package. -/
def buildDigest : String :=
  "sha256:" ++ inputsHost.sha256 ((buildPackage "build" "").body.dumps false)

theorem makeWorkPackage_build :
    makeWorkPackage inputsHost tenMinutes buildArgs = .ok (buildPackage "build" buildDigest) := rfl

/-- The dict with another command in its inputs, under the digest of the package. -/
def tampered : Json := (buildPackage "erase" buildDigest).toDict

theorem tampered_wf : tampered.WF := by
  rw [tampered, WorkPackage.toDict_eq]
  exact Json.WF.mkObj ⟨trivial, trivial, trivial, trivial, trivial, trivial, trivial, trivial,
    trivial, stepInputs_wf _, trivial, trivial, trivial, trivial⟩

/-- The two commands have different hashes. -/
theorem tampered_hash : inputsHost.sha256 ((buildPackage "erase" buildDigest).body.dumps false) ≠
    inputsHost.sha256 ((buildPackage "build" buildDigest).body.dumps false) := by
  decide +kernel

/-- The line that is sent for the package passes, and the dict with the other command does not. -/
theorem workPackage_authentic_build :
    (∃ d, loadsText ((buildPackage "build" buildDigest).toDict.dumps true ++ ['\n']) = some d ∧
      validateWorkPackage inputsHost tenMinutes d "worker-1" "sha256:1" none =
        .ok (buildPackage "build" buildDigest)) ∧
    ∃ e, validateWorkPackage inputsHost tenMinutes tampered "worker-1" "sha256:1" none =
      .error e := by
  obtain ⟨hsent, hother⟩ := workPackage_authentic makeWorkPackage_build
  obtain ⟨d, hd, hvalid⟩ := hsent _ (serialises_line (makeWorkPackage_spec makeWorkPackage_build).wf
    true)
  refine ⟨⟨d, hd, hvalid _ _ "2026-01-01T00:10:00Z" none 1767225600000000 1767226200000000 rfl
    rfl rfl rfl (by decide) (by decide)⟩, ?_⟩
  refine hother tampered tampered_wf ?_ (fun heq => ?_) (fun hhash => ?_) _ _ _
  · rw [tampered, WorkPackage.toDict_eq]
    exact Json.get_mkObj _ _
  · have hinputs := congrArg (·.get "inputs") heq
    simp only [tampered, WorkPackage.toDict_eq, Json.get_mkObj] at hinputs
    exact absurd hinputs (by decide)
  · rw [tampered, WorkPackage.erase_toDict] at hhash
    exact absurd hhash tampered_hash

end Shiroe
